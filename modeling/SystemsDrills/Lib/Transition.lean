import Mathlib.Tactic

/-!
# Transition systems and their runs

A `System` is a set of start states and a labelled step relation.  Nothing is
assumed of the states or of the labels.

Two views of its executions are used side by side.  `Reachable` is the set of
states, and `Invariant.reachable` is the rule of invariants over it.  A `Run`
of length `n` also remembers *when* things happened: it gives the state at
each moment `0 .. n` and the label of each step `0 .. n - 1`, so that a result
can speak of a moment between the start of a call and its return.

`Exec` is the list form of an execution.  It is easy to build and to glue, and
`Exec.exists_run` turns it into a run whose labels are those of the list.
-/

namespace Transition

/-- A labelled transition system. -/
structure System (σ : Type u) (α : Type v) where
  /-- The start states. -/
  init : σ → Prop
  /-- `step s a s'`: the step labelled `a` may lead from `s` to `s'`. -/
  step : σ → α → σ → Prop

variable {σ : Type u} {α : Type v} {S : System σ α}

/-! ## Reachable states -/

/-- The states some execution visits. -/
inductive System.Reachable (S : System σ α) : σ → Prop where
  | init : S.init s → S.Reachable s
  | step : S.Reachable s → S.step s a s' → S.Reachable s'

/-- A property that holds at the start and that no step out of a reachable
state breaks. -/
structure System.Invariant (S : System σ α) (P : σ → Prop) : Prop where
  start : ∀ s, S.init s → P s
  next : ∀ s a s', S.Reachable s → P s → S.step s a s' → P s'

theorem System.Invariant.reachable {P : σ → Prop} (hP : S.Invariant P) {s : σ}
    (hs : S.Reachable s) : P s := by
  induction hs with
  | init h => exact hP.start _ h
  | step hr h ih => exact hP.next _ _ _ hr ih h

/-! ## Runs -/

/-- A run of `n` steps.  What `st` says beyond moment `n` and `act` from step
`n` on is not part of the run. -/
structure Run (S : System σ α) (n : Nat) where
  /-- The state at each moment. -/
  st : Nat → σ
  /-- The label of each step. -/
  act : Nat → α
  start : S.init (st 0)
  next : ∀ k, k < n → S.step (st k) (act k) (st (k + 1))

namespace Run

variable {n : Nat}

theorem reachable (r : Run S n) : ∀ {k : Nat}, k ≤ n → S.Reachable (r.st k)
  | 0, _ => .init r.start
  | k + 1, hk => .step (r.reachable (k := k) (by omega)) (r.next k (by omega))

/-- Induction along a run, from moment `i` on. -/
theorem induct_from (r : Run S n) {P : Nat → Prop} {i : Nat} (base : P i)
    (step : ∀ k, i ≤ k → k < n → S.step (r.st k) (r.act k) (r.st (k + 1)) → P k → P (k + 1)) :
    ∀ {k : Nat}, i ≤ k → k ≤ n → P k := by
  intro k hik
  induction k, hik using Nat.le_induction with
  | base => intro _; exact base
  | succ k hik ih =>
      intro hk
      exact step k hik (by omega) (r.next k (by omega)) (ih (by omega))

/-- What an observer `f` of the labels has seen before moment `k`, oldest
first. -/
def seen (r : Run S n) (f : α → Option β) (k : Nat) : List β :=
  ((List.range k).map r.act).filterMap f

@[simp] theorem seen_zero (r : Run S n) (f : α → Option β) : r.seen f 0 = [] := rfl

theorem seen_succ (r : Run S n) (f : α → Option β) (k : Nat) :
    r.seen f (k + 1) = r.seen f k ++ (f (r.act k)).toList := by
  simp only [seen, List.range_succ, List.map_append, List.filterMap_append, List.map_cons,
    List.map_nil]
  cases h : f (r.act k) <;> simp [h]

theorem seen_prefix (r : Run S n) (f : α → Option β) {k l : Nat} (h : k ≤ l) :
    r.seen f k <+: r.seen f l := by
  induction l, h using Nat.le_induction with
  | base => exact List.prefix_rfl
  | succ l _ ih =>
      rw [seen_succ]
      exact ih.trans (List.prefix_append _ _)

theorem mem_seen {r : Run S n} {f : α → Option β} {k : Nat} {b : β} :
    b ∈ r.seen f k ↔ ∃ i < k, f (r.act i) = some b := by
  simp [seen]

end Run

/-! ## Executions as lists of labels -/

/-- `S.Exec s as s'`: the steps labelled `as`, in order, may lead from `s` to
`s'`. -/
inductive System.Exec (S : System σ α) : σ → List α → σ → Prop where
  | nil : S.Exec s [] s
  | cons : S.step s a s' → S.Exec s' as s'' → S.Exec s (a :: as) s''

theorem System.Exec.of_eq {s s' : σ} (h : s = s') : S.Exec s [] s' := h ▸ .nil

theorem System.Exec.append {s s' s'' : σ} {as bs : List α} (h : S.Exec s as s')
    (h' : S.Exec s' bs s'') : S.Exec s (as ++ bs) s'' := by
  induction h with
  | nil => exact h'
  | cons hs _ ih => exact .cons hs (ih h')

theorem System.Exec.of_append {s s'' : σ} {as bs : List α} (h : S.Exec s (as ++ bs) s'') :
    ∃ s', S.Exec s as s' ∧ S.Exec s' bs s'' := by
  induction as generalizing s with
  | nil => exact ⟨s, .nil, h⟩
  | cons a as ih =>
      cases h with
      | cons hs h =>
          obtain ⟨s', has, hbs⟩ := ih h
          exact ⟨s', .cons hs has, hbs⟩

/-- An observer of a run sees what it would see in the list of labels. -/
theorem Run.seen_of_map_act {n : Nat} {r : Run S n} {as : List α} (f : α → Option β)
    (h : (List.range n).map r.act = as) : r.seen f n = as.filterMap f :=
  congrArg (List.filterMap f) h

theorem Run.act_of_map_act {n : Nat} {r : Run S n} {as : List α} {k : Nat} {a : α}
    (h : (List.range n).map r.act = as) (hk : as[k]? = some a) : r.act k = a := by
  subst h
  simpa using (List.getElem?_eq_some_iff.mp hk).2

theorem Run.exists_act {n : Nat} {r : Run S n} {as : List α} {a : α}
    (h : (List.range n).map r.act = as) (ha : a ∈ as) : ∃ k < n, r.act k = a := by
  subst h
  simpa using ha

/-- A list execution from a start state is a run with the same labels. -/
theorem System.Exec.exists_run [Inhabited α] {s s' : σ} {as : List α} (hs : S.init s)
    (h : S.Exec s as s') :
    ∃ r : Run S as.length, r.st 0 = s ∧ r.st as.length = s' ∧
      (List.range as.length).map r.act = as := by
  suffices key : ∃ (st : Nat → σ) (act : Nat → α), st 0 = s ∧ st as.length = s' ∧
      (List.range as.length).map act = as ∧
      ∀ k, k < as.length → S.step (st k) (act k) (st (k + 1)) by
    obtain ⟨st, act, h0, hn, hact, hstep⟩ := key
    exact ⟨⟨st, act, h0 ▸ hs, hstep⟩, h0, hn, hact⟩
  clear hs
  induction h with
  | @nil s => exact ⟨fun _ => s, fun _ => default, rfl, rfl, rfl, by simp⟩
  | @cons s a _ _ _ hstep _ ih =>
      obtain ⟨st, act, h0, hn, hact, hsteps⟩ := ih
      refine ⟨fun k => k.casesOn s st, fun k => k.casesOn a act, rfl, hn, ?_, ?_⟩
      · simp only [List.length_cons, List.range_succ_eq_map, List.map_cons, List.map_map]
        exact congrArg _ hact
      · intro k hk
        cases k with
        | zero =>
            show S.step s a (st 0)
            rw [h0]
            exact hstep
        | succ k => exact hsteps k (by simpa using hk)

/-! ## What each thread did -/

/-- A list is made of the parts that belong to each thread. -/
theorem perm_flatMap_filter [DecidableEq β] [DecidableEq T] (g : β → T) (l : List β) {ts : List T}
    (hnodup : ts.Nodup) (hall : ∀ a ∈ l, g a ∈ ts) :
    l.Perm (ts.flatMap fun t => l.filter (g · = t)) := by
  refine List.perm_iff_count.mpr fun a => ?_
  have hcount : ∀ t, (l.filter (g · = t)).count a = if g a = t then l.count a else 0 := by
    intro t
    split
    · next ht => exact List.count_filter (by simpa using ht)
    · next ht => exact List.count_eq_zero.mpr fun h => ht (by simpa using (List.mem_filter.mp h).2)
  rw [List.count_flatMap]
  simp only [Function.comp_def, hcount]
  rw [← List.sum_toFinset _ hnodup, Finset.sum_ite_eq]
  split
  · rfl
  · next hts => exact List.count_eq_zero.mpr fun ha => hts (List.mem_toFinset.mpr (hall a ha))

/-- Only the entry of `t` differs in two sums. -/
theorem sum_add_entry [DecidableEq T] {f g : T → Nat} {ts : Finset T} {t : T} (ht : t ∈ ts)
    (hne : ∀ u, u ≠ t → f u = g u) : ∑ u ∈ ts, f u + g t = ∑ u ∈ ts, g u + f t := by
  have hrest : ∑ u ∈ ts.erase t, f u = ∑ u ∈ ts.erase t, g u :=
    Finset.sum_congr rfl fun u hu => hne u (Finset.ne_of_mem_erase hu)
  rw [← Finset.add_sum_erase ts f ht, ← Finset.add_sum_erase ts g ht, hrest]
  omega

/-! ## Runs that pay for their steps -/

namespace Run

variable {n : Nat} {P : σ → α → Prop} [∀ s a, Decidable (P s a)]

/-- How many of the first `k` steps are of the kind `P`. -/
def count (r : Run S n) (P : σ → α → Prop) [∀ s a, Decidable (P s a)] (k : Nat) : Nat :=
  ((Finset.range k).filter fun i => P (r.st i) (r.act i)).card

theorem count_succ (r : Run S n) (k : Nat) :
    r.count P (k + 1) = r.count P k + if P (r.st k) (r.act k) then 1 else 0 := by
  rw [count, count, Finset.range_add_one, Finset.filter_insert]
  split
  · rw [Finset.card_insert_of_notMem (by simp)]
  · rfl

theorem count_le (r : Run S n) {Q : σ → α → Prop} [∀ s a, Decidable (Q s a)]
    (h : ∀ s a, P s a → Q s a) (k : Nat) : r.count P k ≤ r.count Q k :=
  Finset.card_le_card (Finset.monotone_filter_right _ fun _ _ hP => h _ _ hP)

/-- What the first `k` steps cost. -/
def cost (r : Run S n) (c : σ → α → Nat) (k : Nat) : Nat :=
  ∑ i ∈ Finset.range k, c (r.st i) (r.act i)

theorem cost_succ (r : Run S n) (c : σ → α → Nat) (k : Nat) :
    r.cost c (k + 1) = r.cost c k + c (r.st k) (r.act k) :=
  Finset.sum_range_succ ..

theorem cost_add (r : Run S n) (c c' : σ → α → Nat) (k : Nat) :
    r.cost (fun s a => c s a + c' s a) k = r.cost c k + r.cost c' k :=
  Finset.sum_add_distrib

/-- A weight grows by at most what the steps cost. -/
theorem weight_le_cost (r : Run S n) {w : σ → Nat} {c : σ → α → Nat}
    (h : ∀ k < n, w (r.st (k + 1)) ≤ w (r.st k) + c (r.st k) (r.act k)) :
    w (r.st n) ≤ w (r.st 0) + r.cost c n := by
  refine r.induct_from (i := 0) (P := fun k => w (r.st k) ≤ w (r.st 0) + r.cost c k)
    (by simp [cost]) (fun k _ hk _ ih => ?_) (Nat.zero_le n) le_rfl
  have hpay := h k hk
  rw [cost_succ]
  omega

/-- If each step makes a weight smaller, but for what it costs, then a run is as long as the weight at
its start and its cost allow. -/
theorem length_le_cost (r : Run S n) {w : σ → Nat} {c : σ → α → Nat}
    (h : ∀ k < n, w (r.st (k + 1)) < w (r.st k) + c (r.st k) (r.act k)) :
    n ≤ w (r.st 0) + r.cost c n := by
  have hpaid : n + w (r.st n) ≤ w (r.st 0) + r.cost c n := by
    refine r.induct_from (i := 0) (P := fun k => k + w (r.st k) ≤ w (r.st 0) + r.cost c k)
      (by simp) (fun k _ hk _ ih => ?_) (Nat.zero_le n) le_rfl
    have hpay := h k hk
    rw [cost_succ]
    omega
  omega

/-- The cost of a run whose steps of the kind `P` cost `c` each. -/
theorem cost_ite (r : Run S n) (c k : Nat) :
    r.cost (fun s a => if P s a then c else 0) k = c * r.count P k := by
  rw [cost, count, ← Finset.sum_filter, Finset.sum_const, smul_eq_mul, mul_comm]

/-- If each step makes a weight smaller, but for those of the kind `P`, which may bring `c` less one,
then a run is as long as the weight at its start and `c` for each step of the kind `P` allow. -/
theorem length_le (r : Run S n) {w : σ → Nat} {c : Nat}
    (h : ∀ k < n, w (r.st (k + 1)) < w (r.st k) + if P (r.st k) (r.act k) then c else 0) :
    n ≤ w (r.st 0) + c * r.count P n := by
  rw [← cost_ite]
  exact r.length_le_cost h

end Run

end Transition
