import Mathlib.Tactic

/-!
# Recency lists

A list of entries `(key, value)`, most recently used first.  Using a key moves
its entry to the front (`toFront`).

A cache of capacity `c` keeps the `c` most recently used entries, that is
`used.take c` of the list of all entries ever used.  Two facts make this a
specification one can compute with.  What the cache keeps after a use depends
only on what it kept before (`take_toFront`), so that a cache which forgets the
rest can do the same.  And how deep an entry lies is the number of distinct other
keys used since (`length_ahead_stack`), so that a hit can be read off the history
alone.

A larger cache does not evict in the same order, since it has hits that the
smaller one has not, but it always holds what the smaller one does (`Included`).
-/

namespace Recency

variable {K : Type u} {V : Type v} [DecidableEq K]

/-- The entries of keys other than `k`. -/
def without (k : K) (l : List (K × V)) : List (K × V) := l.filter fun e => e.1 ≠ k

/-- The list after a use of `k`, which now has the value `v`. -/
def toFront (k : K) (v : V) (l : List (K × V)) : List (K × V) := (k, v) :: without k l

/-- The entries in front of the one of `k`. -/
def ahead (k : K) (l : List (K × V)) : List (K × V) := l.takeWhile fun e => e.1 ≠ k

/-- Each key has one entry. -/
def Distinct (l : List (K × V)) : Prop := (l.map Prod.fst).Nodup

/-! ## The cache -/

/-- A look-up in the `c` most recently used entries.  A hit is a use. -/
def get (c : Nat) (k : K) (used : List (K × V)) : Option V × List (K × V) :=
  match (used.take c).lookup k with
  | none => (none, used)
  | some v => (some v, toFront k v used)

/-- The entries used, newest first, after the uses `us`, oldest first. -/
def stack (us : List (K × V)) : List (K × V) := us.foldl (fun l e => toFront e.1 e.2 l) []

@[simp] theorem stack_nil : stack ([] : List (K × V)) = [] := rfl

@[simp] theorem stack_concat (us : List (K × V)) (e : K × V) :
    stack (us ++ [e]) = toFront e.1 e.2 (stack us) := by
  simp [stack]

/-! ## Removing a key -/

section Without

variable {k x : K} {v : V} {l : List (K × V)}

theorem without_cons_self (k : K) (v : V) (l : List (K × V)) :
    without k ((k, v) :: l) = without k l := by
  simp [without]

theorem without_cons_ne {e : K × V} (h : e.1 ≠ k) (l : List (K × V)) :
    without k (e :: l) = e :: without k l := by
  simp [without, h]

theorem without_eq_self (h : k ∉ l.map Prod.fst) : without k l = l := by
  refine List.filter_eq_self.mpr fun e he => ?_
  have : e.1 ≠ k := fun hk => h (hk ▸ List.mem_map_of_mem he)
  simpa using this

theorem notMem_without (k : K) (l : List (K × V)) : k ∉ (without k l).map Prod.fst := by
  simp [without]

theorem Distinct.without (h : Distinct l) (k : K) : Distinct (without k l) :=
  h.sublist (List.filter_sublist.map _)

theorem Distinct.toFront (h : Distinct l) (k : K) (v : V) : Distinct (toFront k v l) :=
  List.nodup_cons.mpr ⟨notMem_without k l, h.without k⟩

omit [DecidableEq K] in
theorem Distinct.take (h : Distinct l) (c : Nat) : Distinct (l.take c) :=
  h.sublist ((List.take_sublist c l).map _)

/-- What is left of the first `c` entries without `k` comes from the first
`c + 1`. -/
theorem take_without (h : Distinct l) (k : K) (c : Nat) :
    (without k l).take c = (without k (l.take (c + 1))).take c := by
  induction l generalizing c with
  | nil => rfl
  | cons e l ih =>
      obtain ⟨he, hl⟩ := List.nodup_cons.mp h
      rw [List.take_succ_cons]
      by_cases hk : e.1 = k
      · subst hk
        have hsub : (l.take c).map Prod.fst ⊆ l.map Prod.fst :=
          ((List.take_sublist c l).map _).subset
        rw [without_cons_self, without_cons_self, without_eq_self he,
          without_eq_self fun hmem => he (hsub hmem), List.take_take, min_self]
      · rw [without_cons_ne hk, without_cons_ne hk]
        cases c with
        | zero => rfl
        | succ c => rw [List.take_succ_cons, List.take_succ_cons, ih hl c]

/-- The cache after a use is a function of the cache before it. -/
theorem take_toFront (h : Distinct l) (k : K) (v : V) (c : Nat) :
    (toFront k v l).take c = (toFront k v (l.take c)).take c := by
  cases c with
  | zero => rfl
  | succ c =>
      rw [toFront, toFront, List.take_succ_cons, List.take_succ_cons, take_without h k c]

theorem length_toFront_le (h : k ∈ l.map Prod.fst) : (toFront k v l).length ≤ l.length := by
  obtain ⟨e, he, rfl⟩ := List.mem_map.mp h
  exact List.length_filter_lt_length_iff_exists.mpr ⟨e, he, by simp⟩

end Without

/-! ## Look-up -/

section Lookup

variable {k x : K} {v : V} {l : List (K × V)}

theorem lookup_without_ne (h : x ≠ k) (l : List (K × V)) :
    (without k l).lookup x = l.lookup x := by
  induction l with
  | nil => rfl
  | cons e l ih =>
      by_cases hk : e.1 = k
      · subst hk
        rw [without_cons_self, ih, List.lookup_cons, beq_eq_false_iff_ne.mpr h]
      · rw [without_cons_ne hk, List.lookup_cons, List.lookup_cons, ih]

@[simp] theorem lookup_toFront_self (k : K) (v : V) (l : List (K × V)) :
    (toFront k v l).lookup k = some v :=
  List.lookup_cons_self

theorem lookup_toFront_ne (h : x ≠ k) (v : V) (l : List (K × V)) :
    (toFront k v l).lookup x = l.lookup x := by
  rw [toFront, List.lookup_cons, beq_eq_false_iff_ne.mpr h]
  exact lookup_without_ne h l

theorem mem_of_lookup (h : l.lookup k = some v) : k ∈ l.map Prod.fst := by
  obtain ⟨l₁, l₂, rfl, -⟩ := List.lookup_eq_some_iff.mp h
  simp

theorem lookup_of_mem (h : Distinct l) {e : K × V} (he : e ∈ l) :
    l.lookup e.1 = some e.2 := by
  obtain ⟨l₁, l₂, rfl⟩ := List.append_of_mem he
  refine List.lookup_eq_some_iff.mpr ⟨l₁, l₂, rfl, fun x hx => ?_⟩
  have hdisj := List.disjoint_of_nodup_append (by simpa [Distinct] using h)
  simpa using fun hk => hdisj (List.mem_map_of_mem hx) (by simp [← hk])

/-- The first `c` entries know `k` if fewer than `c` entries are in front of its
own. -/
theorem lookup_take (k : K) (l : List (K × V)) (c : Nat) :
    (l.take c).lookup k = if (ahead k l).length < c then l.lookup k else none := by
  induction l generalizing c with
  | nil => simp
  | cons e l ih =>
      cases c with
      | zero => simp
      | succ c =>
          rw [List.take_succ_cons, List.lookup_cons, List.lookup_cons, ahead, List.takeWhile_cons]
          by_cases hk : e.1 = k
          · simp [hk]
          · have hk' : k ≠ e.1 := fun h => hk h.symm
            simp only [beq_eq_false_iff_ne.mpr hk', ne_eq, hk, not_false_eq_true, decide_true,
              ↓reduceIte, List.length_cons, Nat.add_lt_add_iff_right]
            exact ih c

end Lookup

/-! ## Depth -/

@[simp] theorem ahead_toFront_self (k : K) (v : V) (l : List (K × V)) :
    ahead k (toFront k v l) = [] := by
  simp [ahead, toFront]

theorem ahead_toFront_ne {k x : K} (h : k ≠ x) (v : V) (l : List (K × V)) :
    ahead x (toFront k v l) = toFront k v (ahead x l) := by
  rw [ahead, toFront, List.takeWhile_cons_of_pos (by simpa using h), without, List.takeWhile_filter]
  congr 3
  funext e
  by_cases hk : e.1 = k
  · simp [hk, h]
  · simp [hk]

theorem Distinct.stack (us : List (K × V)) : Distinct (stack us) := by
  induction us using List.reverseRecOn with
  | nil => exact List.nodup_nil
  | append_singleton us e ih =>
      rw [stack_concat]
      exact ih.toFront e.1 e.2

/-- The keys used since the last use of `x`. -/
def since (x : K) (ks : List K) : List K := ks.reverse.takeWhile fun k => k ≠ x

theorem since_concat_ne {k x : K} (h : k ≠ x) (ks : List K) :
    since x (ks ++ [k]) = k :: since x ks := by
  simp [since, h]

@[simp] theorem since_concat_self (x : K) (ks : List K) : since x (ks ++ [x]) = [] := by
  simp [since]

/-- How many uses ago `k` was last used. -/
def ago (k : K) (ks : List K) : Nat := ks.reverse.idxOf k

@[simp] theorem ago_concat_self (k : K) (ks : List K) : ago k (ks ++ [k]) = 0 := by
  simp [ago]

theorem ago_concat_ne {k x : K} (h : k ≠ x) (ks : List K) : ago x (ks ++ [k]) = ago x ks + 1 := by
  simp [ago, List.idxOf_cons_ne _ h]

/-- The entries used are in the order of their last use. -/
theorem pairwise_stack (us : List (K × V)) :
    ((stack us).map Prod.fst).Pairwise fun a b =>
      ago a (us.map Prod.fst) < ago b (us.map Prod.fst) := by
  induction us using List.reverseRecOn with
  | nil => exact List.Pairwise.nil
  | append_singleton us e ih =>
      have hne : ∀ a ∈ (without e.1 (stack us)).map Prod.fst, e.1 ≠ a := by
        rintro a ha rfl
        exact notMem_without _ _ ha
      rw [stack_concat, List.map_append, List.map_singleton, toFront, List.map_cons,
        List.pairwise_cons]
      refine ⟨fun a ha => ?_, ?_⟩
      · rw [ago_concat_self, ago_concat_ne (hne a ha)]
        exact Nat.succ_pos _
      · refine (ih.sublist (List.filter_sublist.map _)).imp_of_mem fun {a b} ha hb hab => ?_
        rw [ago_concat_ne (hne a ha), ago_concat_ne (hne b hb)]
        exact Nat.succ_lt_succ hab

theorem mem_ahead_stack (x y : K) (us : List (K × V)) :
    y ∈ (ahead x (stack us)).map Prod.fst ↔ y ∈ since x (us.map Prod.fst) := by
  induction us using List.reverseRecOn with
  | nil => rfl
  | append_singleton us e ih =>
      rw [stack_concat, List.map_append, List.map_singleton]
      by_cases h : e.1 = x
      · subst h
        simp
      · rw [since_concat_ne h, ahead_toFront_ne h, List.mem_cons, ← ih]
        by_cases hy : y = e.1
        · simp [hy, toFront]
        · simp [toFront, without, hy]

/-- The depth of an entry is the number of distinct other keys used since. -/
theorem length_ahead_stack (x : K) (us : List (K × V)) :
    (ahead x (stack us)).length = (since x (us.map Prod.fst)).toFinset.card := by
  have hnodup : ((ahead x (stack us)).map Prod.fst).Nodup :=
    (Distinct.stack us).sublist ((List.takeWhile_sublist _).map _)
  rw [← List.length_map Prod.fst, ← List.toFinset_card_of_nodup hnodup]
  congr 1
  ext y
  rw [List.mem_toFinset, List.mem_toFinset]
  exact mem_ahead_stack x y us

/-! ## A larger cache -/

/-- The entries `l` of a cache of capacity `n` and the entries `l'` of a larger one. -/
structure Included {K : Type u} {V : Type v} (n : Nat) (l l' : List (K × V)) : Prop where
  sublist : l.Sublist l'
  eq_of_room : l.length < n → l = l'


section Larger

variable {k : K} {v : V} {l l' : List (K × V)} {n m : Nat}

theorem toFront_sublist (h : l.Sublist l') (k : K) (v : V) :
    (toFront k v l).Sublist (toFront k v l') :=
  (h.filter _).cons_cons (k, v)

/-- A use takes away at most the old entry of its key. -/
theorem le_length_toFront (h : Distinct l) (k : K) (v : V) : l.length ≤ (toFront k v l).length := by
  induction l with
  | nil => exact Nat.zero_le _
  | cons e l ih =>
      obtain ⟨he, hl⟩ := List.nodup_cons.mp h
      rw [toFront, List.length_cons, List.length_cons]
      by_cases hk : e.1 = k
      · subst hk
        rw [without_cons_self, without_eq_self he]
      · rw [without_cons_ne hk, List.length_cons]
        exact Nat.succ_le_succ (ih hl)

theorem toFront_of_notMem (h : k ∉ l.map Prod.fst) (v : V) : toFront k v l = (k, v) :: l := by
  rw [toFront, without_eq_self h]

/-- What the smaller cache finds, the larger one finds too. -/
theorem Included.lookup (h : Included n l l') (hd : Distinct l') (hk : l.lookup k = some v) :
    l'.lookup k = some v := by
  obtain ⟨l₁, l₂, rfl, -⟩ := List.lookup_eq_some_iff.mp hk
  exact lookup_of_mem (e := (k, v)) hd (h.sublist.subset (by simp))

/-- A hit in both. -/
theorem Included.hit (h : Included n l l') (hd : Distinct l) (k : K) (v : V) :
    Included n (toFront k v l) (toFront k v l') := by
  refine ⟨toFront_sublist h.sublist k v, fun hroom => ?_⟩
  rw [h.eq_of_room ((le_length_toFront hd k v).trans_lt hroom)]

/-- A hit in the larger cache that the smaller one does not see. -/
theorem Included.miss (h : Included n l l') (hk : k ∉ l.map Prod.fst) (hk' : k ∈ l'.map Prod.fst)
    (v : V) : Included n l (toFront k v l') := by
  refine ⟨?_, fun hroom => ?_⟩
  · have hsub : (without k l).Sublist (without k l') := h.sublist.filter _
    rw [without_eq_self hk] at hsub
    exact hsub.cons (k, v)
  · rw [h.eq_of_room hroom] at hk
    exact absurd hk' hk

/-- A new value in both, after which each evicts its last entry if it has too many. -/
theorem Included.put (h : Included n l l') (hd : Distinct l) (hnm : n ≤ m) (hl : l.length ≤ n)
    (hl' : l'.length ≤ m) (k : K) (v : V) :
    Included n ((toFront k v l).take n) ((toFront k v l').take m) := by
  have hsub := toFront_sublist h.sublist k v
  constructor
  case sublist =>
    by_cases hfits : (toFront k v l').length ≤ m
    · rw [List.take_of_length_le hfits]
      exact (List.take_sublist _ _).trans hsub
    · -- The larger cache evicts, so the key is new to both and both are full.
      have hk' : k ∉ l'.map Prod.fst := fun hmem => hfits ((length_toFront_le hmem).trans hl')
      have hk : k ∉ l.map Prod.fst := fun hmem => hk' ((h.sublist.map _).subset hmem)
      rw [toFront_of_notMem hk', List.length_cons] at hfits
      have hlen' : l'.length = m := by omega
      have hlen : l.length = n := by
        by_contra hne
        have heq := h.eq_of_room (by omega)
        rw [heq] at hne hl
        omega
      rw [toFront_of_notMem hk, toFront_of_notMem hk']
      cases n with
      | zero => exact List.nil_sublist _
      | succ n =>
          cases m with
          | zero => omega
          | succ m =>
              rw [List.take_succ_cons, List.take_succ_cons]
              refine List.Sublist.cons_cons _ ?_
              have hdrop : l.dropLast.Sublist l'.dropLast := by
                rw [← List.reverse_sublist, ← List.tail_reverse, ← List.tail_reverse]
                exact h.sublist.reverse.tail
              rwa [List.dropLast_eq_take, List.dropLast_eq_take, hlen, hlen'] at hdrop
  case eq_of_room =>
    intro hroom
    rw [List.length_take] at hroom
    have hshort : (toFront k v l).length < n := by omega
    have heq := h.eq_of_room ((le_length_toFront hd k v).trans_lt hshort)
    rw [← heq, List.take_of_length_le hshort.le, List.take_of_length_le (hshort.le.trans hnm)]

end Larger

end Recency
