import SystemsDrills.Lib.Calls

/-!
# Linearization points

The threads of a run call the operations of one object.  A call starts at one step,
takes effect at a later one and returns at a still later one.  `Linearization` says
that a list of calls, in the order in which they take effect, is a sequential history
of the run: it has every call that returned, with its argument and its result, each
call once, and a call that returned before another one started comes first.

To find one it is enough that each call has a step at which it takes effect
(`Linearizable.points`).
-/

namespace Transition

/-- A call that took effect. -/
structure Point (T : Type u) (I : Type v) (O : Type w) where
  thread : T
  arg : I
  result : O
  /-- The step at which the call took effect. -/
  moment : Nat
deriving DecidableEq, Repr

/-- What the labels of a system say about calls: which thread starts a call and with
which argument, and which call takes effect or returns and with which result. -/
structure Calls (α : Type*) (T : Type u) (I : Type v) (O : Type w) where
  starts : α → Option (T × I)
  takes : α → Option (T × I × O)
  returns : α → Option (T × I × O)
  /-- A call does not take effect at the step that starts one. -/
  later : ∀ a, (starts a).isSome → takes a = none

namespace Calls

variable {α : Type*} {T : Type u} {I : Type v} {O : Type w} (C : Calls α T I O)

/-- The label starts a call of thread `t`. -/
def StartsBy (t : T) (a : α) : Prop := ∃ i, C.starts a = some (t, i)

/-- The label starts a call of thread `t` or is the one at which it takes effect. -/
def Marks (t : T) (a : α) : Prop := C.StartsBy t a ∨ ∃ i o, C.takes a = some (t, i, o)

end Calls

variable {σ α : Type*} {T : Type u} {I : Type v} {O : Type w} {S : System σ α} {n : Nat}
  {r : Run S n} {C : Calls α T I O}

/-- The calls in `order`, one after the other, are a sequential history of the run. -/
structure Linearization (r : Run S n) (C : Calls α T I O) (order : List (Point T I O)) : Prop where
  /-- The order is that of the moments at which the calls take effect. -/
  increasing : order.Pairwise fun p q => p.moment < q.moment
  /-- Each moment lies within the call. -/
  started : ∀ p ∈ order, ∃ a, r.Last (C.StartsBy p.thread) a p.moment ∧
    C.starts (r.act a) = some (p.thread, p.arg)
  /-- No call takes effect twice. -/
  once : ∀ p ∈ order, ∀ q ∈ order, p.thread = q.thread → p.moment < q.moment →
    ∃ a, p.moment < a ∧ a < q.moment ∧ C.StartsBy q.thread (r.act a)
  /-- A call that returned took effect, with the argument it was given and the result
  it returned. -/
  returned : ∀ j < n, ∀ t i o, C.returns (r.act j) = some (t, i, o) →
    ∃ a, r.Last (C.StartsBy t) a j ∧ C.starts (r.act a) = some (t, i) ∧
      ∃ p ∈ order, p.thread = t ∧ p.arg = i ∧ p.result = o ∧ a < p.moment ∧ p.moment < j
  /-- If a call of thread `t` returned at step `j` and that of `q` started later, the
  former takes effect first. -/
  realTime : ∀ j < n, ∀ t i o, C.returns (r.act j) = some (t, i, o) →
    ∀ p ∈ order, p.thread = t → p.moment < j → ∀ q ∈ order, ∀ a,
      r.Last (C.StartsBy q.thread) a q.moment → j < a → p.moment < q.moment

/-- Each call that takes effect was started, and each call that returns took effect. -/
structure Linearizable (r : Run S n) (C : Calls α T I O) : Prop where
  takes : ∀ m < n, ∀ t i o, C.takes (r.act m) = some (t, i, o) →
    ∃ a, r.Last (C.Marks t) a m ∧ C.starts (r.act a) = some (t, i)
  returns : ∀ j < n, ∀ t i o, C.returns (r.act j) = some (t, i, o) →
    ∃ m, r.Last (C.Marks t) m j ∧ C.takes (r.act m) = some (t, i, o)

/-- The calls that took effect before moment `k`, in order. -/
def points (r : Run S n) (C : Calls α T I O) (k : Nat) : List (Point T I O) :=
  (List.range k).filterMap fun m => (C.takes (r.act m)).map fun (t, i, o) => ⟨t, i, o, m⟩

@[simp] theorem points_zero : points r C 0 = [] := rfl

theorem points_succ_of_none {k : Nat} (h : C.takes (r.act k) = none) :
    points r C (k + 1) = points r C k := by
  simp [points, List.range_succ, List.filterMap_append, h]

theorem points_succ_of_some {k : Nat} {t : T} {i : I} {o : O}
    (h : C.takes (r.act k) = some (t, i, o)) :
    points r C (k + 1) = points r C k ++ [⟨t, i, o, k⟩] := by
  simp [points, List.range_succ, List.filterMap_append, h]

theorem mem_points {k : Nat} {p : Point T I O} :
    p ∈ points r C k ↔ p.moment < k ∧
      C.takes (r.act p.moment) = some (p.thread, p.arg, p.result) := by
  simp only [points, List.mem_filterMap, List.mem_range, Option.map_eq_some_iff]
  constructor
  · rintro ⟨m, hm, ⟨t, i, o⟩, htake, rfl⟩
    exact ⟨hm, htake⟩
  · rintro ⟨hm, htake⟩
    exact ⟨p.moment, hm, _, htake, rfl⟩

theorem points_increasing (r : Run S n) (C : Calls α T I O) (k : Nat) :
    (points r C k).Pairwise fun p q => p.moment < q.moment := by
  induction k with
  | zero => exact .nil
  | succ k ih =>
      cases h : C.takes (r.act k) with
      | none => rwa [points_succ_of_none h]
      | some x =>
          rw [points_succ_of_some h]
          refine List.pairwise_append.mpr ⟨ih, List.pairwise_singleton _ _, fun p hp q hq => ?_⟩
          rw [List.mem_singleton.mp hq]
          exact (mem_points.mp hp).1

theorem Calls.not_starts_of_takes {a : α} {t u : T} {i : I} {o : O}
    (h : C.takes a = some (t, i, o)) : ¬ C.StartsBy u a := by
  rintro ⟨j, hj⟩
  have := C.later a (by simp [hj])
  simp [this] at h

/-- The last step that marks a thread is the last that starts a call of it, if it does
so. -/
theorem Run.Last.starts {t : T} {i : I} {a k : Nat} (h : r.Last (C.Marks t) a k)
    (hs : C.starts (r.act a) = some (t, i)) : r.Last (C.StartsBy t) a k :=
  ⟨h.lt, ⟨i, hs⟩, fun l h1 h2 hl => h.since l h1 h2 (.inl hl)⟩

/-- The steps at which the calls take effect linearize the run. -/
theorem Linearizable.points (h : Linearizable r C) : Linearization r C (points r C n) where
  increasing := points_increasing r C n
  started p hp := by
    obtain ⟨hm, htake⟩ := mem_points.mp hp
    obtain ⟨a, hlast, hstart⟩ := h.takes _ hm _ _ _ htake
    exact ⟨a, hlast.starts hstart, hstart⟩
  once p hp q hq hpq hlt := by
    obtain ⟨-, hptake⟩ := mem_points.mp hp
    obtain ⟨hm, hqtake⟩ := mem_points.mp hq
    obtain ⟨a, hlast, hstart⟩ := h.takes _ hm _ _ _ hqtake
    -- The step of `p` marks the thread too, so it is not after the start.
    refine ⟨a, ?_, hlast.lt, _, hstart⟩
    have hmark : C.Marks q.thread (r.act p.moment) := .inr ⟨_, _, hpq ▸ hptake⟩
    rcases Nat.lt_trichotomy p.moment a with hlt' | heq | hgt
    · exact hlt'
    · exact absurd ⟨_, heq ▸ hstart⟩ (C.not_starts_of_takes (u := q.thread) hptake)
    · exact absurd hmark (hlast.since _ hgt hlt)
  returned j hj t i o hret := by
    obtain ⟨m, hlast, htake⟩ := h.returns j hj t i o hret
    obtain ⟨a, hlast', hstart⟩ := h.takes m (hlast.lt.trans hj) t i o htake
    refine ⟨a, ⟨hlast'.lt.trans hlast.lt, ⟨i, hstart⟩, fun l h1 h2 hl => ?_⟩, hstart,
      ⟨t, i, o, m⟩, mem_points.mpr ⟨hlast.lt.trans hj, htake⟩, rfl, rfl, rfl, hlast'.lt, hlast.lt⟩
    rcases Nat.lt_trichotomy l m with hlt | rfl | hgt
    · exact hlast'.since l h1 hlt (.inl hl)
    · exact C.not_starts_of_takes htake hl
    · exact hlast.since l hgt h2 (.inl hl)
  realTime j hj t i o hret p hp hpt hpj q hq a ha hja := (hpj.trans hja).trans ha.lt

end Transition
