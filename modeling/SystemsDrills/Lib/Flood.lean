import Mathlib.Tactic
import Mathlib.Logic.Relation

/-!
# Marking what is reached

A value is attached to every node of a graph, and nodes whose value satisfies `P` are still to
be found.  A search looks at some nodes, sets those that are still to be found to `mark` and
collects them (`Marks`).

`Flooding` is a search from one node that keeps the nodes it has found in a queue and looks at the
neighbours of the first one that waits.  When none waits, it has found the nodes that are reached
from the first one through nodes with `P`.
-/

namespace Flood

variable {V : Type u} {χ : Type v} {P : χ → Prop} {mark : χ} {adj : V → List V} {g₀ g g' : V → χ}
  {s : V}

/-- There is a path from `s` through nodes with `P`. -/
def Reach (P : χ → Prop) (adj : V → List V) (g₀ : V → χ) (s v : V) : Prop :=
  Relation.ReflTransGen (fun a b => b ∈ adj a ∧ P (g₀ b)) s v

theorem Reach.holds (hs : P (g₀ s)) {v : V} (h : Reach P adj g₀ s v) : P (g₀ v) := by
  cases h with
  | refl => exact hs
  | tail _ hstep => exact hstep.2

/-- To look at the nodes `ys` sets `new` to the mark. -/
structure Marks (P : χ → Prop) (mark : χ) (g : V → χ) (ys : List V) (g' : V → χ) (new : List V) :
    Prop where
  nodup : new.Nodup
  mem_iff : ∀ y, y ∈ new ↔ y ∈ ys ∧ P (g y)
  marked : ∀ v ∈ new, g' v = mark
  kept : ∀ v ∉ new, g' v = g v

section

variable {g'' : V → χ} {ys ys' new new' : List V} {y : V}

theorem Marks.nil (g : V → χ) : Marks P mark g [] g [] :=
  ⟨List.nodup_nil, by simp, nofun, fun _ _ => rfl⟩

/-- The node is found now. -/
theorem Marks.hit [DecidableEq V] (h : P (g y)) :
    Marks P mark g [y] (Function.update g y mark) [y] := by
  refine ⟨List.nodup_singleton y, fun z => ?_, fun v hv => ?_, fun v hv => ?_⟩
  · rw [List.mem_singleton]
    exact ⟨fun heq => ⟨heq, heq ▸ h⟩, fun hz => hz.1⟩
  · rw [List.mem_singleton.mp hv, Function.update_self]
  · exact Function.update_of_ne (fun heq => hv (List.mem_singleton.mpr heq)) ..

/-- The node was found before, or is none of those. -/
theorem Marks.miss (h : ¬ P (g y)) : Marks P mark g [y] g [] := by
  refine ⟨List.nodup_nil, fun z => ?_, nofun, fun _ _ => rfl⟩
  rw [List.mem_singleton]
  exact ⟨fun hz => absurd hz List.not_mem_nil, fun hz => absurd (hz.1 ▸ hz.2) h⟩

/-- What is still to be found. -/
theorem Marks.iff (hmark : ¬ P mark) (h : Marks P mark g ys g' new) (v : V) :
    P (g' v) ↔ P (g v) ∧ v ∉ ys := by
  by_cases hin : v ∈ new
  · rw [h.marked v hin]
    exact ⟨fun hP => absurd hP hmark, fun hP => absurd ((h.mem_iff v).mp hin).1 hP.2⟩
  · rw [h.kept v hin]
    rw [h.mem_iff, not_and_or] at hin
    exact ⟨fun hP => ⟨hP, hin.resolve_right (not_not_intro hP)⟩, fun hP => hP.1⟩

theorem Marks.append (hmark : ¬ P mark) (h : Marks P mark g ys g' new)
    (h' : Marks P mark g' ys' g'' new') : Marks P mark g (ys ++ ys') g'' (new ++ new') := by
  refine ⟨List.nodup_append'.mpr ⟨h.nodup, h'.nodup, fun y hy hy' => ?_⟩, fun y => ?_,
    fun v hv => ?_, fun v hv => ?_⟩
  · have hP := ((h'.mem_iff y).mp hy').2
    exact ((h.iff hmark y).mp hP).2 ((h.mem_iff y).mp hy).1
  · rw [List.mem_append, List.mem_append, h.mem_iff, h'.mem_iff, h.iff hmark]
    tauto
  · by_cases hnew : v ∈ new'
    · exact h'.marked v hnew
    · rw [h'.kept v hnew, h.marked v ((List.mem_append.mp hv).resolve_right hnew)]
  · rw [List.mem_append, not_or] at hv
    rw [h'.kept v hv.2, h.kept v hv.1]

end

/-! ## A search with a queue -/

variable {done pending rest new : List V} {x : V}

/-- The search has looked at the neighbours of `done`, and `pending` wait. -/
structure Flooding (P : χ → Prop) (mark : χ) (adj : V → List V) (g₀ : V → χ) (s : V) (g : V → χ)
    (done pending : List V) : Prop where
  nodup : (done ++ pending).Nodup
  marked : ∀ v ∈ done ++ pending, g v = mark
  kept : ∀ v ∉ done ++ pending, g v = g₀ v
  start : s ∈ done ++ pending
  reach : ∀ v ∈ done ++ pending, Reach P adj g₀ s v
  closed : ∀ x ∈ done, ∀ y ∈ adj x, P (g₀ y) → y ∈ done ++ pending

theorem Flooding.init [DecidableEq V] :
    Flooding P mark adj g₀ s (Function.update g₀ s mark) [] [s] := by
  refine ⟨List.nodup_singleton s, fun v hv => ?_, fun v hv => ?_, List.mem_singleton_self s,
    fun v hv => ?_, nofun⟩
  · rw [List.mem_singleton.mp hv, Function.update_self]
  · exact Function.update_of_ne (fun heq => hv (List.mem_singleton.mpr heq)) ..
  · rw [List.mem_singleton.mp hv]
    exact .refl

theorem Flooding.step (hmark : ¬ P mark) (h : Flooding P mark adj g₀ s g done (x :: rest))
    (hnew : Marks P mark g (adj x) g' new) :
    Flooding P mark adj g₀ s g' (done ++ [x]) (rest ++ new) := by
  have hassoc : done ++ [x] ++ (rest ++ new) = (done ++ x :: rest) ++ new := by simp
  have hfresh : ∀ v, P (g v) ↔ v ∉ done ++ x :: rest ∧ P (g₀ v) := by
    intro v
    by_cases hin : v ∈ done ++ x :: rest
    · rw [h.marked v hin]
      exact ⟨fun hP => absurd hP hmark, fun hP => absurd hin hP.1⟩
    · rw [h.kept v hin]
      exact ⟨fun hP => ⟨hin, hP⟩, fun hP => hP.2⟩
  have hx : x ∈ done ++ x :: rest := List.mem_append_right done List.mem_cons_self
  refine ⟨?_, fun v hv => ?_, fun v hv => ?_, ?_, fun v hv => ?_, fun a ha y hy hP => ?_⟩
  · rw [hassoc]
    refine List.nodup_append'.mpr ⟨h.nodup, hnew.nodup, fun v hv hv' => ?_⟩
    exact ((hfresh v).mp ((hnew.mem_iff v).mp hv').2).1 hv
  · rw [hassoc] at hv
    by_cases hin : v ∈ new
    · exact hnew.marked v hin
    · rw [hnew.kept v hin, h.marked v ((List.mem_append.mp hv).resolve_right hin)]
  · rw [hassoc, List.mem_append, not_or] at hv
    rw [hnew.kept v hv.2, h.kept v hv.1]
  · rw [hassoc]
    exact List.mem_append_left new h.start
  · rw [hassoc] at hv
    rcases List.mem_append.mp hv with hv | hv
    · exact h.reach v hv
    · obtain ⟨hadj, hP⟩ := (hnew.mem_iff v).mp hv
      exact (h.reach x hx).tail ⟨hadj, ((hfresh v).mp hP).2⟩
  · rw [hassoc]
    rcases List.mem_append.mp ha with ha | ha
    · exact List.mem_append_left new (h.closed a ha y hy hP)
    · rw [List.mem_singleton.mp ha] at hy
      by_cases hold : y ∈ done ++ x :: rest
      · exact List.mem_append_left new hold
      · exact List.mem_append_right _ ((hnew.mem_iff y).mpr ⟨hy, (hfresh y).mpr ⟨hold, hP⟩⟩)

/-- When no node waits, the search has found what can be reached. -/
theorem Flooding.mem_iff (h : Flooding P mark adj g₀ s g done []) (v : V) :
    v ∈ done ↔ Reach P adj g₀ s v := by
  have hall := h.reach
  have hstart := h.start
  have hclosed := h.closed
  rw [List.append_nil] at hall hstart hclosed
  refine ⟨hall v, fun hv => ?_⟩
  induction hv with
  | refl => exact hstart
  | tail _ hstep ih => exact hclosed _ ih _ hstep.1 hstep.2

end Flood
