import Mathlib.Tactic

/-!
# Loops that stop at the first failure

A check carries some state along and returns nothing when it fails.  `Accepts` says what makes
it succeed, provided that the state keeps an invariant.  Checks that follow each other, and
loops of checks, succeed if all of them do.
-/

namespace Checks

variable {σ : Type u} {α : Type v} {β : Type w} {I : σ → Prop} {P Q : Prop} {m m' : σ → Option σ}

/-- From every state with the invariant the check succeeds exactly if `P` holds. -/
structure Accepts (I : σ → Prop) (m : σ → Option σ) (P : Prop) : Prop where
  isSome : ∀ s, I s → ((m s).isSome ↔ P)
  keep : ∀ s s', I s → m s = some s' → I s'

theorem Accepts.congr (h : Accepts I m P) (heq : P ↔ Q) : Accepts I m Q :=
  ⟨fun s hs => (h.isSome s hs).trans heq, h.keep⟩

theorem Accepts.bind (h : Accepts I m P) (h' : Accepts I m' Q) :
    Accepts I (fun s => m s >>= m') (P ∧ Q) := by
  refine ⟨fun s hs => ?_, fun s s'' hs heq => ?_⟩
  · rw [← h.isSome s hs]
    cases hm : m s with
    | none => simp
    | some s' => simp [h'.isSome s' (h.keep s s' hs hm)]
  · obtain ⟨s', hm, hm'⟩ := Option.bind_eq_some_iff.mp heq
    exact h'.keep s' s'' (h.keep s s' hs hm) hm'

/-- A loop of checks. -/
theorem Accepts.foldlM {f : σ → α → Option σ} {p : α → Prop} (l : List α)
    (h : ∀ a ∈ l, Accepts I (f · a) (p a)) : Accepts I (l.foldlM f ·) (∀ a ∈ l, p a) := by
  induction l with
  | nil => exact ⟨by simp, fun s s' hs heq => Option.some.inj heq ▸ hs⟩
  | cons a l ih =>
      obtain ⟨ha, hl⟩ := List.forall_mem_cons.mp h
      simp only [List.foldlM_cons]
      exact (ha.bind (ih hl)).congr List.forall_mem_cons.symm

/-- A loop in a loop is one loop. -/
theorem foldlM_flatMap (f : σ → β → Option σ) (g : α → List β) (l : List α) (s : σ) :
    (l.flatMap g).foldlM f s = l.foldlM (fun s a => (g a).foldlM f s) s := by
  induction l generalizing s with
  | nil => rfl
  | cons a l ih => simp only [List.flatMap_cons, List.foldlM_append, List.foldlM_cons, ih]

end Checks
