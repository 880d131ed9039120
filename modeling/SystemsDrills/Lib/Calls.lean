import SystemsDrills.Lib.Transition

/-!
# Calls within a run

A run interleaves the steps of several threads.  A call of one of them is the
stretch from the step that starts it to the step that returns, and other
threads' steps lie in between.

The rules here read the history of a call off the state of its caller.  If a
thread can be inside a call only because a step of a certain kind put it there,
then the last such step is the start of the call (`exists_call`).  If a thread
holds a value that it loaded during the call, then there is a moment of the call
at which the shared state had that value (`exists_snapshot`).  Where the step
that put a thread into its present state has a label of its own, it can be named
(`exists_origin`).
-/

namespace Transition.Run

variable {σ : Type u} {α : Type v} {β : Type w} {S : System σ α} {n : Nat}

/-- Step `i` is the last step before moment `k` whose label satisfies `C`. -/
structure Last (r : Run S n) (C : α → Prop) (i k : Nat) : Prop where
  lt : i < k
  mark : C (r.act i)
  since : ∀ l, i < l → l < k → ¬ C (r.act l)

theorem Last.self {r : Run S n} {C : α → Prop} {k : Nat} (h : C (r.act k)) :
    r.Last C k (k + 1) :=
  ⟨Nat.lt_succ_self k, h, fun l h1 h2 => absurd h1 (by omega)⟩

theorem Last.succ {r : Run S n} {C : α → Prop} {i k : Nat} (h : r.Last C i k)
    (hk : ¬ C (r.act k)) : r.Last C i (k + 1) := by
  refine ⟨Nat.lt_succ_of_lt h.lt, h.mark, fun l h1 h2 => ?_⟩
  rcases Nat.lt_succ_iff_lt_or_eq.mp h2 with h2 | rfl
  · exact h.since l h1 h2
  · exact hk

theorem Last.unique {r : Run S n} {C : α → Prop} {i j k : Nat} (h : r.Last C i k)
    (h' : r.Last C j k) : i = j := by
  rcases Nat.lt_trichotomy i j with hlt | heq | hgt
  · exact absurd h'.mark (h.since j hlt h'.lt)
  · exact heq
  · exact absurd h.mark (h'.since i hgt h.lt)

/-- A moment since which no step satisfied `C` is later than the last one that
did. -/
theorem Last.lt_moment {r : Run S n} {C : α → Prop} {i m k : Nat} (h : r.Last C i k)
    (hm : ∀ l, m ≤ l → l < k → ¬ C (r.act l)) : i < m := by
  by_contra hle
  exact hm i (Nat.le_of_not_lt hle) h.lt h.mark

/-- The steps `i .. k - 1` whose label satisfies `C` do not change `f`. -/
def Quiet (r : Run S n) (C : α → Prop) (f : σ → β) (i k : Nat) : Prop :=
  ∀ l, i ≤ l → l < k → C (r.act l) → f (r.st (l + 1)) = f (r.st l)

theorem Quiet.succ {r : Run S n} {C : α → Prop} {f : σ → β} {i k : Nat} (h : r.Quiet C f i k)
    (hk : C (r.act k) → f (r.st (k + 1)) = f (r.st k)) : r.Quiet C f i (k + 1) := by
  intro l h1 h2
  rcases Nat.lt_succ_iff_lt_or_eq.mp h2 with h2 | rfl
  · exact h l h1 h2
  · exact hk

/-- The start of the call that is under way in the states `I`, when the call's
own steps `O` do not change `f` as long as it is in `I`. -/
theorem exists_call {C O : α → Prop} {f : σ → β} {I : σ → Prop} (r : Run S n)
    (h0 : ∀ s, S.init s → ¬ I s)
    (hstep : ∀ s a s', S.step s a s' → I s' → (O a → f s' = f s) ∧ (C a ∨ I s)) :
    ∀ {k : Nat}, k ≤ n → I (r.st k) → ∃ i, r.Last C i k ∧ r.Quiet O f i k := by
  intro k
  induction k with
  | zero => intro _ hin; exact absurd hin (h0 _ r.start)
  | succ k ih =>
      intro hk hin
      obtain ⟨hquiet, hcall⟩ := hstep _ _ _ (r.next k hk) hin
      by_cases hc : C (r.act k)
      · refine ⟨k, .self hc, Quiet.succ ?_ hquiet⟩
        intro l h1 h2
        exact absurd h1 (by omega)
      · obtain ⟨i, hlast, hq⟩ := ih (by omega) (hcall.resolve_left hc)
        exact ⟨i, hlast.succ hc, hq.succ hquiet⟩

/-- The moment the states `I` hold a snapshot of: `Q s u` says that the
locals in `s` agree with the shared state of `u`. -/
theorem exists_snapshot {C : α → Prop} {I : σ → Prop} {Q : σ → σ → Prop} (r : Run S n)
    (h0 : ∀ s, S.init s → ¬ I s)
    (hstep : ∀ s a s', S.Reachable s → S.step s a s' → I s' →
      Q s' s' ∨ ¬ C a ∧ I s ∧ ∀ u, Q s u → Q s' u) :
    ∀ {k : Nat}, k ≤ n → I (r.st k) →
      ∃ m, m ≤ k ∧ Q (r.st k) (r.st m) ∧ ∀ l, m ≤ l → l < k → ¬ C (r.act l) := by
  intro k
  induction k with
  | zero => intro _ hin; exact absurd hin (h0 _ r.start)
  | succ k ih =>
      intro hk hin
      rcases hstep _ _ _ (r.reachable (by omega)) (r.next k hk) hin with hs | ⟨hc, hin', hkeep⟩
      · exact ⟨k + 1, le_rfl, hs, fun l h1 h2 => absurd h1 (by omega)⟩
      · obtain ⟨m, hm, hs, hnone⟩ := ih (by omega) hin'
        refine ⟨m, Nat.le_succ_of_le hm, hkeep _ hs, fun l h1 h2 => ?_⟩
        rcases Nat.lt_succ_iff_lt_or_eq.mp h2 with h2 | rfl
        · exact hnone l h1 h2
        · exact hc

/-- The step that the states `I` depend on: `Q s u b` says that the locals in `s`
agree with the state `u` in which the step was made and with its label `b`. -/
theorem exists_origin {C : α → Prop} {I : σ → Prop} {Q : σ → σ → α → Prop} (r : Run S n)
    (h0 : ∀ s, S.init s → ¬ I s)
    (hstep : ∀ s a s', S.step s a s' → I s' →
      C a ∧ Q s' s a ∨ ¬ C a ∧ I s ∧ ∀ u b, Q s u b → Q s' u b) :
    ∀ {k : Nat}, k ≤ n → I (r.st k) → ∃ i, r.Last C i k ∧ Q (r.st k) (r.st i) (r.act i) := by
  intro k
  induction k with
  | zero => intro _ hin; exact absurd hin (h0 _ r.start)
  | succ k ih =>
      intro hk hin
      rcases hstep _ _ _ (r.next k hk) hin with ⟨hc, hs⟩ | ⟨hc, hin', hkeep⟩
      · exact ⟨k, .self hc, hs⟩
      · obtain ⟨i, hlast, hs⟩ := ih (by omega) hin'
        exact ⟨i, hlast.succ hc, hkeep _ _ hs⟩

end Transition.Run
