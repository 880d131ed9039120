import Mathlib.Tactic
import Mathlib.Data.Fintype.EquivFin

/-!
# Loops that can be run backwards

A loop with a step that has a left inverse never comes to the same state by two ways.  If there
are finitely many states and no step leads to the first one, then the loop ends: a state that
came back would make the first one come back too.
-/

namespace Reversible

variable {S : Type u} {step : S → Option S} {s : S}

/-- `while` with the body `step`, which is `none` where the condition fails. -/
def loop (step : S → Option S) : Nat → S → Option S
  | 0, _ => none
  | fuel + 1, s =>
    match step s with
    | none => some s
    | some s' => loop step fuel s'

theorem loop_of_none (h : step s = none) {fuel : Nat} (hfuel : 0 < fuel) :
    loop step fuel s = some s := by
  obtain ⟨fuel, rfl⟩ := Nat.exists_eq_succ_of_ne_zero (Nat.ne_of_gt hfuel)
  rw [loop, h]

theorem loop_of_some {s' : S} (h : step s = some s') (fuel : Nat) :
    loop step (fuel + 1) s = loop step fuel s' := by
  rw [loop, h]

/-- The states of the loop, as long as it goes on. -/
def states (step : S → Option S) (s : S) : Nat → S
  | 0 => s
  | n + 1 => (step (states step s n)).getD (states step s n)

theorem loop_states {n : Nat} (hgo : ∀ i < n, step (states step s i) ≠ none)
    (hend : step (states step s n) = none) {fuel : Nat} (hfuel : n < fuel) :
    loop step fuel s = some (states step s n) := by
  have hfrom : ∀ d ≤ n, ∀ fuel, d < fuel →
      loop step fuel (states step s (n - d)) = some (states step s n) := by
    intro d
    induction d with
    | zero => exact fun _ fuel hfuel => loop_of_none hend hfuel
    | succ d ih =>
        intro hd fuel hfuel
        obtain ⟨fuel, rfl⟩ := Nat.exists_eq_succ_of_ne_zero (Nat.ne_of_gt (Nat.zero_lt_of_lt hfuel))
        obtain ⟨s', hs'⟩ := Option.ne_none_iff_exists'.mp (hgo (n - (d + 1)) (by omega))
        have hnext : states step s (n - d) = s' := by
          rw [show n - d = n - (d + 1) + 1 by omega, states, hs', Option.getD_some]
        rw [loop_of_some hs', ← hnext]
        exact ih (by omega) fuel (Nat.lt_of_succ_lt_succ hfuel)
  have h := hfrom n le_rfl fuel hfuel
  rwa [Nat.sub_self] at h

variable {back : S → S}

/-- Two equal states come from equal ones. -/
theorem states_back (hback : ∀ a b, step a = some b → back b = a)
    (hgo : ∀ i, step (states step s i) ≠ none) {i d : Nat}
    (h : states step s i = states step s (i + d)) : s = states step s d := by
  induction i with
  | zero => rwa [Nat.zero_add] at h
  | succ i ih =>
      have hstep : ∀ j, back (states step s (j + 1)) = states step s j := by
        intro j
        obtain ⟨s', hs'⟩ := Option.ne_none_iff_exists'.mp (hgo j)
        rw [states, hs', Option.getD_some]
        exact hback _ _ hs'
      refine ih ?_
      rw [← hstep i, h, show i + 1 + d = i + d + 1 by omega, hstep]

/-- A loop that can be run backwards ends, if no step leads to its first state. -/
theorem loop_ends [Finite S] (hback : ∀ a b, step a = some b → back b = a)
    (hfirst : ∀ a, step a ≠ some s) : ∃ t n, ∀ fuel, n ≤ fuel → loop step fuel s = some t := by
  classical
  have hend : ∃ n, step (states step s n) = none := by
    by_contra hgo
    push Not at hgo
    obtain ⟨i, j, hne, heq⟩ := Finite.exists_ne_map_eq_of_infinite (states step s)
    wlog hlt : i < j
    · exact this hback hfirst hgo j i hne.symm heq.symm (by omega)
    obtain ⟨d, rfl⟩ := Nat.exists_eq_add_of_lt hlt
    obtain ⟨s', hs'⟩ := Option.ne_none_iff_exists'.mp (hgo d)
    refine hfirst (states step s d) ?_
    have hcycle : s = states step s (d + 1) := states_back hback hgo heq
    rw [states, hs', Option.getD_some] at hcycle
    rw [hs', ← hcycle]
  refine ⟨states step s (Nat.find hend), Nat.find hend + 1, fun fuel hfuel => ?_⟩
  exact loop_states (fun i hi => Nat.find_min hend hi) (Nat.find_spec hend) hfuel

end Reversible
