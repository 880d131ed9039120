import Mathlib.Tactic

/-!
# Balanced brackets

A word over brackets of several kinds.  `opener c` is the bracket that `c` closes, and none if
`c` is an opening bracket itself.  `Balanced` is the language of the grammar `S → ε | o S c S`,
with one rule for each pair of brackets.

The machine with a stack pushes an opening bracket, and pops one for a closing bracket.  It
accepts exactly the balanced words (`balanced_iff`): on a stack that is not empty, a word that
empties it is a sequence of balanced words with the closing brackets of the stack in between
(`Closes`).
-/

namespace Brackets

variable {C : Type u} {opener : C → Option C}

inductive Balanced (opener : C → Option C) : List C → Prop where
  | nil : Balanced opener []
  | pair : opener o = none → opener c = some o → Balanced opener u → Balanced opener v →
      Balanced opener (o :: (u ++ c :: v))

/-- One bracket, on the stack of the brackets that are open. -/
def step [DecidableEq C] (opener : C → Option C) (st : List C) (c : C) : Option (List C) :=
  match opener c, st with
  | none, st => some (c :: st)
  | some _, [] => none
  | some o, o' :: st => if o' = o then some st else none

theorem step_open [DecidableEq C] {c : C} (h : opener c = none) (st : List C) :
    step opener st c = some (c :: st) := by
  simp only [step, h]

theorem step_close [DecidableEq C] {o c : C} (h : opener c = some o) (st : List C) :
    step opener (o :: st) c = some st := by
  simp only [step, h, if_true]

/-- A balanced word leaves the stack as it was. -/
theorem Balanced.foldlM [DecidableEq C] {w : List C} (h : Balanced opener w) (st : List C) :
    w.foldlM (step opener) st = some st := by
  induction h generalizing st with
  | nil => rfl
  | pair ho hc _ _ ihu ihv =>
      rw [List.foldlM_cons, step_open ho, Option.bind_eq_bind, Option.bind_some, List.foldlM_append,
        ihu, Option.bind_eq_bind, Option.bind_some, List.foldlM_cons, step_close hc,
        Option.bind_eq_bind, Option.bind_some, ihv]

/-- Balanced words with the brackets in between that close those on the stack. -/
inductive Closes (opener : C → Option C) : List C → List C → Prop where
  | nil : Balanced opener w → Closes opener [] w
  | cons : Balanced opener u → opener c = some o → Closes opener st w →
      Closes opener (o :: st) (u ++ c :: w)

/-- A pair of brackets in front belongs to the first balanced word. -/
theorem Closes.pair {o c : C} {u st w : List C} (ho : opener o = none) (hc : opener c = some o)
    (hu : Balanced opener u) (h : Closes opener st w) : Closes opener st (o :: (u ++ c :: w)) := by
  cases h with
  | nil hw => exact .nil (.pair ho hc hu hw)
  | @cons u' c' o' st w hu' hc' h =>
      have hword := Closes.cons (Balanced.pair ho hc hu hu') hc' h
      rwa [List.cons_append, List.append_assoc, List.cons_append] at hword

/-- A word that empties the stack closes what was on it. -/
theorem closes_of_foldlM [DecidableEq C] {st w : List C}
    (h : w.foldlM (step opener) st = some []) : Closes opener st w := by
  induction w generalizing st with
  | nil =>
      obtain rfl : st = [] := Option.some.inj h
      exact .nil .nil
  | cons c w ih =>
      rw [List.foldlM_cons] at h
      obtain ⟨st', hstep, hrest⟩ := Option.bind_eq_some_iff.mp h
      have hcloses := ih hrest
      unfold step at hstep
      split at hstep
      · next hopen =>
          cases hstep
          cases hcloses with
          | cons hu hc hw => exact hw.pair hopen hc hu
      · cases hstep
      · next hclose =>
          split at hstep
          · next heq =>
              cases hstep
              subst heq
              exact Closes.cons .nil hclose hcloses
          · cases hstep

/-- The machine accepts the balanced words. -/
theorem balanced_iff [DecidableEq C] {w : List C} :
    w.foldlM (step opener) [] = some [] ↔ Balanced opener w := by
  constructor
  · intro h
    cases closes_of_foldlM h with
    | nil hw => exact hw
  · intro h
    exact h.foldlM []

end Brackets
