import Mathlib.Tactic

/-!
# The cells of a grid and their neighbours

A cell is a row and a column.  `shift` goes from a cell by an offset and has no result outside
of the grid.  The four cells that are reached by one step are the ones beside it.
-/

namespace Cells

/-- The cells of a grid with `m` rows and `n` columns. -/
abbrev Cell (m n : Nat) := Fin m × Fin n

variable {m n : Nat} {c d : Cell m n}

/-- The cells have a side in common. -/
def Adjacent (c d : Cell m n) : Prop :=
  (c.1 = d.1 ∧ (c.2.val + 1 = d.2.val ∨ d.2.val + 1 = c.2.val)) ∨
    (c.2 = d.2 ∧ (c.1.val + 1 = d.1.val ∨ d.1.val + 1 = c.1.val))

theorem Adjacent.symm (h : Adjacent c d) : Adjacent d c := by
  rcases h with ⟨heq, hstep⟩ | ⟨heq, hstep⟩
  · exact .inl ⟨heq.symm, hstep.symm⟩
  · exact .inr ⟨heq.symm, hstep.symm⟩

/-- The cell at an offset, unless it is outside. -/
def shift (c : Cell m n) (dx dy : Int) : Option (Cell m n) :=
  let x : Int := c.1.val + dx
  let y : Int := c.2.val + dy
  if h : x < 0 ∨ x ≥ m ∨ y < 0 ∨ y ≥ n then
    none
  else
    some (⟨x.toNat, by omega⟩, ⟨y.toNat, by omega⟩)

theorem shift_eq_some {dx dy : Int} :
    shift c dx dy = some d ↔ (d.1.val : Int) = c.1.val + dx ∧ (d.2.val : Int) = c.2.val + dy := by
  obtain ⟨⟨i, hi⟩, ⟨j, hj⟩⟩ := d
  rw [shift]
  simp only
  split
  · next hout =>
      constructor
      · rintro ⟨⟩
      · rintro ⟨hx, hy⟩
        omega
  · next hin =>
      rw [Option.some.injEq, Prod.mk.injEq, Fin.mk.injEq, Fin.mk.injEq]
      constructor
      · rintro ⟨rfl, rfl⟩
        omega
      · rintro ⟨hx, hy⟩
        omega

/-- The offsets of the four sides. -/
theorem adjacent_iff : Adjacent c d ↔
    shift c (-1) 0 = some d ∨ shift c 0 1 = some d ∨ shift c 1 0 = some d ∨
      shift c 0 (-1) = some d := by
  simp only [shift_eq_some, Adjacent, Fin.ext_iff]
  omega

/-- The cells beside a cell, from tables of the four offsets. -/
theorem mem_around :
    d ∈ (List.finRange 4).filterMap (fun k =>
      shift c ((![-1, 0, 1, 0] : Fin 4 → Int) k) ((![0, 1, 0, -1] : Fin 4 → Int) k)) ↔
      Adjacent c d := by
  have hdirs : List.finRange 4 = [0, 1, 2, 3] := by decide
  rw [List.mem_filterMap, adjacent_iff, hdirs]
  simp

/-- The cells, row by row. -/
def all (m n : Nat) : List (Cell m n) :=
  (List.finRange m).flatMap fun i => (List.finRange n).map (i, ·)

theorem nodup_all (m n : Nat) : (all m n).Nodup :=
  (List.nodup_finRange m).product (List.nodup_finRange n)

theorem mem_all (c : Cell m n) : c ∈ all m n :=
  List.mem_flatMap.mpr ⟨c.1, List.mem_finRange _, List.mem_map.mpr ⟨c.2, List.mem_finRange _, rfl⟩⟩

/-- A list of different cells is no longer than the grid is large. -/
theorem length_le {l : List (Cell m n)} (h : l.Nodup) : l.length ≤ m * n := by
  have hcard := h.length_le_card
  rwa [Fintype.card_prod, Fintype.card_fin, Fintype.card_fin] at hcard

/-- The list has different cells, all of which have the mark. -/
structure Recorded {χ : Type} (mark : χ) (g : Cell m n → χ) (l : List (Cell m n)) : Prop where
  nodup : l.Nodup
  marked : ∀ c ∈ l, g c = mark

theorem Recorded.update {χ : Type} {mark : χ} {g : Cell m n → χ} {l : List (Cell m n)}
    (h : Recorded mark g l) (c : Cell m n) : Recorded mark (Function.update g c mark) l := by
  refine ⟨h.nodup, fun d hd => ?_⟩
  by_cases heq : d = c
  · rw [heq, Function.update_self]
  · rw [Function.update_of_ne heq]
    exact h.marked d hd

theorem Recorded.swap {χ : Type} {mark : χ} {g : Cell m n → χ} {l l' : List (Cell m n)}
    (h : Recorded mark g (l ++ l')) : Recorded mark g (l' ++ l) :=
  ⟨List.nodup_append_comm.mp h.nodup, fun c hc => h.marked c (List.perm_append_comm.mem_iff.mp hc)⟩

/-- One more cell that has the mark. -/
theorem Recorded.append {χ : Type} {mark : χ} {g : Cell m n → χ} {l : List (Cell m n)}
    (h : Recorded mark g l) (hc : g c = mark) (hnew : c ∉ l) : Recorded mark g (l ++ [c]) := by
  refine ⟨?_, fun d hd => ?_⟩
  · exact List.nodup_append'.mpr ⟨h.nodup, List.nodup_singleton c, by simpa using hnew⟩
  · rcases List.mem_append.mp hd with hd | hd
    · exact h.marked d hd
    · rw [List.mem_singleton.mp hd, hc]

/-- There is room for a cell that does not have the mark. -/
theorem Recorded.put {χ : Type} {mark : χ} {g : Cell m n → χ} {l : List (Cell m n)}
    (h : Recorded mark g l) (hc : g c ≠ mark) :
    l.length < m * n ∧ Recorded mark (Function.update g c mark) (l ++ [c]) := by
  have hnew : c ∉ l := fun hin => hc (h.marked c hin)
  have hput := (h.update c).append (Function.update_self c mark g) hnew
  have hlen := length_le hput.nodup
  rw [List.length_append, List.length_singleton] at hlen
  exact ⟨hlen, hput⟩

/-- A cell that loses a property is counted no more. -/
theorem countP_update {χ : Type} {p : χ → Bool} {l : List (Cell m n)} (h : l.Nodup) (hc : c ∈ l)
    {g : Cell m n → χ} {v : χ} (hold : p (g c) = true) (hnew : p v = false) :
    l.countP (fun d => p (Function.update g c v d)) + 1 = l.countP fun d => p (g d) := by
  induction l with
  | nil => exact absurd hc List.not_mem_nil
  | cons a l ih =>
      obtain ⟨hout, h⟩ := List.nodup_cons.mp h
      rw [List.countP_cons, List.countP_cons]
      by_cases heq : a = c
      · subst heq
        have hsame : l.countP (fun d => p (Function.update g a v d)) = l.countP fun d => p (g d) :=
          List.countP_congr fun d hd => by
            rw [Function.update_of_ne (ne_of_mem_of_not_mem hd hout)]
        simp [hsame, hold, hnew]
      · have hin : c ∈ l := (List.mem_cons.mp hc).resolve_left (Ne.symm heq)
        rw [Function.update_of_ne heq, ← ih h hin]
        omega

end Cells
