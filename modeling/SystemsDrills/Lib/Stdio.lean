import Mathlib.Tactic

/-!
# Reading text with `fgets` and `sscanf`

The C library's line input on a stream of bytes.  `fgets` gives what is left of the line up to and
with its newline, but no more than the buffer holds.  A line that is longer comes in several chunks,
and the caller cannot tell them from lines.

A chunk never goes over a newline, so a stream that ends with one is read as if nothing came after it
(`fgets_append`).  `scanInt` is the conversion `%d` in the C locale, with the exact value of the
number.
-/

namespace Stdio

/-- `'\n'`. -/
def newline : UInt8 := 10

/-- What is read with room for `room` bytes, and what is left. -/
def readLine : Nat → List UInt8 → List UInt8 × List UInt8
  | 0, s => ([], s)
  | _ + 1, [] => ([], [])
  | room + 1, c :: s =>
      if c = newline then ([c], s)
      else (c :: (readLine room s).1, (readLine room s).2)

/-- `fgets` with a buffer of `size` bytes, of which the last is for the terminator.  Nothing is read
at the end of the stream. -/
def fgets (size : Nat) (s : List UInt8) : Option (List UInt8 × List UInt8) :=
  if s = [] then none else some (readLine (size - 1) s)

/-- The string in a buffer ends at the first zero byte. -/
def cString (buf : List UInt8) : List UInt8 := buf.takeWhile (· ≠ 0)

/-- `isspace`. -/
def isSpace (c : UInt8) : Bool := c = 32 ∨ 9 ≤ c ∧ c ≤ 13

/-- `isdigit`. -/
def isDigit (c : UInt8) : Bool := 48 ≤ c ∧ c ≤ 57

/-- A blank of a format. -/
def skipSpace (s : List UInt8) : List UInt8 := s.dropWhile isSpace

/-- The number with these digits. -/
def number (ds : List UInt8) : Nat := ds.foldl (fun v d => 10 * v + (d.toNat - 48)) 0

/-- The digits at the front, which must be there, and what is left. -/
def scanDigits (s : List UInt8) : Option (Nat × List UInt8) :=
  if s.takeWhile isDigit = [] then none
  else some (number (s.takeWhile isDigit), s.dropWhile isDigit)

/-- `%d`. -/
def scanInt (s : List UInt8) : Option (Int × List UInt8) :=
  match skipSpace s with
  | [] => none
  | c :: rest =>
      if c = 45 then (scanDigits rest).map fun r => (-(r.1 : Int), r.2)
      else if c = 43 then (scanDigits rest).map fun r => ((r.1 : Int), r.2)
      else (scanDigits (c :: rest)).map fun r => ((r.1 : Int), r.2)

/-- An ordinary character of a format. -/
def scanChar (c : UInt8) : List UInt8 → Option (List UInt8)
  | [] => none
  | d :: s => if d = c then some s else none

variable {room : Nat} {p s t c : List UInt8}

/-! ## One call -/

theorem readLine_append_left (room : Nat) (s : List UInt8) :
    (readLine room s).1 ++ (readLine room s).2 = s := by
  fun_induction readLine room s with
  | case1 => rfl
  | case2 => rfl
  | case3 => rfl
  | case4 room c s _ ih => rw [List.cons_append, ih]

theorem fgets_eq_some {size : Nat} (h : fgets size s = some (c, t)) :
    c ++ t = s ∧ s ≠ [] ∧ readLine (size - 1) s = (c, t) := by
  unfold fgets at h
  split at h
  · cases h
  · next hne =>
    have hread := Option.some.inj h
    refine ⟨?_, hne, hread⟩
    have key := readLine_append_left (size - 1) s
    rwa [hread] at key

/-- With room for a byte something is read. -/
theorem readLine_succ_ne_nil (room : Nat) (hs : s ≠ []) : (readLine (room + 1) s).1 ≠ [] := by
  cases s with
  | nil => exact absurd rfl hs
  | cons b s =>
      rw [readLine]
      split
      · exact List.cons_ne_nil _ _
      · exact List.cons_ne_nil _ _

theorem fgets_length (h : fgets (room + 2) s = some (c, t)) : t.length < s.length := by
  obtain ⟨hs, hne, hread⟩ := fgets_eq_some h
  have hc : 0 < c.length := by
    have key := readLine_succ_ne_nil room hne
    rw [show readLine (room + 1) s = (c, t) from hread] at key
    exact List.length_pos_iff.mpr key
  rw [← hs, List.length_append]
  omega

/-- Without a newline the room is used up. -/
theorem readLine_full (ht : newline ∉ t) (s : List UInt8) : readLine t.length (t ++ s) = (t, s) := by
  induction t with
  | nil => rfl
  | cons b t ih =>
      rw [List.mem_cons, not_or] at ht
      obtain ⟨hb, ht⟩ := ht
      rw [List.length_cons, List.cons_append, readLine, if_neg (Ne.symm hb), ih ht]

theorem fgets_full (ht : newline ∉ t) (hlen : t.length = room + 1) (s : List UInt8) :
    fgets (room + 2) (t ++ s) = some (t, s) := by
  have hne : t ++ s ≠ [] := by
    intro h
    rw [(List.append_eq_nil_iff.mp h).1] at hlen
    cases hlen
  have key := readLine_full ht s
  rw [hlen] at key
  rw [fgets, if_neg hne]
  exact congrArg some key

/-- A line for which there is room is read to its end. -/
theorem readLine_line (ht : newline ∉ t) (hroom : t.length < room) (s : List UInt8) :
    readLine room (t ++ newline :: s) = (t ++ [newline], s) := by
  induction t generalizing room with
  | nil =>
      cases room with
      | zero => cases hroom
      | succ room => rw [List.nil_append, readLine, if_pos rfl, List.nil_append]
  | cons b t ih =>
      rw [List.mem_cons, not_or] at ht
      obtain ⟨hb, ht⟩ := ht
      cases room with
      | zero => cases hroom
      | succ room =>
          rw [List.cons_append, readLine, if_neg (Ne.symm hb), ih ht (Nat.lt_of_succ_lt_succ hroom),
            List.cons_append]

/-! ## A stream that ends with a newline -/

/-- The last byte, if there is one, is a newline. -/
def Ended (p : List UInt8) : Prop := ∀ t c, p = t ++ [c] → c = newline

theorem ended_nil : Ended [] := by
  intro t c h
  exact absurd h (by simp)

theorem Ended.of_append (h : Ended (t ++ p)) : Ended p := by
  intro u c hp
  exact h (t ++ u) c (by rw [hp, List.append_assoc])

theorem ended_append_newline (t : List UInt8) : Ended (t ++ [newline]) := by
  intro u c h
  exact (List.cons.inj (List.append_inj_right' h rfl)).1.symm

/-- What comes after does not change what is read first. -/
theorem readLine_append (hp : Ended p) (hne : p ≠ []) (room : Nat) (s : List UInt8) :
    readLine room (p ++ s) = ((readLine room p).1, (readLine room p).2 ++ s) := by
  fun_induction readLine room p with
  | case1 => rfl
  | case2 => exact absurd rfl hne
  | case3 room p => rw [List.cons_append, readLine, if_pos rfl]
  | case4 room c p hc ih =>
      -- The line goes on, since its last byte is a newline.
      have hp' : p ≠ [] := by
        rintro rfl
        exact hc (hp [] c rfl)
      rw [List.cons_append, readLine, if_neg hc, ih (Ended.of_append (t := [c]) hp) hp']

theorem fgets_append {size : Nat} (hp : Ended p) (h : fgets size p = some (c, t)) (s : List UInt8) :
    fgets size (p ++ s) = some (c, t ++ s) ∧ Ended t := by
  obtain ⟨hct, hne, hread⟩ := fgets_eq_some h
  refine ⟨?_, (hct ▸ hp : Ended (c ++ t)).of_append⟩
  rw [fgets, if_neg (List.append_ne_nil_of_left_ne_nil hne s), readLine_append hp hne, hread]

/-! ## All calls -/

/-- What `fgets` gives, call after call, with a buffer for `room + 1` bytes and the terminator. -/
def chunks (room : Nat) (s : List UInt8) : List (List UInt8) :=
  match h : fgets (room + 2) s with
  | none => []
  | some (c, rest) =>
      have := fgets_length h
      c :: chunks room rest
termination_by s.length

theorem chunks_nil (room : Nat) : chunks room [] = [] := by
  rw [chunks]
  rfl

theorem chunks_some (h : fgets (room + 2) s = some (c, t)) :
    chunks room s = c :: chunks room t := by
  rw [chunks]
  split
  · next heq => rw [h] at heq; cases heq
  · next heq =>
    rw [h] at heq
    cases heq
    rfl

/-- Induction over the calls of `fgets`. -/
theorem fgets_induction (room : Nat) {motive : List UInt8 → Prop} (nil : motive [])
    (read : ∀ s c t, fgets (room + 2) s = some (c, t) → motive t → motive s) (s : List UInt8) :
    motive s := by
  by_cases hs : s = []
  · exact hs ▸ nil
  · have h : fgets (room + 2) s = some (readLine (room + 1) s) := by
      rw [fgets, if_neg hs]
      rfl
    have := fgets_length h
    exact read s _ _ h (fgets_induction room nil read (readLine (room + 1) s).2)
termination_by s.length

end Stdio
