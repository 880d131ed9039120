import SystemsDrills.Lib.Copying

/-!
# `my_memcpy` and `my_memmove`

The copies of `Interview/leetcode/09-memcpy-memmove.c`, on a flat memory of bytes.  Addresses
are 64-bit and so is `size_t`.  `my_memmove` compares the two addresses and copies from the end
if `dest` is the larger one, so it reads every byte of the source before it is overwritten.
-/

namespace Memcpy

open Copying

/-! ## The code -/

/-- A byte for each address. -/
abbrev Memory := UInt64 → UInt8

/-- The address of `p[i]`. -/
def byte (p : UInt64) (i : Nat) : UInt64 := p + UInt64.ofNat i

/-- `d[i] = s[i]`. -/
def copyByte (d s : UInt64) (m : Memory) (i : Nat) : Memory := store (byte d) (byte s) m i

/-- The loop of `my_memcpy`, when `size` bytes are left. -/
def memcpyLoop : Nat → UInt64 → UInt64 → Memory → Memory
  | 0, _, _, m => m
  | size + 1, d, s, m => memcpyLoop size (d + 1) (s + 1) (Function.update m d (m s))

/-- `my_memcpy`: what it returns, and the memory after it. -/
def myMemcpy (m : Memory) (dest src size : UInt64) : UInt64 × Memory :=
  (dest, memcpyLoop size.toNat dest src m)

/-- The loop of `my_memmove` from the end, with `i` bytes left. -/
def copyDown (d s : UInt64) : Nat → Memory → Memory
  | 0, m => m
  | i + 1, m => copyDown d s i (copyByte d s m i)

/-- The loop of `my_memmove` from the start. -/
def copyUp (d s : UInt64) (size : Nat) (m : Memory) : Memory :=
  (List.range size).foldl (copyByte d s) m

/-- `my_memmove`. -/
def myMemmove (m : Memory) (dest src size : UInt64) : UInt64 × Memory :=
  (dest, if dest > src then copyDown dest src size.toNat m else copyUp dest src size.toNat m)

/-! ## The loops -/

variable {dest src p d s : UInt64} {n i j : Nat}

theorem toNat_byte (hp : p.toNat + n ≤ 2 ^ 64) (hi : i < n) : (byte p i).toNat = p.toNat + i := by
  rw [byte, UInt64.toNat_add, UInt64.toNat_ofNat', Nat.add_mod_mod, Nat.mod_eq_of_lt (by omega)]

theorem byte_succ (p : UInt64) (i : Nat) : byte (p + 1) i = byte p (i + 1) := by
  rw [byte, byte, UInt64.ofNat_add, UInt64.add_assoc, UInt64.add_comm 1]
  rfl

theorem memcpyLoop_eq (n : Nat) (d s : UInt64) (m : Memory) :
    memcpyLoop n d s m = copyUp d s n m := by
  induction n generalizing d s m with
  | zero => rfl
  | succ n ih =>
      have hfirst : Function.update m d (m s) = copyByte d s m 0 := by
        simp [copyByte, store, byte]
      have hshift : copyByte (d + 1) (s + 1) = fun m i => copyByte d s m (i + 1) := by
        funext m i
        rw [copyByte, copyByte, store, store, byte_succ, byte_succ]
      rw [memcpyLoop, ih, copyUp, copyUp, List.range_succ_eq_map, List.foldl_cons,
        List.foldl_map, hfirst, hshift]

theorem copyDown_eq (n : Nat) (m : Memory) :
    copyDown d s n m = (List.range n).reverse.foldl (copyByte d s) m := by
  induction n generalizing m with
  | zero => rfl
  | succ n ih => rw [copyDown, ih, List.range_succ, List.reverse_concat, List.foldl_cons]

section

variable (hd : d.toNat + n ≤ 2 ^ 64) (hs : s.toNat + n ≤ 2 ^ 64)

include hd in
theorem byte_ne (hi : i < n) (hj : j < n) (hne : i ≠ j) : byte d i ≠ byte d j := by
  intro heq
  have := congrArg UInt64.toNat heq
  rw [toNat_byte hd hi, toNat_byte hd hj] at this
  omega

/-- `m'` is `m` with a copy of the source in the destination. -/
structure Copied (d s : UInt64) (n : Nat) (m m' : Memory) : Prop where
  copy : ∀ i < n, m' (byte d i) = m (byte s i)
  frame : ∀ a, (∀ i < n, a ≠ byte d i) → m' a = m a

include hd in
/-- A loop over the bytes in some order is right if it reads each before it is overwritten. -/
theorem copied_foldl {is : List Nat} (hperm : is.Perm (List.range n))
    (hsafe : is.Pairwise fun i j => byte d i ≠ byte s j) (m : Memory) :
    Copied d s n m (is.foldl (copyByte d s) m) := by
  have hmem : ∀ i, i ∈ is ↔ i < n := fun i => hperm.mem_iff.trans List.mem_range
  have hdst : is.Pairwise fun i j => byte d i ≠ byte d j := by
    have hnodup := hperm.nodup_iff.mpr List.nodup_range
    refine hnodup.imp_of_mem fun hi hj hne => ?_
    exact byte_ne hd ((hmem _).mp hi) ((hmem _).mp hj) hne
  refine ⟨fun i hi => foldl_store hdst hsafe m i ((hmem i).mpr hi), fun a ha => ?_⟩
  exact foldl_store_of_ne (fun i hi => ha i ((hmem i).mp hi)) m

include hd hs in
/-- From the start, if the destination comes first. -/
theorem copied_copyUp (hle : d ≤ s) (m : Memory) : Copied d s n m (copyUp d s n m) := by
  refine copied_foldl hd (List.Perm.refl _) ?_ m
  refine (List.pairwise_lt_range (n := n)).imp_of_mem fun hi hj hlt heq => ?_
  have := congrArg UInt64.toNat heq
  rw [toNat_byte hd (List.mem_range.mp hi), toNat_byte hs (List.mem_range.mp hj)] at this
  rw [UInt64.le_iff_toNat_le] at hle
  omega

include hd hs in
/-- From the end, if the source comes first. -/
theorem copied_copyDown (hlt : s < d) (m : Memory) : Copied d s n m (copyDown d s n m) := by
  rw [copyDown_eq]
  refine copied_foldl hd (List.reverse_perm _) ?_ m
  rw [List.pairwise_reverse]
  refine (List.pairwise_lt_range (n := n)).imp_of_mem fun hi hj hij heq => ?_
  have := congrArg UInt64.toNat heq
  rw [toNat_byte hd (List.mem_range.mp hj), toNat_byte hs (List.mem_range.mp hi)] at this
  rw [UInt64.lt_iff_toNat_lt] at hlt
  omega

include hd hs in
/-- From the start, if the ranges are disjoint. -/
theorem copied_copyUp_of_disjoint (hdisj : d.toNat + n ≤ s.toNat ∨ s.toNat + n ≤ d.toNat)
    (m : Memory) : Copied d s n m (copyUp d s n m) := by
  refine copied_foldl hd (List.Perm.refl _) ?_ m
  refine (List.pairwise_lt_range (n := n)).imp_of_mem fun hi hj _ heq => ?_
  have hi := List.mem_range.mp hi
  have hj := List.mem_range.mp hj
  have := congrArg UInt64.toNat heq
  rw [toNat_byte hd hi, toNat_byte hs hj] at this
  omega

end

/-- There is only one such memory. -/
theorem Copied.eq {m m₁ m₂ : Memory} (h₁ : Copied d s n m m₁) (h₂ : Copied d s n m m₂) :
    m₁ = m₂ := by
  funext a
  by_cases ha : ∃ i < n, a = byte d i
  · obtain ⟨i, hi, rfl⟩ := ha
    rw [h₁.copy i hi, h₂.copy i hi]
  · have hne : ∀ i < n, a ≠ byte d i := fun i hi heq => ha ⟨i, hi, heq⟩
    rw [h₁.frame a hne, h₂.frame a hne]

theorem copied_myMemmove (hd : dest.toNat + n ≤ 2 ^ 64) (hs : src.toNat + n ≤ 2 ^ 64)
    {size : UInt64} (hn : size.toNat = n) (m : Memory) :
    Copied dest src n m (myMemmove m dest src size).2 := by
  subst hn
  rw [myMemmove]
  split
  · next hgt => exact copied_copyDown hd hs hgt m
  · next hle => exact copied_copyUp hd hs (UInt64.not_lt.mp hle) m

/-- `my_memmove` copies as if through a buffer, for every overlap.  Byte `i` of the destination is
what byte `i` of the source was before the call, and no byte outside the destination changes.
If the ranges are disjoint, `my_memcpy` does the same. -/
theorem my_memmove_copies (m : Memory) {dest src size : UInt64}
    (hd : dest.toNat + size.toNat ≤ 2 ^ 64) (hs : src.toNat + size.toNat ≤ 2 ^ 64) :
    (∀ i < size, (myMemmove m dest src size).2 (dest + i) = m (src + i)) ∧
      (∀ a, a < dest ∨ dest.toNat + size.toNat ≤ a.toNat →
        (myMemmove m dest src size).2 a = m a) ∧
      (dest.toNat + size.toNat ≤ src.toNat ∨ src.toNat + size.toNat ≤ dest.toNat →
        myMemcpy m dest src size = myMemmove m dest src size) := by
  have hmove := copied_myMemmove hd hs rfl m
  refine ⟨fun i hi => ?_, fun a ha => ?_, fun hdisj => ?_⟩
  · have hbyte := hmove.copy i.toNat (UInt64.lt_iff_toNat_lt.mp hi)
    rwa [byte, byte, UInt64.ofNat_toNat] at hbyte
  · refine hmove.frame a fun i hi heq => ?_
    have haddr := congrArg UInt64.toNat heq
    rw [toNat_byte hd hi] at haddr
    rw [UInt64.lt_iff_toNat_lt] at ha
    omega
  · refine Prod.ext rfl (Copied.eq ?_ hmove)
    rw [myMemcpy, memcpyLoop_eq]
    exact copied_copyUp_of_disjoint hd hs hdisj m

/-- A copy onto itself, three bytes further: its last byte, and one that is not written. -/
theorem my_memmove_copies_overlap :
    (myMemmove (fun a => a.toUInt8) 103 100 5).2 (103 + 4) = 104 ∧
      (myMemmove (fun a => a.toUInt8) 103 100 5).2 102 = 102 := by
  have hd : (103 : UInt64).toNat + (5 : UInt64).toNat ≤ 2 ^ 64 := by decide
  have hs : (100 : UInt64).toNat + (5 : UInt64).toNat ≤ 2 ^ 64 := by decide
  obtain ⟨hcopy, hframe, -⟩ := my_memmove_copies (fun a => a.toUInt8) hd hs
  exact ⟨hcopy 4 (by decide), hframe 102 (.inl (by decide))⟩

end Memcpy
