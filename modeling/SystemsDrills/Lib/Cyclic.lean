import Mathlib.Tactic

/-!
# Free-running counters over a cyclic buffer

A 64-bit counter that is only ever incremented is the image of a natural
number.  The difference of two such counters is exact as long as the numbers
are less than `2 ^ 64` apart, and masking one with `2 ^ k - 1` gives the number
modulo `2 ^ k`, since `2 ^ k` divides `2 ^ 64`.

A cyclic buffer of `cap` slots keeps item number `i` in slot `i % cap`, and two
items less than `cap` apart do not collide.  `Window` says which values a buffer holds
from an item on.

`FifoStep` is the abstract bounded queue such a buffer implements.
-/

namespace Cyclic

/-! ## Counters modulo `2 ^ 64` -/

@[simp] theorem ofNat_succ (n : Nat) : UInt64.ofNat (n + 1) = UInt64.ofNat n + 1 := by
  simp [UInt64.ofNat_add]

theorem toNat_sub_ofNat {m n : Nat} (hmn : m ≤ n) (h : n < m + 2 ^ 64) :
    (UInt64.ofNat n - UInt64.ofNat m).toNat = n - m := by
  rw [UInt64.toNat_sub, UInt64.toNat_ofNat', UInt64.toNat_ofNat']
  omega

/-- A counter masked with a power of two less one. -/
theorem toNat_ofNat_and {cap : UInt64} {k : Nat} (hcap : cap.toNat = 2 ^ k) (n : Nat) :
    (UInt64.ofNat n &&& (cap - 1)).toNat = n % cap.toNat := by
  have hpos : 1 ≤ cap.toNat := hcap ▸ Nat.one_le_two_pow
  have hmask : (cap - 1).toNat = 2 ^ k - 1 := by
    rw [UInt64.toNat_sub_of_le _ _ (UInt64.le_iff_toNat_le.mpr (by simpa using hpos)), hcap]
    rfl
  have hk : k ≤ 64 := by
    have := cap.toNat_lt
    rw [hcap] at this
    exact (Nat.pow_lt_pow_iff_right (by norm_num)).mp this |>.le
  rw [UInt64.toNat_and, hmask, Nat.and_two_pow_sub_one_eq_mod, UInt64.toNat_ofNat', hcap,
    Nat.mod_mod_of_dvd n (Nat.pow_dvd_pow 2 hk)]

/-- `c != 0 && (c & (c - 1)) == 0` tests for a power of two. -/
theorem exists_two_pow {c : UInt64} (h0 : c ≠ 0) (hand : c &&& (c - 1) = 0) :
    ∃ k, c.toNat = 2 ^ k := by
  have hne : c.toNat ≠ 0 := fun h => h0 (UInt64.toNat_inj.mp (by simpa using h))
  refine (Nat.and_sub_one_eq_zero_iff_isPowerOfTwo hne).mp ?_
  have := congrArg UInt64.toNat hand
  rwa [UInt64.toNat_and, UInt64.toNat_sub_of_le _ _
    (show (1 : UInt64) ≤ c from UInt64.le_iff_toNat_le.mpr (Nat.one_le_iff_ne_zero.mpr hne))] at this

/-! ## Slots -/

/-- Items less than `cap` apart are in different slots. -/
theorem mod_ne {cap i j : Nat} (hij : i < j) (h : j < i + cap) : i % cap ≠ j % cap := by
  intro he
  have hd : j - i ≡ 0 [MOD cap] := (Nat.modEq_iff_dvd' hij.le).mp he |>.modEq_zero_nat
  have := Nat.le_of_dvd (by omega) (Nat.modEq_zero_iff_dvd.mp hd)
  omega

/-- The buffer of `cap` slots holds the values `vs`, the first of them as item number
`base`. -/
structure Window (buf : List β) (cap base : Nat) (vs : List β) : Prop where
  slots : buf.length = cap
  fits : vs.length ≤ cap
  items : ∀ i < vs.length, buf[(base + i) % cap]? = vs[i]?

namespace Window

variable {buf vs : List β} {cap base : Nat} {v : β}

theorem empty (h : buf.length = cap) (base : Nat) : Window buf cap base [] :=
  ⟨h, Nat.zero_le _, fun _ hi => absurd hi (Nat.not_lt_zero _)⟩

/-- A value stored after the last one. -/
theorem push (h : Window buf cap base vs) (hroom : vs.length < cap) (v : β) :
    Window (buf.set ((base + vs.length) % cap) v) cap base (vs ++ [v]) := by
  refine ⟨by simpa using h.slots, by simpa using hroom, fun i hi => ?_⟩
  rcases Nat.lt_or_eq_of_le (Nat.lt_succ_iff.mp (by simpa using hi)) with hlt | rfl
  · have hne := mod_ne (Nat.add_lt_add_left hlt base) (show base + vs.length < base + i + cap by omega)
    rw [List.getElem?_set_ne hne.symm, h.items i hlt, List.getElem?_append_left hlt]
  · have hslot : (base + vs.length) % cap < buf.length := by
      rw [h.slots]
      exact Nat.mod_lt _ (Nat.zero_lt_of_lt hroom)
    rw [List.getElem?_set_self hslot, List.getElem?_concat_length]

/-- The first value is in its slot. -/
theorem head (h : Window buf cap base (v :: vs)) : buf[base % cap]? = some v := by
  simpa using h.items 0 (by simp)

/-- The other values are still there when the first one is dropped. -/
theorem tail (h : Window buf cap base (v :: vs)) : Window buf cap (base + 1) vs := by
  refine ⟨h.slots, (Nat.le_succ _).trans h.fits, fun i hi => ?_⟩
  have := h.items (i + 1) (by simpa using hi)
  rwa [List.getElem?_cons_succ, ← Nat.add_assoc, Nat.add_right_comm] at this

/-- Only the slot of the first item matters, not its number. -/
theorem mod_base (h : Window buf cap base vs) : Window buf cap (base % cap) vs :=
  ⟨h.slots, h.fits, fun i hi => by rw [Nat.mod_add_mod]; exact h.items i hi⟩

end Window

/-! ## The abstract queue -/

/-- What an operation does to a queue. -/
inductive FifoOp (β : Type u) where
  | enqueue (v : β)
  | dequeue (v : β)
  /-- Nothing that the queue notices. -/
  | silent

/-- A queue that holds at most `cap` items, oldest first. -/
inductive FifoStep (cap : Nat) : List β → FifoOp β → List β → Prop where
  | enqueue : q.length < cap → FifoStep cap q (.enqueue v) (q ++ [v])
  | dequeue : FifoStep cap (v :: q) (.dequeue v) q
  | silent : FifoStep cap q .silent q

/-- What comes out stays a prefix of what went in when the next item out is the
one that went in at its place. -/
theorem prefix_concat {rs ws : List β} {v : β} (h : rs <+: ws)
    (hv : ws[rs.length]? = some v) : rs ++ [v] <+: ws := by
  obtain ⟨t, rfl⟩ := h
  cases t with
  | nil => simp at hv
  | cons x t =>
      simp only [List.getElem?_append_right le_rfl, Nat.sub_self, List.getElem?_cons_zero,
        Option.some.injEq] at hv
      exact ⟨t, by simp [hv]⟩

end Cyclic
