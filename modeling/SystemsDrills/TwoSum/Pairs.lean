import SystemsDrills.TwoSum.Map

/-!
# `twoSum`

The loop of `Interview/leetcode/01-two-sum.c` looks up what a number lacks to the target among
the numbers before it, and then stores the number with its index.  A later index of the same
number replaces an earlier one.  The map has at least twice as many slots as there are numbers,
so a slot is always empty and the probes end.

`rounds` is the loop after `i` rounds.  It is `error` once the loop has returned a pair and `ok`
as long as it goes on.  There is no result if a probe does not end or if an `int` overflows.
-/

namespace TwoSum

/-! ## The code -/

/-- `nums[i]`. -/
def num (nums : List Int32) (i : Nat) : Int32 := nums[i]?.getD 0

/-- The integer is an `int`. -/
def IsInt (z : Int) : Prop := -2 ^ 31 ≤ z ∧ z < 2 ^ 31

instance (z : Int) : Decidable (IsInt z) := inferInstanceAs (Decidable (_ ∧ _))

section

variable (mix : Int32 → UInt64) (fuel : Nat) (nums : List Int32) (target : Int32)

/-- The loop body at index `i`. -/
def round (mp : Map) (i : Nat) : Option (Except (Int32 × Int32) Map) :=
  if IsInt (target.toInt - (num nums i).toInt) then do
    let want := target - num nums i
    match ← getMap mix fuel mp want with
    | some pair => return .error (pair, Int32.ofNat i)
    | none => return .ok (← setMap mix fuel mp (num nums i) (Int32.ofNat i))
  else
    none

/-- The first rounds of the loop. -/
def rounds (mp : Map) : Nat → Option (Except (Int32 × Int32) Map)
  | 0 => some (.ok mp)
  | i + 1 => do
    match ← rounds mp i with
    | .error pair => return .error pair
    | .ok mp => round mix fuel nums target mp i

/-- What `twoSum` returns, where NULL is `none`, and `*returnSize`. -/
structure Result where
  res : Option (Int32 × Int32)
  returnSize : Int32
deriving DecidableEq

/-- `twoSum`.  `res` tells whether it got memory for the result; the other memory is that of
`init_map`, whose loop has no result if `2 * numsSize` is too large. -/
def twoSum (res : Bool) (keys values : Option (Nat → Int32)) (exist : Bool) : Option Result := do
  if !res then
    return ⟨none, 0⟩
  let _ ← growCap (2 * nums.length) 31 1
  match initMap (2 * nums.length) keys values exist with
  | none => return ⟨none, 0⟩
  | some mp =>
      match ← rounds mix fuel nums target mp nums.length with
      | .error pair => return ⟨some pair, 2⟩
      | .ok _ => return ⟨none, 0⟩

end

/-! ## The numbers stored so far -/

/-- The calls of `set_map` in the first `k` rounds. -/
def sets (nums : List Int32) (k : Nat) : List Call :=
  (List.range k).map fun i => Call.set (num nums i) (Int32.ofNat i)

variable {mix : Int32 → UInt64} {mp : Map} {fuel k : Nat} {nums : List Int32} {key target : Int32}

theorem sets_succ (nums : List Int32) (k : Nat) :
    sets nums (k + 1) = sets nums k ++ [Call.set (num nums k) (Int32.ofNat k)] := by
  rw [sets, List.range_succ, List.map_append]
  rfl

theorem card_keysSet_sets (nums : List Int32) (k : Nat) : (keysSet (sets nums k)).card ≤ k := by
  refine (List.toFinset_card_le _).trans ((List.length_filterMap_le ..).trans ?_)
  rw [sets, List.length_map, List.length_range]

/-- The last place below `k` with the number `key`. -/
structure LastBelow (nums : List Int32) (k : Nat) (key : Int32) (i : Nat) : Prop where
  lt : i < k
  eq : num nums i = key
  last : ∀ j < k, num nums j = key → j ≤ i

/-- The map has the index of the last place where the number stands, if it does. -/
theorem latest_sets (nums : List Int32) (k : Nat) (key : Int32) :
    (latest key (sets nums k) = none ∧ ∀ j < k, num nums j ≠ key) ∨
      ∃ i, latest key (sets nums k) = some (Int32.ofNat i) ∧ LastBelow nums k key i := by
  induction k with
  | zero => exact .inl ⟨rfl, nofun⟩
  | succ k ih =>
      have hset := congrFun (latest_concat_set (sets nums k) (num nums k) (Int32.ofNat k)) key
      rw [← sets_succ] at hset
      by_cases heq : key = num nums k
      · subst heq
        rw [Function.update_self] at hset
        exact .inr ⟨k, hset, Nat.lt_succ_self k, rfl, fun j hj _ => Nat.le_of_lt_succ hj⟩
      · rw [Function.update_of_ne heq] at hset
        obtain ⟨hnone, hall⟩ | ⟨i, hsome, hlast⟩ := ih
        · refine .inl ⟨hset.trans hnone, fun j hj => ?_⟩
          obtain hlt | rfl := Nat.lt_succ_iff_lt_or_eq.mp hj
          · exact hall j hlt
          · exact Ne.symm heq
        · refine .inr ⟨i, hset.trans hsome, hlast.lt.trans (Nat.lt_succ_self k), hlast.eq, ?_⟩
          intro j hj hkey
          obtain hlt | rfl := Nat.lt_succ_iff_lt_or_eq.mp hj
          · exact hlast.last j hlt hkey
          · exact absurd hkey.symm heq

/-! ## The loop -/

/-- The numbers at the two indices sum to the target. -/
def Sums (nums : List Int32) (target : Int32) (i j : Nat) : Prop :=
  (num nums i).toInt + (num nums j).toInt = target.toInt

/-- `want` is what the number lacks to the target. -/
theorem eq_want_iff {i j : Nat} (hint : IsInt (target.toInt - (num nums j).toInt)) :
    num nums i = target - num nums j ↔ Sums nums target i j := by
  have hwant : (target - num nums j).toInt = target.toInt - (num nums j).toInt := by
    rw [Int32.toInt_sub, Int.bmod_eq_of_le (by have := hint.1; omega) (by have := hint.2; omega)]
  rw [← Int32.toInt_inj, hwant, Sums]
  omega

/-- The loop goes on after `k` rounds: no two of the first `k` numbers sum to the target. -/
structure Searching (mix : Int32 → UInt64) (nums : List Int32) (target : Int32) (cap : Nat)
    (k : Nat) (mp : Map) : Prop where
  cap_eq : mp.cap = cap
  refines : mp.Refines mix (latest · (sets nums k))
  noPair : ∀ j < k, ∀ i < j, ¬ Sums nums target i j

/-- The pair that the loop returns. -/
structure Chosen (nums : List Int32) (target : Int32) (i j : Nat) : Prop where
  lt : i < j
  sums : Sums nums target i j
  least : ∀ j' < j, ∀ i' < j', ¬ Sums nums target i' j'
  greatest : ∀ i' < j, num nums i' = target - num nums j → i' ≤ i

/-- A slot is empty as long as there are more slots than rounds. -/
theorem Searching.exists_empty {cap : Nat} (h : Searching mix nums target cap k mp)
    (hk : k < cap) : ∃ s < mp.cap, mp.slot s = none := by
  refine h.refines.exists_empty ?_
  rw [h.cap_eq]
  exact (card_keysSet_sets nums k).trans_lt hk

theorem Searching.round {cap : Nat} (h : Searching mix nums target cap k mp) (hk : k < cap)
    (hfuel : cap ≤ fuel) (hint : IsInt (target.toInt - (num nums k).toInt)) :
    (∃ mp', round mix fuel nums target mp k = some (.ok mp') ∧
        Searching mix nums target cap (k + 1) mp') ∨
      ∃ i, round mix fuel nums target mp k = some (.error (Int32.ofNat i, Int32.ofNat k)) ∧
        Chosen nums target i k := by
  have hempty := h.exists_empty hk
  have hget := h.refines.getMap hempty (h.cap_eq.symm ▸ hfuel) (target - num nums k)
  rw [TwoSum.round, if_pos hint]
  simp only [hget, Option.bind_eq_bind, Option.bind_some]
  obtain ⟨hnone, hall⟩ | ⟨i, hsome, hlast⟩ := latest_sets nums k (target - num nums k)
  · obtain ⟨mp', hset, hcap, href⟩ :=
      h.refines.setMap hempty (num nums k) (Int32.ofNat k)
    rw [← latest_concat_set, ← sets_succ] at href
    refine .inl ⟨mp', ?_, hcap.trans h.cap_eq, href, fun j hj i hi hsum => ?_⟩
    · rw [hnone]
      simp only [hset fuel (h.cap_eq.symm ▸ hfuel), Option.bind_some]
      rfl
    · obtain hlt | rfl := Nat.lt_succ_iff_lt_or_eq.mp hj
      · exact h.noPair j hlt i hi hsum
      · exact hall i hi ((eq_want_iff hint).mpr hsum)
  · refine .inr ⟨i, ?_, hlast.lt, (eq_want_iff hint).mp hlast.eq, h.noPair, hlast.last⟩
    rw [hsome]
    rfl

/-- What the first `k` rounds come to. -/
theorem rounds_spec {cap : Nat} (hcap : cap = mp.cap) (hmp : mp.Refines mix fun _ => none)
    (hk : k ≤ cap) (hfuel : cap ≤ fuel)
    (hint : ∀ j < k, IsInt (target.toInt - (num nums j).toInt)) :
    (∃ mp', rounds mix fuel nums target mp k = some (.ok mp') ∧
        Searching mix nums target cap k mp') ∨
      ∃ i, ∃ j < k, rounds mix fuel nums target mp k =
        some (.error (Int32.ofNat i, Int32.ofNat j)) ∧ Chosen nums target i j := by
  induction k with
  | zero => exact .inl ⟨mp, rfl, hcap.symm, hmp, nofun⟩
  | succ k ih =>
      obtain ⟨mp', heq, hsearch⟩ | ⟨i, j, hj, heq, hchosen⟩ :=
        ih (by omega) fun j hj => hint j (by omega)
      · rw [rounds, heq, Option.bind_eq_bind, Option.bind_some]
        obtain hgo | ⟨i, hret, hchosen⟩ := hsearch.round hk hfuel (hint k (Nat.lt_succ_self k))
        · exact .inl hgo
        · exact .inr ⟨i, k, Nat.lt_succ_self k, hret, hchosen⟩
      · refine .inr ⟨i, j, hj.trans (Nat.lt_succ_self k), ?_, hchosen⟩
        rw [rounds, heq, Option.bind_eq_bind, Option.bind_some]
        rfl

/-! ## `twoSum` -/

/-- The map of `twoSum` has a slot more than there are numbers. -/
theorem length_lt_cap {keys values : Option (Nat → Int32)} {exist : Bool}
    (hinit : initMap (2 * nums.length) keys values exist = some mp) : nums.length < mp.cap := by
  have hle := le_cap_of_initMap hinit
  have hpos := (initMap_shape hinit).1.pos
  omega

/-- `twoSum` returns the pair with the least second index and then the greatest first one, or
NULL if there is none, and the map always has an empty slot. -/
theorem two_sum_exact (mix : Int32 → UInt64) (nums : List Int32) (target : Int32)
    (keys values : Nat → Int32) (hn : nums.length ≤ 2 ^ 29)
    (hint : ∀ i < nums.length, IsInt (target.toInt - (num nums i).toInt)) :
    ∃ mp, initMap (2 * nums.length) (some keys) (some values) true = some mp ∧
      ∀ fuel, mp.cap ≤ fuel →
        (∃ r, twoSum mix fuel nums target true (some keys) (some values) true = some r ∧
          (r = ⟨none, 0⟩ ↔
            ¬ ∃ i < nums.length, ∃ j < nums.length, i ≠ j ∧ Sums nums target i j) ∧
          (r ≠ ⟨none, 0⟩ → ∃ i, ∃ j < nums.length,
            r = ⟨some (Int32.ofNat i, Int32.ofNat j), 2⟩ ∧ Chosen nums target i j)) ∧
        ∀ k ≤ nums.length, ∀ mp', rounds mix fuel nums target mp k = some (.ok mp') →
          ∃ s < mp'.cap, mp'.slot s = none := by
  have harg : (2 * nums.length : Int) ≤ 2 ^ 30 := by omega
  obtain ⟨mp, hinit⟩ := Option.isSome_iff_exists.mp (initMap_isSome harg keys values)
  obtain ⟨c, hgrow⟩ := Option.isSome_iff_exists.mp (growCap_isSome harg (Nat.zero_le 30) rfl)
  have hlt := length_lt_cap hinit
  refine ⟨mp, hinit, fun fuel hfuel => ⟨?_, fun k hk mp' heq => ?_⟩⟩
  · have htwo : twoSum mix fuel nums target true (some keys) (some values) true =
        (rounds mix fuel nums target mp nums.length).map fun
          | .error pair => ⟨some pair, 2⟩
          | .ok _ => ⟨none, 0⟩ := by
      have hgrow : growCap (2 * nums.length) 31 1 = some c := hgrow
      simp only [twoSum, Bool.not_true, Bool.false_eq_true, if_false, hgrow, hinit,
        Option.bind_eq_bind, Option.bind_some]
      cases rounds mix fuel nums target mp nums.length with
      | none => rfl
      | some r => cases r <;> rfl
    obtain ⟨mp', heq, hsearch⟩ | ⟨i, j, hj, heq, hchosen⟩ :=
      rounds_spec rfl (initMap_refines hinit) hlt.le hfuel hint
    · rw [htwo, heq]
      refine ⟨_, rfl, ⟨fun _ => ?_, fun _ => rfl⟩, fun hne => absurd rfl hne⟩
      rintro ⟨i, hi, j, hj, hne, hsum⟩
      rcases Nat.lt_or_gt_of_ne hne with hij | hij
      · exact hsearch.noPair j hj i hij hsum
      · exact hsearch.noPair i hi j hij ((Int.add_comm ..).trans hsum)
    · rw [htwo, heq]
      refine ⟨_, rfl, ⟨nofun, fun hno => ?_⟩, fun _ => ⟨i, j, hj, rfl, hchosen⟩⟩
      exact absurd ⟨i, hchosen.lt.trans hj, j, hj, Nat.ne_of_lt hchosen.lt, hchosen.sums⟩ hno
  · obtain ⟨mp₁, heq₁, hsearch⟩ | ⟨i, j, -, heq₁, -⟩ :=
      rounds_spec (k := k) rfl (initMap_refines hinit) (hk.trans hlt.le) hfuel
        fun j hj => hint j (hj.trans_le hk)
    · rw [heq] at heq₁
      cases heq₁
      exact hsearch.exists_empty (hk.trans_lt hlt)
    · rw [heq] at heq₁
      cases heq₁

/-- A number that stands twice before its partner: the later index is returned. -/
theorem two_sum_exact_duplicate :
    twoSum mixBits 8 [-3, 4, -3, 3] 0 true (some fun _ => 7) (some fun _ => 7) true =
        some ⟨some (2, 3), 2⟩ ∧
      ∃ i, ∃ j < 4, Chosen [-3, 4, -3, 3] 0 i j ∧ Int32.ofNat i = 2 ∧ Int32.ofNat j = 3 := by
  have hrun : twoSum mixBits 8 [-3, 4, -3, 3] 0 true (some fun _ => 7) (some fun _ => 7) true =
      some ⟨some (2, 3), 2⟩ := by decide +kernel
  obtain ⟨mp, hinit, hall⟩ := two_sum_exact mixBits [-3, 4, -3, 3] 0 (fun _ => 7) (fun _ => 7)
    (by decide) (by decide)
  have hcap : mp.cap = 8 := by
    have hmap : initMap 8 (some fun _ => 7) (some fun _ => 7) true = some _ := rfl
    rw [← Option.some.inj (hmap.symm.trans hinit)]
  obtain ⟨⟨r, hr, -, hpair⟩, -⟩ := hall 8 hcap.le
  cases hrun.symm.trans hr
  obtain ⟨i, j, hj, heq, hchosen⟩ := hpair (by decide)
  rw [Result.mk.injEq, Option.some.injEq, Prod.mk.injEq] at heq
  exact ⟨hrun, i, j, hj, hchosen, heq.1.1.symm, heq.1.2.symm⟩

end TwoSum
