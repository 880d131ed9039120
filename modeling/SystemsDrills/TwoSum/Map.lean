import SystemsDrills.Lib.Probing

/-!
# The map of two-sum

The map of `Interview/leetcode/01-two-sum.c` has a power of two of slots, in three arrays:
`keys` and `values` come from `malloc` and hold anything, `exist` comes from `calloc`.
`probe_map` goes from the slot of the hash on to the slot of the key or to an empty one, and
wraps around with the mask.

Nothing depends on how the bits are mixed, so `mix` is a variable; the code has `mixBits`.
`int` is `Int32` for keys and values and `size_t` is `UInt64`.  `probeLoop` has fuel, and `cap`
rounds are enough as long as a slot is empty.
-/

namespace TwoSum

/-! ## The code -/

structure Map where
  keys : List Int32
  values : List Int32
  cap : Nat
  exist : List Bool
  mask : UInt64

/-- What `hash_map` does before it masks.  A negative `index` is sign-extended. -/
def mixBits (index : Int32) : UInt64 :=
  let hash := index.toInt64.toUInt64
  let hash := hash * 0x9E3779B1
  hash ^^^ (hash >>> 16)

/-- The loop of `init_map`.  There is no result if `c <<= 1` leaves the range of `int`. -/
def growCap (cap : Int) : Nat → Nat → Option Nat
  | 0, _ => none
  | fuel + 1, c =>
    if (c : Int) < cap then
      if c * 2 < 2 ^ 31 then growCap cap fuel (c * 2) else none
    else
      some c

/-- `init_map`.  `keys` and `values` are what `malloc` returned, with what the memory holds, and
`exist` tells whether `calloc` found memory. -/
def initMap (cap : Int) (keys values : Option (Nat → Int32)) (exist : Bool) : Option Map := do
  let c ← growCap cap 31 1
  let keys ← keys
  let values ← values
  if exist then
    return {
      keys := (List.range c).map keys
      values := (List.range c).map values
      cap := c
      exist := List.replicate c false
      mask := UInt64.ofNat (c - 1) }
  else
    none

/-- The stores of `set_map`. -/
def Map.store (mp : Map) (index : Nat) (key value : Int32) : Map :=
  { mp with
    keys := mp.keys.set index key
    values := mp.values.set index value
    exist := mp.exist.set index true }

section

variable (mix : Int32 → UInt64)

/-- `hash_map`. -/
def hashMap (mp : Map) (index : Int32) : UInt64 := mix index &&& mp.mask

/-- The loop of `probe_map`. -/
def probeLoop (mp : Map) (key : Int32) : Nat → UInt64 → Option UInt64
  | 0, _ => none
  | fuel + 1, index =>
    if mp.exist[index.toNat]?.getD false = true ∧ mp.keys[index.toNat]?.getD 0 ≠ key then
      probeLoop mp key fuel ((index + 1) &&& mp.mask)
    else
      some index

/-- `probe_map`. -/
def probeMap (fuel : Nat) (mp : Map) (key : Int32) : Option UInt64 :=
  probeLoop mp key fuel (hashMap mix mp key)

/-- `set_map`. -/
def setMap (fuel : Nat) (mp : Map) (key value : Int32) : Option Map := do
  let index ← probeMap mix fuel mp key
  return mp.store index.toNat key value

/-- `get_map`: the value if it returns true. -/
def getMap (fuel : Nat) (mp : Map) (key : Int32) : Option (Option Int32) := do
  let index ← probeMap mix fuel mp key
  if mp.exist[index.toNat]?.getD false then
    return some (mp.values[index.toNat]?.getD 0)
  else
    return none

end

/-! ## The capacity -/

variable {mix : Int32 → UInt64} {mp : Map} {key value : Int32} {fuel : Nat}

/-- The capacity is a power of two. -/
theorem of_growCap {cap : Int} {c j c' : Nat} (hc : c = 2 ^ j) (hlt : c < 2 ^ 31)
    (h : growCap cap fuel c = some c') : (∃ k, c' = 2 ^ k) ∧ c' < 2 ^ 31 := by
  fun_induction growCap cap fuel c generalizing j with
  | case1 => cases h
  | case2 fuel c _ hsmall ih => exact ih (by rw [hc, pow_succ]) hsmall h
  | case3 => cases h
  | case4 fuel c =>
      cases h
      exact ⟨⟨j, hc⟩, hlt⟩

/-- The loop ends for every capacity that `int` has room for. -/
theorem growCap_isSome {cap : Int} (hcap : cap ≤ 2 ^ 30) {j : Nat} (hj : j ≤ 30)
    (hfuel : fuel = 31 - j) : (growCap cap fuel (2 ^ j)).isSome := by
  induction fuel generalizing j with
  | zero => omega
  | succ fuel ih =>
      rw [growCap]
      split
      · next hlt =>
          have hj' : j < 30 := by
            by_contra hge
            have : j = 30 := by omega
            subst this
            norm_num at hlt
            omega
          have hsmall : 2 ^ j * 2 < 2 ^ 31 := by
            rw [← pow_succ]
            exact Nat.pow_lt_pow_right (by norm_num) (by omega)
          rw [if_pos hsmall, ← pow_succ]
          exact ih (by omega) (by omega)
      · rfl

/-- The capacity is at least what was asked for. -/
theorem le_of_growCap {cap : Int} {c c' : Nat} (h : growCap cap fuel c = some c') :
    cap ≤ c' := by
  fun_induction growCap cap fuel c with
  | case1 => cases h
  | case2 fuel c _ hsmall ih => exact ih h
  | case3 => cases h
  | case4 fuel c hge =>
      cases h
      exact not_lt.mp hge

/-- `init_map` returns if it gets its memory. -/
theorem initMap_isSome {cap : Int} (hcap : cap ≤ 2 ^ 30) (keys values : Nat → Int32) :
    (initMap cap (some keys) (some values) true).isSome := by
  obtain ⟨c, hc⟩ := Option.isSome_iff_exists.mp (growCap_isSome hcap (Nat.zero_le 30) rfl)
  rw [initMap, show growCap cap 31 1 = some c from hc]
  rfl

/-- The arrays of a map have `cap` slots, and the mask is that of `cap`. -/
structure Map.Shape (mp : Map) : Prop where
  two_pow : ∃ k, mp.cap = 2 ^ k
  lt : mp.cap < 2 ^ 31
  mask : mp.mask = UInt64.ofNat (mp.cap - 1)
  keys : mp.keys.length = mp.cap
  values : mp.values.length = mp.cap
  exist : mp.exist.length = mp.cap

theorem initMap_shape {cap : Int} {keys values : Option (Nat → Int32)} {exist : Bool}
    (h : initMap cap keys values exist = some mp) :
    mp.Shape ∧ mp.exist = List.replicate mp.cap false := by
  obtain ⟨c, hc, h⟩ := Option.bind_eq_some_iff.mp h
  obtain ⟨ks, -, h⟩ := Option.bind_eq_some_iff.mp h
  obtain ⟨vs, -, h⟩ := Option.bind_eq_some_iff.mp h
  obtain ⟨hpow, hlt⟩ := of_growCap (j := 0) rfl (by norm_num) hc
  split at h
  · cases h
    exact ⟨⟨hpow, hlt, rfl, by simp, by simp, by simp⟩, rfl⟩
  · cases h

theorem le_cap_of_initMap {cap : Int} {keys values : Option (Nat → Int32)} {exist : Bool}
    (h : initMap cap keys values exist = some mp) : cap ≤ mp.cap := by
  obtain ⟨c, hc, h⟩ := Option.bind_eq_some_iff.mp h
  obtain ⟨ks, -, h⟩ := Option.bind_eq_some_iff.mp h
  obtain ⟨vs, -, h⟩ := Option.bind_eq_some_iff.mp h
  split at h
  · cases h
    exact le_of_growCap hc
  · cases h

theorem Map.Shape.pos (h : mp.Shape) : 0 < mp.cap := by
  obtain ⟨k, hk⟩ := h.two_pow
  rw [hk]
  exact Nat.two_pow_pos k

/-- The mask takes an index modulo the capacity. -/
theorem Map.Shape.toNat_and (h : mp.Shape) (x : UInt64) :
    (x &&& mp.mask).toNat = x.toNat % mp.cap := by
  obtain ⟨k, hk⟩ := h.two_pow
  have hlt := h.lt
  rw [h.mask, UInt64.toNat_and, UInt64.toNat_ofNat_of_lt' (by simp only [UInt64.size]; omega), hk,
    Nat.and_two_pow_sub_one_eq_mod]

/-! ## The slots -/

/-- What is in a slot. -/
def Map.slot (mp : Map) (i : Nat) : Option (Int32 × Int32) :=
  if mp.exist[i]?.getD false then some (mp.keys[i]?.getD 0, mp.values[i]?.getD 0) else none

/-- The slot of the hash. -/
def Map.home (mix : Int32 → UInt64) (mp : Map) (key : Int32) : Nat := (hashMap mix mp key).toNat

open Probing

/-- `probe_map` searches the slots of the arrays. -/
theorem Map.Shape.probeLoop_eq (h : mp.Shape) (key : Int32) {index : UInt64}
    (hindex : index.toNat < mp.cap) :
    probeLoop mp key fuel index = (probe mp.cap mp.slot key fuel index.toNat).map UInt64.ofNat := by
  induction fuel generalizing index with
  | zero => rfl
  | succ fuel ih =>
      have hlt := h.lt
      have hnext : ((index + 1) &&& mp.mask).toNat = (index.toNat + 1) % mp.cap := by
        rw [h.toNat_and, UInt64.toNat_add, UInt64.toNat_one,
          Nat.mod_eq_of_lt (b := 2 ^ 64) (by omega)]
      rw [probeLoop, probe, Map.slot]
      by_cases hexist : mp.exist[index.toNat]?.getD false = true
      · by_cases hkey : mp.keys[index.toNat]?.getD 0 = key
        · simp [hexist, hkey]
        · rw [if_pos ⟨hexist, hkey⟩, if_pos hexist]
          show _ = (if _ then _ else _ : Option Nat).map _
          rw [if_neg hkey, ih (by rw [hnext]; exact Nat.mod_lt _ h.pos), hnext]
      · simp [hexist]

/-- The stores to the three arrays are one to a slot. -/
theorem Map.Shape.slot_store (h : mp.Shape) {i : Nat} (hi : i < mp.cap) (key value : Int32) :
    (mp.store i key value).slot = Function.update mp.slot i (some (key, value)) := by
  funext j
  rw [Map.slot, Map.store]
  by_cases heq : j = i
  · subst heq
    rw [Function.update_self]
    simp [h.keys, h.values, h.exist, hi]
  · rw [Function.update_of_ne heq, Map.slot]
    simp [List.getElem?_set_ne (Ne.symm heq)]

/-! ## The map that the arrays stand for -/

/-- The map is sound and has the entries of `m`. -/
structure Map.Refines (mix : Int32 → UInt64) (mp : Map) (m : Int32 → Option Int32) : Prop
    extends mp.Shape where
  sound : Sound mp.cap (mp.home mix) mp.slot
  represents : Represents mp.cap mp.slot m

variable {m : Int32 → Option Int32}

/-- A map is empty after `init_map`. -/
theorem initMap_refines {cap : Int} {keys values : Option (Nat → Int32)} {exist : Bool}
    (h : initMap cap keys values exist = some mp) : mp.Refines mix fun _ => none := by
  obtain ⟨hshape, hexist⟩ := initMap_shape h
  have hslot : ∀ i, mp.slot i = none := by
    intro i
    rw [Map.slot, hexist, List.getElem?_replicate]
    split <;> simp
  refine ⟨hshape, ⟨?_, ?_⟩, ?_⟩
  · intro i _ j _ k v w hentry
    simp [hslot] at hentry
  · intro i _ k v hentry
    simp [hslot] at hentry
  · intro k v
    simp [hslot]

/-- `probe_map` returns the slot of the key or an empty one, after at most `cap` rounds. -/
theorem Map.Refines.probeMap (h : mp.Refines mix m) (hempty : ∃ i < mp.cap, mp.slot i = none)
    (key : Int32) :
    ∃ index : UInt64, Finds mp.cap (mp.home mix) mp.slot key index.toNat ∧
      ∀ fuel, mp.cap ≤ fuel → probeMap mix fuel mp key = some index := by
  obtain ⟨i, hfinds, hprobe⟩ := h.sound.finds hempty key
  have hi : (UInt64.ofNat i).toNat = i := UInt64.toNat_ofNat_of_lt' (by
    have := hfinds.lt
    have := h.lt
    simp only [UInt64.size]
    omega)
  have hhome : (hashMap mix mp key).toNat < mp.cap := by
    rw [hashMap, h.toNat_and]
    exact Nat.mod_lt _ h.pos
  have hwalk : walk mp.cap (mp.home mix) key 0 = (hashMap mix mp key).toNat := by
    rw [walk, Nat.add_zero, Map.home, Nat.mod_eq_of_lt hhome]
  refine ⟨UInt64.ofNat i, hi.symm ▸ hfinds, fun fuel hfuel => ?_⟩
  rw [TwoSum.probeMap, h.probeLoop_eq key hhome, ← hwalk, hprobe fuel hfuel, Option.map_some]

theorem Map.Refines.getMap (h : mp.Refines mix m) (hempty : ∃ i < mp.cap, mp.slot i = none)
    (hfuel : mp.cap ≤ fuel) (key : Int32) : getMap mix fuel mp key = some (m key) := by
  obtain ⟨index, hfinds, hprobe⟩ := h.probeMap hempty key
  rw [TwoSum.getMap, hprobe fuel hfuel, ← hfinds.represents h.represents, Map.slot,
    Option.bind_eq_bind, Option.bind_some]
  split <;> rfl

theorem Map.Refines.setMap (h : mp.Refines mix m) (hempty : ∃ i < mp.cap, mp.slot i = none)
    (key value : Int32) :
    ∃ mp', (∀ fuel, mp.cap ≤ fuel → setMap mix fuel mp key value = some mp') ∧ mp'.cap = mp.cap ∧
      mp'.Refines mix (Function.update m key (some value)) := by
  obtain ⟨index, hfinds, hprobe⟩ := h.probeMap hempty key
  have hslot := h.slot_store hfinds.lt key value
  refine ⟨mp.store index.toNat key value, ?_, rfl,
    ⟨h.two_pow, h.lt, h.mask, ?_, ?_, ?_⟩, ?_, ?_⟩
  · intro fuel hfuel
    rw [TwoSum.setMap, hprobe fuel hfuel]
    rfl
  · exact (List.length_set ..).trans h.keys
  · exact (List.length_set ..).trans h.values
  · exact (List.length_set ..).trans h.exist
  · rw [hslot]
    exact h.sound.store hfinds value
  · rw [hslot]
    exact h.represents.store h.sound hfinds value

/-! ## Calls in any order -/

/-- A call of `set_map` or of `get_map`. -/
inductive Call where
  | set (key value : Int32)
  | get (key : Int32)
deriving DecidableEq, Repr

/-- The map after a call.  There is none if the call does not return. -/
def Call.exec (mix : Int32 → UInt64) (fuel : Nat) (mp : Map) : Call → Option Map
  | .set key value => setMap mix fuel mp key value
  | .get key => (getMap mix fuel mp key).map fun _ => mp

/-- The map after some calls. -/
def run (mix : Int32 → UInt64) (fuel : Nat) (mp : Map) (calls : List Call) : Option Map :=
  calls.foldlM (Call.exec mix fuel) mp

/-- The value of the latest `set_map` of a key. -/
def latest (key : Int32) (calls : List Call) : Option Int32 :=
  calls.reverse.findSome? fun
    | .set k v => if k = key then some v else none
    | .get _ => none

/-- The keys that were set. -/
def keysSet (calls : List Call) : Finset Int32 :=
  (calls.filterMap fun
    | .set k _ => some k
    | .get _ => none).toFinset

/-- Before each call fewer than `cap` keys were set. -/
def Few (cap : Nat) (calls : List Call) : Prop :=
  ∀ n < calls.length, (keysSet (calls.take n)).card < cap

instance (cap : Nat) (calls : List Call) : Decidable (Few cap calls) :=
  inferInstanceAs (Decidable (∀ n < _, _))

variable {cap : Nat} {calls : List Call} {c : Call}

theorem Few.of_concat (h : Few cap (calls ++ [c])) :
    Few cap calls ∧ (keysSet calls).card < cap := by
  constructor
  · intro n hn
    have := h n (by simp; omega)
    rwa [List.take_append_of_le_length hn.le] at this
  · have := h calls.length (by simp)
    rwa [List.take_left] at this

theorem latest_concat_set (calls : List Call) (key value : Int32) :
    (latest · (calls ++ [Call.set key value])) = Function.update (latest · calls) key (some value) := by
  funext k
  rw [latest, List.reverse_append, List.reverse_singleton, List.singleton_append,
    List.findSome?_cons]
  by_cases heq : key = k
  · subst heq
    simp
  · rw [Function.update_of_ne (Ne.symm heq)]
    simp only [if_neg heq]
    rfl

theorem latest_concat_get (calls : List Call) (key : Int32) :
    (latest · (calls ++ [.get key])) = (latest · calls) := by
  funext k
  rw [latest, List.reverse_append, List.reverse_singleton, List.singleton_append,
    List.findSome?_cons]
  rfl

/-- A key with a value was set. -/
theorem mem_keysSet {key value : Int32} (h : latest key calls = some value) :
    key ∈ keysSet calls := by
  obtain ⟨c, hc, heq⟩ := List.exists_of_findSome?_eq_some h
  rw [keysSet, List.mem_toFinset, List.mem_filterMap]
  refine ⟨c, List.mem_reverse.mp hc, ?_⟩
  cases c with
  | set k v =>
      by_cases hk : k = key
      · rw [hk]
      · simp [hk] at heq
  | get k => cases heq

/-- There is an empty slot as long as fewer keys were set than there are slots. -/
theorem Map.Refines.exists_empty (h : mp.Refines mix (latest · calls))
    (hcard : (keysSet calls).card < mp.cap) : ∃ i < mp.cap, mp.slot i = none := by
  refine h.sound.exists_empty (fun i hi key value hentry => ?_) hcard
  exact mem_keysSet ((h.represents key value).mpr ⟨i, hi, hentry⟩)

/-- A sequence of calls returns, and its sets are the entries of the map. -/
theorem Map.Refines.run (h : mp.Refines mix fun _ => none) (hfew : Few mp.cap calls) :
    ∃ mp', (∀ fuel, mp.cap ≤ fuel → run mix fuel mp calls = some mp') ∧ mp'.cap = mp.cap ∧
      mp'.Refines mix (latest · calls) := by
  induction calls using List.reverseRecOn with
  | nil => exact ⟨mp, fun _ _ => rfl, rfl, h⟩
  | append_singleton calls c ih =>
      obtain ⟨hfew, hcard⟩ := hfew.of_concat
      obtain ⟨mp₁, hrun, hcap, hr⟩ := ih hfew
      have hempty := hr.exists_empty (hcap.symm ▸ hcard)
      have hlast : ∀ fuel, mp.cap ≤ fuel →
          TwoSum.run mix fuel mp (calls ++ [c]) = c.exec mix fuel mp₁ := by
        intro fuel hfuel
        rw [TwoSum.run, List.foldlM_append, ← TwoSum.run, hrun fuel hfuel]
        simp only [Option.bind_eq_bind, Option.bind_some, List.foldlM_cons, List.foldlM_nil,
          bind_pure]
      cases c with
      | set key value =>
          obtain ⟨mp₂, hset, hcap₂, hr₂⟩ := hr.setMap hempty key value
          refine ⟨mp₂, fun fuel hfuel => ?_, hcap₂.trans hcap, ?_⟩
          · exact (hlast fuel hfuel).trans (hset fuel (hcap.symm ▸ hfuel))
          · rw [latest_concat_set]
            exact hr₂
      | get key =>
          refine ⟨mp₁, fun fuel hfuel => ?_, hcap, ?_⟩
          · rw [hlast fuel hfuel, Call.exec, hr.getMap hempty (hcap.symm ▸ hfuel), Option.map_some]
          · rw [latest_concat_get]
            exact hr

/-- The map refines a finite map, whatever the hash.  As long as fewer keys were set than there
are slots, all calls return, `get_map` returns the value of the latest `set_map` of the key,
and a `set_map` of another key does not change it. -/
theorem map_refines (mix : Int32 → UInt64) {arg : Int} {keys values : Option (Nat → Int32)}
    {exist : Bool} (hinit : initMap arg keys values exist = some mp) (calls : List Call)
    (hfew : Few mp.cap calls) :
    ∃ mp', (∀ fuel, mp.cap ≤ fuel → run mix fuel mp calls = some mp') ∧
      Sound mp.cap (mp'.home mix) mp'.slot ∧
      ((keysSet calls).card < mp.cap → ∀ fuel, mp.cap ≤ fuel →
        (∀ key, getMap mix fuel mp' key = some (latest key calls)) ∧
        ∀ key value, ∃ mp'', setMap mix fuel mp' key value = some mp'' ∧
          ((keysSet (calls ++ [Call.set key value])).card < mp.cap → ∀ key' ≠ key,
            getMap mix fuel mp'' key' = getMap mix fuel mp' key')) := by
  obtain ⟨mp', hrun, hcap, hr⟩ := (initMap_refines hinit).run hfew
  refine ⟨mp', hrun, hcap ▸ hr.sound, fun hcard fuel hfuel => ?_⟩
  rw [← hcap] at hcard hfuel
  have hempty := hr.exists_empty hcard
  refine ⟨fun key => hr.getMap hempty hfuel key, fun key value => ?_⟩
  obtain ⟨mp'', hset, hcap', hr'⟩ := hr.setMap hempty key value
  refine ⟨mp'', hset fuel hfuel, fun hcard' key' hne => ?_⟩
  rw [← latest_concat_set] at hr'
  have hempty' := hr'.exists_empty (by rw [hcap', hcap]; exact hcard')
  have hsame : latest key' (calls ++ [Call.set key value]) = latest key' calls :=
    (congrFun (latest_concat_set calls key value) key').trans (Function.update_of_ne hne ..)
  rw [hr'.getMap hempty' (hcap' ▸ hfuel), hr.getMap hempty hfuel, hsame]

/-- Three keys in four slots, one of them negative and one set twice. -/
theorem map_refines_three :
    ∃ mp, initMap 4 (some fun _ => 7) (some fun _ => 7) true = some mp ∧
      ∃ mp', run mixBits 4 mp [.set (-3) 0, .set 4 1, .get 9, .set (-3) 2, .set 3 3] = some mp' ∧
        getMap mixBits 4 mp' (-3) = some (some 2) ∧ getMap mixBits 4 mp' 90 = some none := by
  have hinit : initMap 4 (some fun _ => 7) (some fun _ => 7) true = some _ := rfl
  obtain ⟨mp', hrun, -, hget⟩ := map_refines mixBits hinit
    [.set (-3) 0, .set 4 1, .get 9, .set (-3) 2, .set 3 3] (by decide)
  have hget := (hget (by decide) 4 le_rfl).1
  exact ⟨_, hinit, mp', hrun 4 le_rfl, hget (-3), hget 90⟩

end TwoSum
