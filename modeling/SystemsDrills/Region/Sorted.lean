import SystemsDrills.Region.MemoryMap

/-!
# The sorted copy-on-write region table

`lookup` and the sequential core of `region_add` of `Interview/mock1_rcu.c`.
A table is never changed once it is published: `region_add` allocates a block
with one more slot, copies the regions below the insertion point, the new
region and the regions above it, and the new table replaces the old one.

The stages of the construction are separate definitions (`copyLow`,
`putRegion`, `copyHigh`, `setN`), because the concurrent model runs them as
separate steps.  `malloc` returns a block of the size asked for with arbitrary
contents, or nothing.

The invariant is `RegionTable.Wf`.  Under it the neighbour test, the copy
around the insertion point and the binary search are exact, and `region_add`
keeps it.
-/

namespace GuestMemory.Sorted

open Spans Search

/-- `enum add_result`. -/
inductive AddResult where
  | addOk
  | addBadSize
  | addWraps
  | addOverlap
  | addFull
  | addNomem
deriving DecidableEq, Repr

/-- `struct region_table`.  The list holds the slots of the block, which a
finished table uses up: `n` is then its length. -/
structure RegionTable where
  n : Nat
  r : List Region
deriving DecidableEq, Repr, Inhabited

def RegionTable.empty : RegionTable := ⟨0, []⟩

def RegionTable.get (t : RegionTable) (i : Nat) : Region := t.r[i]?.getD default

/-! ## `lookup` -/

/-- The comparison of the binary search at slot `mid`. -/
def startsAtOrBelow (t : RegionTable) (gpa : UInt64) (mid : Nat) : Bool :=
  (t.get mid).gpaStart ≤ gpa

/-- What `lookup` does with the number of regions that start at or below
`gpa`: the answer, and what `*hva` holds afterwards. -/
def lookupAt (t : RegionTable) (gpa hva : UInt64) (lo : Nat) : Bool × UInt64 :=
  if lo = 0 then (false, hva)
  else
    let r := t.get (lo - 1)
    if gpa - r.gpaStart ≥ r.size then (false, hva)
    else (true, r.hva + (gpa - r.gpaStart))

def lookup (t : RegionTable) (gpa hva : UInt64) : Bool × UInt64 :=
  lookupAt t gpa hva (bisect (startsAtOrBelow t gpa) 0 t.n)

/-! ## `region_add` -/

/-- The argument checks made before the lock is taken. -/
def checkArgs (rgn : Region) : Option AddResult :=
  if rgn.size = 0 then some .addBadSize
  else if (18446744073709551615 : UInt64) - rgn.size < rgn.gpaStart ||
      (18446744073709551615 : UInt64) - rgn.size < rgn.hva then some .addWraps
  else none

/-- The insertion point: the first region starting at or after the new one. -/
def insertPos (old : RegionTable) (rgn : Region) : Nat :=
  advance (fun pos => (old.get pos).gpaStart < rgn.gpaStart) old.n 0

/-- The tests made on the old table: an error, or the insertion point. -/
def findPos (old : RegionTable) (rgn : Region) : Except AddResult Nat :=
  if old.n = maxRegions then .error .addFull
  else
    let pos := insertPos old rgn
    if 0 < pos && (old.get (pos - 1)).gpaStart + (old.get (pos - 1)).size > rgn.gpaStart then
      .error .addOverlap
    else if pos < old.n && (old.get pos).gpaStart < rgn.gpaStart + rgn.size then
      .error .addOverlap
    else .ok pos

/-- `memcpy` of `count` regions from slot `s` of `src` to slot `d` of `dst`. -/
def memcpy (dst : List Region) (d : Nat) (src : List Region) (s count : Nat) : List Region :=
  dst.take d ++ (src.drop s).take count ++ dst.drop (d + count)

def copyLow (new old : RegionTable) (pos : Nat) : RegionTable :=
  { new with r := memcpy new.r 0 old.r 0 pos }

def putRegion (new : RegionTable) (rgn : Region) (pos : Nat) : RegionTable :=
  { new with r := new.r.set pos rgn }

def copyHigh (new old : RegionTable) (pos : Nat) : RegionTable :=
  { new with r := memcpy new.r (pos + 1) old.r pos (old.n - pos) }

def setN (new old : RegionTable) : RegionTable := { new with n := old.n + 1 }

/-- The new table, built in the block `new`. -/
def build (new old : RegionTable) (rgn : Region) (pos : Nat) : RegionTable :=
  setN (copyHigh (putRegion (copyLow new old pos) rgn pos) old pos) old

/-- An allocator: a block with `k` slots of arbitrary contents, or `NULL`. -/
structure Malloc where
  block : Nat → Option RegionTable
  slots : ∀ {k new}, block k = some new → new.r.length = k

/-- The result and the current table afterwards. -/
def regionAdd (malloc : Malloc) (old : RegionTable) (rgn : Region) : AddResult × RegionTable :=
  match checkArgs rgn with
  | some res => (res, old)
  | none =>
    match findPos old rgn with
    | .error res => (res, old)
    | .ok pos =>
      match malloc.block (old.n + 1) with
      | none => (.addNomem, old)
      | some new => (.addOk, build new old rgn pos)

/-! ## The invariant -/

/-- The block is used up, the regions are valid, and each ends before the next
one starts. -/
structure RegionTable.Wf (t : RegionTable) : Prop where
  n_eq : t.n = t.r.length
  le : t.n ≤ maxRegions
  valid : ∀ r ∈ t.r, r.Valid
  chain : Chain Region.lo Region.hi t.r

theorem RegionTable.Wf.empty : RegionTable.empty.Wf :=
  ⟨rfl, Nat.zero_le _, by simp [RegionTable.empty], .nil⟩

variable {t old new : RegionTable} {rgn : Region} {pos : Nat}

theorem RegionTable.get_eq {i : Nat} (h : i < t.r.length) : t.get i = t.r[i] := by
  rw [get, List.getElem?_eq_getElem h, Option.getD_some]

theorem RegionTable.get_eq_of_getElem? {i : Nat} {r : Region} (h : t.r[i]? = some r) :
    t.get i = r := by
  rw [get, h, Option.getD_some]

/-- The walk of `region_add` ends at the cut between the regions that start
below the new one and the others. -/
theorem insertPos_isCut (h : old.Wf) (rgn : Region) :
    IsCut (fun a => decide (a.lo < rgn.lo)) old.r (insertPos old rgn) := by
  obtain ⟨k, hk⟩ := h.chain.exists_cut_lt rgn.lo
  have : insertPos old rgn = k := by
    rw [insertPos, h.n_eq]
    refine hk.advance_eq fun i hi => ?_
    rw [RegionTable.get_eq hi]
    exact decide_eq_decide.mpr UInt64.lt_iff_toNat_lt
  rwa [this]

/-- The binary search of `lookup` ends at the cut between the regions that
start at or below `gpa` and the others. -/
theorem bisect_isCut (h : t.Wf) (gpa : UInt64) :
    IsCut (fun a => decide (a.lo ≤ gpa.toNat)) t.r (bisect (startsAtOrBelow t gpa) 0 t.n) := by
  obtain ⟨k, hk⟩ := h.chain.exists_cut_le gpa.toNat
  have : bisect (startsAtOrBelow t gpa) 0 t.n = k := by
    rw [h.n_eq]
    refine hk.bisect_eq fun i hi => ?_
    rw [startsAtOrBelow, RegionTable.get_eq hi]
    exact decide_eq_decide.mpr UInt64.le_iff_toNat_le
  rwa [this]

/-! ## The tests of `region_add` are exact -/

theorem checkArgs_eq_none_iff : checkArgs rgn = none ↔ rgn.Valid := by
  simp only [checkArgs, Bool.or_eq_true, decide_eq_true_eq, Region.wraps_iff]
  constructor
  · intro h
    split_ifs at h with hz hw
    rw [not_or] at hw
    exact Region.valid_of_checks hz hw.1 hw.2
  · intro h
    have := h.gpa_fits
    have := h.hva_fits
    rw [if_neg h.size_ne, if_neg (by omega)]

/-- The two neighbour tests find an overlap exactly if some region of the table
overlaps the new one. -/
theorem neighbours_iff (h : old.Wf) (hv : rgn.Valid) :
    ((0 < insertPos old rgn ∧
        (old.get (insertPos old rgn - 1)).gpaStart + (old.get (insertPos old rgn - 1)).size >
          rgn.gpaStart) ∨
      (insertPos old rgn < old.n ∧
        (old.get (insertPos old rgn)).gpaStart < rgn.gpaStart + rgn.size)) ↔
    ∃ a ∈ old.r, Meets Region.lo Region.hi a rgn := by
  have hk := insertPos_isCut h rgn
  rw [h.chain.meets_iff hv.lo_lt_hi hk]
  refine or_congr ?_ ?_
  · refine and_congr_right fun hpos => ?_
    have hlt : insertPos old rgn - 1 < old.r.length := by have := hk.le; omega
    rw [RegionTable.get_eq hlt, List.getElem?_eq_getElem hlt, gt_iff_lt, UInt64.lt_iff_toNat_lt,
      (h.valid _ (List.getElem_mem hlt)).toNat_end]
    simp [Region.lo]
  · rw [h.n_eq]
    constructor
    · rintro ⟨hlt, hb⟩
      rw [RegionTable.get_eq hlt, UInt64.lt_iff_toNat_lt, hv.toNat_end] at hb
      exact ⟨_, List.getElem?_eq_getElem hlt, hb⟩
    · rintro ⟨b, hb, hlt⟩
      rw [RegionTable.get_eq_of_getElem? hb, UInt64.lt_iff_toNat_lt, hv.toNat_end]
      exact ⟨(List.getElem?_eq_some_iff.mp hb).1, hlt⟩

theorem findPos_of_full (h : old.n = maxRegions) : findPos old rgn = .error .addFull := by
  rw [findPos, if_pos h]

theorem findPos_of_meets (h : old.Wf) (hv : rgn.Valid) (hn : old.n ≠ maxRegions) {a : Region}
    (ha : a ∈ old.r) (hm : Meets Region.lo Region.hi a rgn) :
    findPos old rgn = .error .addOverlap := by
  have key := (neighbours_iff h hv).mpr ⟨a, ha, hm⟩
  rw [findPos, if_neg hn]
  simp only [Bool.and_eq_true, decide_eq_true_eq]
  split_ifs with h1 h2
  · rfl
  · rfl
  · exact absurd key (by tauto)

theorem findPos_of_free (h : old.Wf) (hv : rgn.Valid) (hn : old.n ≠ maxRegions)
    (hno : ∀ a ∈ old.r, ¬ Meets Region.lo Region.hi a rgn) :
    findPos old rgn = .ok (insertPos old rgn) := by
  have key := (neighbours_iff h hv).not.mpr (by simpa using hno)
  rw [findPos, if_neg hn]
  simp only [Bool.and_eq_true, decide_eq_true_eq]
  split_ifs with h1 h2
  · exact absurd (.inl h1) key
  · exact absurd (.inr h2) key
  · rfl

/-- The tests pass exactly if there is room and nothing overlaps. -/
theorem findPos_eq_ok_iff (h : old.Wf) (hv : rgn.Valid) :
    findPos old rgn = .ok pos ↔
      old.n ≠ maxRegions ∧ (∀ a ∈ old.r, ¬ Meets Region.lo Region.hi a rgn) ∧
        pos = insertPos old rgn := by
  by_cases hn : old.n = maxRegions
  · rw [findPos_of_full hn]
    exact ⟨nofun, fun hok => absurd hn hok.1⟩
  by_cases hno : ∀ a ∈ old.r, ¬ Meets Region.lo Region.hi a rgn
  · rw [findPos_of_free h hv hn hno, Except.ok.injEq]
    exact ⟨fun he => ⟨hn, hno, he.symm⟩, fun hok => hok.2.2.symm⟩
  · refine ⟨fun hok => ?_, fun hok => absurd hok.2.1 hno⟩
    push Not at hno
    obtain ⟨a, ha, hm⟩ := hno
    rw [findPos_of_meets h hv hn ha hm] at hok
    cases hok

theorem findPos_empty (rgn : Region) : findPos .empty rgn = .ok 0 := by
  have hpos : insertPos .empty rgn = 0 := by
    rw [insertPos, advance, if_neg fun h => Nat.not_lt_zero _ h.1]
  rw [findPos, if_neg (by decide), hpos]
  rfl

/-! ## The copy around the insertion point -/

theorem build_r (hn : old.n = old.r.length) (hlen : new.r.length = old.n + 1)
    (hpos : pos ≤ old.n) :
    (build new old rgn pos).r = old.r.take pos ++ rgn :: old.r.drop pos := by
  have htake : (old.r.take pos).length = pos := by simp; omega
  have hput : (putRegion (copyLow new old pos) rgn pos).r =
      old.r.take pos ++ rgn :: new.r.drop (pos + 1) := by
    have hdrop : new.r.drop pos = new.r[pos] :: new.r.drop (pos + 1) :=
      List.drop_eq_getElem_cons (by omega)
    simp only [putRegion, copyLow, memcpy, List.take_zero, List.nil_append, List.drop_zero,
      Nat.zero_add]
    rw [List.set_append_right _ _ (by omega), htake, Nat.sub_self, hdrop, List.set_cons_zero]
  have hall : (old.r.drop pos).take (old.n - pos) = old.r.drop pos :=
    List.take_of_length_le (by simp; omega)
  show memcpy (putRegion (copyLow new old pos) rgn pos).r (pos + 1) old.r pos (old.n - pos) = _
  rw [memcpy, hput, hall]
  have h1 : (old.r.take pos ++ rgn :: new.r.drop (pos + 1)).take (pos + 1) =
      old.r.take pos ++ [rgn] := by
    rw [List.take_append, htake]
    simp
  have h2 : (old.r.take pos ++ rgn :: new.r.drop (pos + 1)).drop (pos + 1 + (old.n - pos)) = [] :=
    List.drop_eq_nil_of_le (by simp; omega)
  rw [h1, h2]
  simp

theorem build_n : (build new old rgn pos).n = old.n + 1 := rfl

/-- Building the table with a region that meets none of the old ones keeps the
invariant. -/
theorem build_wf (h : old.Wf) (hv : rgn.Valid) (hn : old.n ≠ maxRegions)
    (hno : ∀ a ∈ old.r, ¬ Meets Region.lo Region.hi a rgn)
    (hlen : new.r.length = old.n + 1) : (build new old rgn (insertPos old rgn)).Wf := by
  have hk := insertPos_isCut h rgn
  have hpos : insertPos old rgn ≤ old.n := h.n_eq ▸ hk.le
  have hr : (build new old rgn (insertPos old rgn)).r = _ := build_r h.n_eq hlen hpos
  refine ⟨?_, ?_, ?_, ?_⟩
  · rw [build_n, hr, h.n_eq]
    have := hk.le
    simp
    omega
  · rw [build_n]
    have := h.le
    omega
  · intro a ha
    rw [hr, List.mem_append, List.mem_cons] at ha
    rcases ha with ha | rfl | ha
    · exact h.valid a (List.mem_of_mem_take ha)
    · exact hv
    · exact h.valid a (List.mem_of_mem_drop ha)
  · rw [hr]
    exact h.chain.insert hv.lo_lt_hi hk hno

/-- The new table has the old regions and the new one. -/
theorem build_perm (h : old.Wf) (rgn : Region) (hlen : new.r.length = old.n + 1) :
    (build new old rgn (insertPos old rgn)).r.Perm (rgn :: old.r) := by
  rw [build_r h.n_eq hlen (h.n_eq ▸ (insertPos_isCut h rgn).le)]
  refine List.perm_middle.trans (List.Perm.cons _ ?_)
  rw [List.take_append_drop]

/-! ## `lookup` is exact -/

theorem lookup_of_mem (h : t.Wf) {a : Region} {gpa hva : UInt64} (ha : a ∈ t.r)
    (hg : gpa.toNat ∈ a.range) : lookup t gpa hva = (true, a.translate gpa) := by
  have hk := bisect_isCut h gpa
  obtain ⟨hpos, hz, hhi⟩ := (h.chain.contains_iff hk).mp ⟨ha, hg⟩
  have hle : a.gpaStart ≤ gpa := UInt64.le_iff_toNat_le.mpr hg.1
  have hlt : gpa - a.gpaStart < a.size := (Region.sub_lt_size_iff hle).mpr hhi
  simp only [lookup, lookupAt, RegionTable.get_eq_of_getElem? hz, Nat.pos_iff_ne_zero.mp hpos,
    if_false, ge_iff_le, UInt64.not_le.mpr hlt, Region.translate]

theorem lookup_of_forall (h : t.Wf) {gpa hva : UInt64} (hno : ∀ a ∈ t.r, gpa.toNat ∉ a.range) :
    lookup t gpa hva = (false, hva) := by
  have hk := bisect_isCut h gpa
  simp only [lookup, lookupAt]
  split_ifs with h0 hge
  · rfl
  · rfl
  · -- The last region that starts at or below `gpa` would contain it.
    have hlt : bisect (startsAtOrBelow t gpa) 0 t.n - 1 < t.r.length := by have := hk.le; omega
    rw [RegionTable.get_eq hlt] at hge
    have hlo := (hk.iff _ hlt).mpr (by omega)
    have hle : t.r[bisect (startsAtOrBelow t gpa) 0 t.n - 1].gpaStart ≤ gpa :=
      UInt64.le_iff_toNat_le.mpr (of_decide_eq_true hlo)
    exact absurd ⟨UInt64.le_iff_toNat_le.mp hle, (Region.sub_lt_size_iff hle).mp (UInt64.not_le.mp hge)⟩
      (hno _ (List.getElem_mem hlt))

/-! ## `region_add` keeps the invariant -/

/-- A call that does not return `ADD_OK` leaves the table as it was. -/
theorem regionAdd_of_ne_ok {malloc : Malloc} (h : (regionAdd malloc old rgn).1 ≠ .addOk) :
    (regionAdd malloc old rgn).2 = old := by
  unfold regionAdd at h ⊢
  split at h
  · rfl
  · split at h
    · rfl
    · split at h
      · rfl
      · exact absurd rfl h

/-- The call never runs out of memory. -/
def Malloc.Succeeds (malloc : Malloc) : Prop := ∀ k, (malloc.block k).isSome

/-- An allocator that never fails and clears its blocks. -/
def Malloc.zeroed : Malloc where
  block k := some ⟨0, List.replicate k ⟨0, 0, 0⟩⟩
  slots h := by cases h; simp

theorem Malloc.zeroed_succeeds : Malloc.zeroed.Succeeds := fun _ => rfl

theorem regionAdd_of_full {malloc : Malloc} (hv : rgn.Valid) (hn : old.n = maxRegions) :
    regionAdd malloc old rgn = (.addFull, old) := by
  rw [regionAdd, checkArgs_eq_none_iff.mpr hv, findPos_of_full hn]

theorem regionAdd_of_meets {malloc : Malloc} (h : old.Wf) (hv : rgn.Valid)
    (hn : old.n ≠ maxRegions) {a : Region} (ha : a ∈ old.r)
    (hm : Meets Region.lo Region.hi a rgn) :
    regionAdd malloc old rgn = (.addOverlap, old) := by
  rw [regionAdd, checkArgs_eq_none_iff.mpr hv, findPos_of_meets h hv hn ha hm]

theorem regionAdd_of_free {malloc : Malloc} (h : old.Wf) (hv : rgn.Valid)
    (hn : old.n ≠ maxRegions) (hno : ∀ a ∈ old.r, ¬ Meets Region.lo Region.hi a rgn) :
    regionAdd malloc old rgn =
      match malloc.block (old.n + 1) with
      | none => (.addNomem, old)
      | some new => (.addOk, build new old rgn (insertPos old rgn)) := by
  rw [regionAdd, checkArgs_eq_none_iff.mpr hv, findPos_of_free h hv hn hno]

theorem regionAdd_wf {malloc : Malloc} (h : old.Wf) : (regionAdd malloc old rgn).2.Wf := by
  by_cases hok : (regionAdd malloc old rgn).1 = .addOk
  swap
  · rwa [regionAdd_of_ne_ok hok]
  by_cases hv : rgn.Valid
  swap
  · obtain ⟨res, hres⟩ := Option.ne_none_iff_exists'.mp (checkArgs_eq_none_iff.not.mpr hv)
    rw [regionAdd, hres]
    exact h
  by_cases hn : old.n = maxRegions
  · rwa [regionAdd_of_full hv hn]
  by_cases hno : ∀ a ∈ old.r, ¬ Meets Region.lo Region.hi a rgn
  · rw [regionAdd_of_free h hv hn hno]
    split
    · exact h
    · next new hnew => exact build_wf h hv hn hno (malloc.slots hnew)
  · push Not at hno
    obtain ⟨a, ha, hm⟩ := hno
    rwa [regionAdd_of_meets h hv hn ha hm]

/-- The table after a sequence of calls, each with an allocator of its own. -/
def regionAdds (t : RegionTable) : List (Malloc × Region) → RegionTable
  | [] => t
  | (malloc, rgn) :: calls => regionAdds (regionAdd malloc t rgn).2 calls

theorem regionAdds_wf (h : t.Wf) (calls : List (Malloc × Region)) : (regionAdds t calls).Wf := by
  induction calls generalizing t with
  | nil => exact h
  | cons c calls ih => exact ih (regionAdd_wf h)

/-- The region table of `mock1_rcu.c` after any sequence of `region_add` calls
from the empty table.  It is strictly sorted, its ranges are non-empty, within
64 bits and pairwise disjoint, and it has at most `MAX_REGIONS` regions.  A
valid region is refused as an overlap exactly if it intersects some registered
region, and is otherwise added.  A call that is not `ADD_OK` changes nothing.
`lookup` hits exactly in the range of a registered region, which is unique,
with the exact host address. -/
theorem region_table_invariant (calls : List (Malloc × Region)) :
    let t := regionAdds .empty calls
    (t.n = t.r.length ∧ t.n ≤ maxRegions) ∧
    t.r.Pairwise (fun a b => a.gpaStart < b.gpaStart) ∧
    (∀ a ∈ t.r, a.range.Nonempty ∧ a.hi < 2 ^ 64) ∧
    t.r.Pairwise (fun a b => ¬ (a.range ∩ b.range).Nonempty) ∧
    (∀ (malloc : Malloc) (rgn : Region), 0 < rgn.size →
      rgn.gpaStart.toNat + rgn.size.toNat < 2 ^ 64 → rgn.hva.toNat + rgn.size.toNat < 2 ^ 64 →
      t.n < maxRegions →
      ((regionAdd malloc t rgn).1 = .addOverlap ↔
        ∃ a ∈ t.r, (a.range ∩ rgn.range).Nonempty) ∧
      ((¬ ∃ a ∈ t.r, (a.range ∩ rgn.range).Nonempty) → malloc.Succeeds →
        (regionAdd malloc t rgn).1 = .addOk ∧
        (regionAdd malloc t rgn).2.r.Perm (rgn :: t.r))) ∧
    (∀ (malloc : Malloc) (rgn : Region), (regionAdd malloc t rgn).1 ≠ .addOk →
      (regionAdd malloc t rgn).2 = t) ∧
    (∀ gpa hva v : UInt64, lookup t gpa hva = (true, v) ↔
      ∃ a ∈ t.r, gpa.toNat ∈ a.range ∧
        v.toNat = a.hva.toNat + (gpa.toNat - a.gpaStart.toNat)) ∧
    (∀ gpa : UInt64, ∀ a ∈ t.r, ∀ b ∈ t.r, gpa.toNat ∈ a.range → gpa.toNat ∈ b.range →
      a = b) := by
  intro t
  have h : t.Wf := regionAdds_wf .empty calls
  refine ⟨⟨h.n_eq, h.le⟩, ?_, ?_, ?_, ?_, fun _ _ => regionAdd_of_ne_ok, ?_, ?_⟩
  · exact h.chain.sorted.imp UInt64.lt_iff_toNat_lt.mpr
  · intro a ha
    have hv := h.valid a ha
    exact ⟨Set.nonempty_Ico.mpr hv.lo_lt_hi, hv.gpa_fits⟩
  · refine h.chain.apart.imp fun hab => ?_
    rintro ⟨x, ha, hb⟩
    exact absurd (ha.2.trans_le (hab.trans hb.1)) (lt_irrefl x)
  · intro malloc rgn hs hg hh hn
    have hv : rgn.Valid := ⟨by simpa [UInt64.lt_iff_toNat_lt] using hs, hg, hh⟩
    have hmeets : ∀ a ∈ t.r, (a.range ∩ rgn.range).Nonempty ↔ Meets Region.lo Region.hi a rgn :=
      fun a ha => Region.inter_nonempty_iff (h.valid a ha).lo_lt_hi hv.lo_lt_hi
    by_cases hno : ∀ a ∈ t.r, ¬ Meets Region.lo Region.hi a rgn
    · have hfree : ¬ ∃ a ∈ t.r, (a.range ∩ rgn.range).Nonempty := by
        rintro ⟨a, ha, hi⟩
        exact hno a ha ((hmeets a ha).mp hi)
      rw [regionAdd_of_free h hv hn.ne hno]
      refine ⟨⟨fun hov => ?_, fun hex => absurd hex hfree⟩, fun _ hm => ?_⟩
      · split at hov <;> cases hov
      · obtain ⟨new, hnew⟩ := Option.isSome_iff_exists.mp (hm (t.n + 1))
        rw [hnew]
        exact ⟨rfl, build_perm h rgn (malloc.slots hnew)⟩
    · push Not at hno
      obtain ⟨a, ha, hm⟩ := hno
      rw [regionAdd_of_meets h hv hn.ne ha hm]
      have hex : ∃ a ∈ t.r, (a.range ∩ rgn.range).Nonempty := ⟨a, ha, (hmeets a ha).mpr hm⟩
      exact ⟨⟨fun _ => hex, fun _ => rfl⟩, fun hfree => absurd hex hfree⟩
  · intro gpa hva v
    constructor
    · intro hl
      by_cases hex : ∃ a ∈ t.r, gpa.toNat ∈ a.range
      · obtain ⟨a, ha, hg⟩ := hex
        rw [lookup_of_mem h ha hg] at hl
        obtain rfl := (Prod.ext_iff.mp hl).2
        exact ⟨a, ha, hg, (h.valid a ha).toNat_translate hg⟩
      · rw [lookup_of_forall h fun a ha hg => hex ⟨a, ha, hg⟩] at hl
        cases (Prod.ext_iff.mp hl).1
    · rintro ⟨a, ha, hg, hv⟩
      rw [lookup_of_mem h ha hg]
      rw [← (h.valid a ha).toNat_translate hg] at hv
      rw [UInt64.toNat_inj.mp hv]
  · intro gpa a ha b hb hga hgb
    exact h.chain.eq_of_contains ha hb hga hgb

/-! ## Refinement -/

/-- `ADD_NOMEM` says nothing about the map. -/
def AddResult.outcome : AddResult → Option Outcome
  | .addOk => some .added
  | .addBadSize => some .badSize
  | .addWraps => some .wraps
  | .addOverlap => some .overlap
  | .addFull => some .full
  | .addNomem => none

/-- The table stores the map. -/
structure RegionTable.Represents (t : RegionTable) (m : MemoryMap) : Prop where
  wf : t.Wf
  listed : m.ListedBy t.r

theorem empty_represents : RegionTable.empty.Represents .empty :=
  ⟨.empty, MemoryMap.listedBy_empty⟩

variable {m : MemoryMap}

theorem RegionTable.Represents.n_eq (h : t.Represents m) : t.n = m.regions.card := by
  rw [h.wf.n_eq, h.listed.length_eq]

/-- The table built with a region that meets none of the old ones stores the map
with that region added. -/
theorem build_represents (h : t.Represents m) (hv : rgn.Valid) (hn : t.n ≠ maxRegions)
    (hno : ∀ a ∈ t.r, ¬ Meets Region.lo Region.hi a rgn) (hlen : new.r.length = t.n + 1) :
    (m.add rgn).1 = .added ∧ (build new t rgn (insertPos t rgn)).Represents (m.add rgn).2 := by
  have hno' : ∀ a ∈ m.regions, ¬ Meets Region.lo Region.hi a rgn :=
    fun a ha => hno a ((h.listed.mem_iff a).mpr ha)
  have hwf := build_wf h.wf hv hn hno hlen
  have hperm := build_perm h.wf rgn hlen
  rw [MemoryMap.add_of_free hv (h.n_eq ▸ hn) hno']
  refine ⟨rfl, hwf, ?_, fun a => ?_⟩
  · exact hwf.chain.sorted.imp fun hab => by rintro rfl; exact lt_irrefl _ hab
  · rw [hperm.mem_iff, List.mem_cons, h.listed.mem_iff]
    exact Finset.mem_insert.symm

/-- `region_add` of `mock1_rcu.c` adds to the map. -/
theorem regionAdd_refines {malloc : Malloc} (hm : malloc.Succeeds) (h : t.Represents m)
    (r : Region) :
    (regionAdd malloc t r).1.outcome = some (m.add r).1 ∧
      (regionAdd malloc t r).2.Represents (m.add r).2 := by
  by_cases hz : r.size = 0
  · rw [MemoryMap.add_of_size_eq_zero hz, regionAdd, checkArgs, if_pos hz]
    exact ⟨rfl, h⟩
  by_cases hv : r.Valid
  swap
  · have hc : checkArgs r = some .addWraps := by
      have hne := checkArgs_eq_none_iff.not.mpr hv
      rw [checkArgs, if_neg hz] at hne ⊢
      split_ifs at hne ⊢
      · rfl
      · exact absurd rfl hne
    rw [MemoryMap.add_of_not_valid hz hv, regionAdd, hc]
    exact ⟨rfl, h⟩
  by_cases hn : t.n = maxRegions
  · rw [MemoryMap.add_of_full hv (h.n_eq ▸ hn), regionAdd_of_full hv hn]
    exact ⟨rfl, h⟩
  have hcard : m.regions.card ≠ maxRegions := h.n_eq ▸ hn
  by_cases hno : ∀ a ∈ t.r, ¬ Meets Region.lo Region.hi a r
  · obtain ⟨new, hnew⟩ := Option.isSome_iff_exists.mp (hm (t.n + 1))
    rw [regionAdd_of_free h.wf hv hn hno, hnew]
    obtain ⟨hadd, hrep⟩ := build_represents h hv hn hno (malloc.slots hnew)
    exact ⟨congrArg some hadd.symm, hrep⟩
  · push Not at hno
    obtain ⟨a, ha, hma⟩ := hno
    rw [MemoryMap.add_of_meets hv hcard ((h.listed.mem_iff a).mp ha) hma,
      regionAdd_of_meets h.wf hv hn ha hma]
    exact ⟨rfl, h⟩

/-- `lookup` translates through the map, and leaves `*hva` alone on a miss. -/
theorem lookup_refines (h : t.Represents m) (gpa hva : UInt64) :
    lookup t gpa hva =
      match m.translate gpa with
      | some v => (true, v)
      | none => (false, hva) := by
  by_cases hex : ∃ r ∈ m.regions, gpa.toNat ∈ r.range
  · obtain ⟨r, hr, hg⟩ := hex
    rw [m.translate_of_mem hr hg, lookup_of_mem h.wf ((h.listed.mem_iff r).mpr hr) hg]
  · have hno : ∀ r ∈ m.regions, gpa.toNat ∉ r.range := fun r hr hg => hex ⟨r, hr, hg⟩
    rw [m.translate_of_forall hno,
      lookup_of_forall h.wf fun r hr => hno r ((h.listed.mem_iff r).mp hr)]

end GuestMemory.Sorted
