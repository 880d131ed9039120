import SystemsDrills.Region.Agreement

/-!
# The order of registration

Regions that may be registered together are all accepted, whatever the order in which they come.
The map they form does not depend on the order.  Neither does the sorted table of `mock1_rcu.c`,
since a map is stored in it in one way only.  The linear table of `mock1.c` keeps the regions as
they come, but translates through the map.
-/

namespace GuestMemory

open Spans

/-- Valid regions with no address in common, and not too many of them. -/
structure Registrable (l : List Region) : Prop where
  valid : ∀ r ∈ l, r.Valid
  apart : l.Pairwise fun a b => ¬ (a.range ∩ b.range).Nonempty
  length_le : l.length ≤ maxRegions

theorem Registrable.perm {l l' : List Region} (h : Registrable l) (hp : l'.Perm l) :
    Registrable l' where
  valid r hr := h.valid r (hp.mem_iff.mp hr)
  apart := hp.symm.pairwise h.apart fun hab => by rwa [Set.inter_comm]
  length_le := hp.length_eq.trans_le h.length_le

/-! ## The map -/

namespace MemoryMap

/-- The regions of the list still have a place in the map. -/
structure Takes (m : MemoryMap) (l : List Region) : Prop where
  valid : ∀ r ∈ l, r.Valid
  free : ∀ a ∈ m.regions, ∀ r ∈ l, ¬ Meets Region.lo Region.hi a r
  apart : l.Pairwise fun a b => ¬ Meets Region.lo Region.hi a b
  room : m.regions.card + l.length ≤ maxRegions

theorem empty_takes {l : List Region} (h : Registrable l) : empty.Takes l where
  valid := h.valid
  free := by simp [empty]
  apart := h.apart.imp_of_mem fun ha hb hab =>
    (Region.inter_nonempty_iff (h.valid _ ha).lo_lt_hi (h.valid _ hb).lo_lt_hi).not.mp hab
  room := by simpa [empty] using h.length_le

/-- Adding regions one after the other. -/
noncomputable def addAll (m : MemoryMap) (l : List Region) : MemoryMap :=
  l.foldl (fun m r => (m.add r).2) m

variable {m : MemoryMap} {r : Region} {l : List Region}

/-- The first region is added, and the others keep their place. -/
theorem Takes.add (h : m.Takes (r :: l)) :
    (m.add r).1 = .added ∧ (m.add r).2.regions = insert r m.regions ∧ (m.add r).2.Takes l := by
  have hv := h.valid r List.mem_cons_self
  have hroom := h.room
  rw [List.length_cons] at hroom
  have hno : ∀ a ∈ m.regions, ¬ Meets Region.lo Region.hi a r :=
    fun a ha => h.free a ha r List.mem_cons_self
  have hadd := add_of_free hv (by omega : m.regions.card ≠ maxRegions) hno
  obtain ⟨hhead, htail⟩ := List.pairwise_cons.mp h.apart
  rw [hadd]
  refine ⟨rfl, rfl, ?_⟩
  refine ⟨fun a ha => h.valid a (List.mem_cons_of_mem r ha), ?_, htail, ?_⟩
  · intro a ha b hb
    rcases Finset.mem_insert.mp ha with rfl | ha
    · exact hhead b hb
    · exact h.free a ha b (List.mem_cons_of_mem r hb)
  · have hle : (insert r m.regions).card ≤ m.regions.card + 1 := Finset.card_insert_le _ _
    show (insert r m.regions).card + l.length ≤ maxRegions
    omega

/-- All of them are then in the map, and nothing else is new. -/
theorem Takes.mem_addAll (h : m.Takes l) {a : Region} :
    a ∈ (m.addAll l).regions ↔ a ∈ m.regions ∨ a ∈ l := by
  induction l generalizing m with
  | nil => simp [addAll]
  | cons r l ih =>
      obtain ⟨-, hregions, hrest⟩ := h.add
      have key : a ∈ ((m.add r).2.addAll l).regions ↔ a ∈ (m.add r).2.regions ∨ a ∈ l := ih hrest
      rw [hregions, Finset.mem_insert] at key
      rw [List.mem_cons]
      exact key.trans (by tauto)

/-- The map of the regions does not depend on their order. -/
theorem addAll_perm {l' : List Region} (h : Registrable l) (hp : l'.Perm l) :
    empty.addAll l' = empty.addAll l := by
  ext a
  rw [(empty_takes (h.perm hp)).mem_addAll, (empty_takes h).mem_addAll, hp.mem_iff]

end MemoryMap

/-! ## The tables -/

/-- A call that adds to the map returns `REGISTER_SUCCESS`. -/
theorem Linear.RegisterCodes.eq_of_added {c : Linear.RegisterCodes} (h : c.outcome = .added) :
    c = .registerSuccess := by
  cases c <;> cases h
  rfl

theorem Sorted.AddResult.eq_of_added {a : Sorted.AddResult} (h : a.outcome = some .added) :
    a = .addOk := by
  cases a <;> cases h
  rfl

/-- `mock1.c` takes every region, and stores the map. -/
theorem Linear.run_takes {tbl : Linear.RegionTable} {m : MemoryMap} {l : List Region}
    (htbl : tbl.Represents m) (h : m.Takes l) :
    (Linear.run tbl l).1 = List.replicate l.length .registerSuccess ∧
      (Linear.run tbl l).2.Represents (m.addAll l) := by
  induction l generalizing tbl m with
  | nil => exact ⟨rfl, htbl⟩
  | cons r l ih =>
      obtain ⟨hcode, htbl'⟩ := Linear.regionAdd_refines htbl r
      obtain ⟨hadded, -, hrest⟩ := h.add
      obtain ⟨hcodes, hfinal⟩ := ih htbl' hrest
      refine ⟨?_, hfinal⟩
      rw [List.length_cons, List.replicate_succ, ← hcodes,
        ← RegisterCodes.eq_of_added (hcode.trans hadded)]
      rfl

/-- `mock1_rcu.c` takes every region, and stores the map. -/
theorem Sorted.run_takes {t : Sorted.RegionTable} {m : MemoryMap}
    {calls : List (Sorted.Malloc × Region)} (hm : ∀ c ∈ calls, c.1.Succeeds)
    (ht : t.Represents m) (h : m.Takes (calls.map Prod.snd)) :
    (Sorted.run t calls).1 = List.replicate calls.length .addOk ∧
      (Sorted.run t calls).2.Represents (m.addAll (calls.map Prod.snd)) := by
  induction calls generalizing t m with
  | nil => exact ⟨rfl, ht⟩
  | cons c calls ih =>
      obtain ⟨hres, ht'⟩ := Sorted.regionAdd_refines (hm c List.mem_cons_self) ht c.2
      obtain ⟨hadded, -, hrest⟩ := MemoryMap.Takes.add h
      obtain ⟨hall, hfinal⟩ := ih (fun d hd => hm d (List.mem_cons_of_mem c hd)) ht' hrest
      refine ⟨?_, hfinal⟩
      rw [List.length_cons, List.replicate_succ, ← hall,
        ← AddResult.eq_of_added (hres.trans (congrArg some hadded))]
      rfl

/-- A map is stored in one way only. -/
theorem Sorted.RegionTable.Represents.unique {t t' : Sorted.RegionTable} {m : MemoryMap}
    (h : t.Represents m) (h' : t'.Represents m) : t = t' := by
  have hp : t.r.Perm t'.r := by
    refine (List.perm_ext_iff_of_nodup h.listed.nodup h'.listed.nodup).mpr fun a => ?_
    rw [h.listed.mem_iff, h'.listed.mem_iff]
  have hr : t.r = t'.r :=
    hp.eq_of_pairwise (fun a b _ _ hab hba => absurd hab (not_lt.mpr hba.le))
      h.wf.chain.sorted h'.wf.chain.sorted
  have hn : t.n = t'.n := by rw [h.n_eq, h'.n_eq]
  cases t
  cases t'
  cases hr
  cases hn
  rfl

/-- Two orders of the same regions, valid, disjoint and not too many.  Every call succeeds in both,
with both tables.  The sorted tables are then the same, and the linear ones give the same answer for
every address.  Each call of `mock1_rcu.c` has an allocator of its own, which does not fail. -/
theorem registration_order_irrelevant {l : List Region} (h : Registrable l)
    (calls calls' : List (Sorted.Malloc × Region))
    (hp : (calls.map Prod.snd).Perm l) (hp' : (calls'.map Prod.snd).Perm l)
    (hm : ∀ c ∈ calls, c.1.Succeeds) (hm' : ∀ c ∈ calls', c.1.Succeeds) :
    ((Sorted.run .empty calls).1 = List.replicate l.length .addOk ∧
      (Sorted.run .empty calls').1 = List.replicate l.length .addOk ∧
      (Sorted.run .empty calls).2 = (Sorted.run .empty calls').2) ∧
    (Linear.run .zero (calls.map Prod.snd)).1 = List.replicate l.length .registerSuccess ∧
      (Linear.run .zero (calls'.map Prod.snd)).1 = List.replicate l.length .registerSuccess ∧
      ∀ gpa hva : UInt64,
        Linear.translate (Linear.run .zero (calls.map Prod.snd)).2 gpa hva =
          Linear.translate (Linear.run .zero (calls'.map Prod.snd)).2 gpa hva := by
  have htakes := MemoryMap.empty_takes (h.perm hp)
  have htakes' := MemoryMap.empty_takes (h.perm hp')
  have hmap : MemoryMap.empty.addAll (calls'.map Prod.snd) =
      MemoryMap.empty.addAll (calls.map Prod.snd) :=
    (MemoryMap.addAll_perm h hp').trans (MemoryMap.addAll_perm h hp).symm
  have hlen : calls.length = l.length := by rw [← hp.length_eq, List.length_map]
  have hlen' : calls'.length = l.length := by rw [← hp'.length_eq, List.length_map]
  obtain ⟨hres, hfin⟩ := Sorted.run_takes hm Sorted.empty_represents htakes
  obtain ⟨hres', hfin'⟩ := Sorted.run_takes hm' Sorted.empty_represents htakes'
  obtain ⟨hcodes, htbl⟩ := Linear.run_takes Linear.zero_represents htakes
  obtain ⟨hcodes', htbl'⟩ := Linear.run_takes Linear.zero_represents htakes'
  rw [hlen] at hres
  rw [hlen'] at hres'
  rw [hp.length_eq] at hcodes
  rw [hp'.length_eq] at hcodes'
  rw [hmap] at hfin' htbl'
  refine ⟨⟨hres, hres', hfin.unique hfin'⟩, hcodes, hcodes', fun gpa hva => ?_⟩
  rw [Linear.translate_refines htbl, Linear.translate_refines htbl']

/-- The first two regions of `main` in `mock1_rcu.c`, the second of which starts where the first ends,
in both orders. -/
theorem registration_order_irrelevant_two :
    Registrable [⟨0, 0x100000, 0x7f0000000000⟩, ⟨0x100000, 0x100000, 0x7f0000100000⟩] ∧
    (Sorted.run .empty [(.zeroed, ⟨0, 0x100000, 0x7f0000000000⟩),
      (.zeroed, ⟨0x100000, 0x100000, 0x7f0000100000⟩)]).2 =
    (Sorted.run .empty [(.zeroed, ⟨0x100000, 0x100000, 0x7f0000100000⟩),
      (.zeroed, ⟨0, 0x100000, 0x7f0000000000⟩)]).2 := by
  have hreg : Registrable [⟨0, 0x100000, 0x7f0000000000⟩, ⟨0x100000, 0x100000, 0x7f0000100000⟩] := by
    refine ⟨fun r hr => ?_, ?_, by decide⟩
    · rcases List.mem_pair.mp hr with rfl | rfl
      · exact ⟨by decide, by decide, by decide⟩
      · exact ⟨by decide, by decide, by decide⟩
    · refine List.pairwise_pair.mpr ?_
      rintro ⟨x, hx, hx'⟩
      exact absurd hx.2 (not_lt.mpr hx'.1)
  have key := registration_order_irrelevant hreg
    [(.zeroed, ⟨0, 0x100000, 0x7f0000000000⟩),
      (.zeroed, ⟨0x100000, 0x100000, 0x7f0000100000⟩)]
    [(.zeroed, ⟨0x100000, 0x100000, 0x7f0000100000⟩),
      (.zeroed, ⟨0, 0x100000, 0x7f0000000000⟩)]
    (.refl _) (.swap _ _ _) (by simp [Sorted.Malloc.zeroed_succeeds])
    (by simp [Sorted.Malloc.zeroed_succeeds])
  exact ⟨hreg, key.1.2.2⟩

end GuestMemory
