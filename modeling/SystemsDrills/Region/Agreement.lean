import SystemsDrills.Region.Linear
import SystemsDrills.Region.Sorted

/-!
# The two region tables agree

Run from their empty tables on the same regions, the linear table of
`mock1.c` and the sorted table of `mock1_rcu.c` give corresponding results at
each step, and translate every address alike afterwards.  Each refines
`MemoryMap`, so the two are compared through the map they both store.
-/

namespace GuestMemory

/-- The result codes of the two files that mean the same. -/
inductive Corresponds : Linear.RegisterCodes → Sorted.AddResult → Prop where
  | success : Corresponds .registerSuccess .addOk
  | badSize : Corresponds .sizeZero .addBadSize
  | wraps : Corresponds .addressOverflow .addWraps
  | overlap : Corresponds .regionOverlap .addOverlap
  | full : Corresponds .regionsFull .addFull

theorem corresponds_of_outcome {c : Linear.RegisterCodes} {a : Sorted.AddResult}
    (h : a.outcome = some c.outcome) : Corresponds c a := by
  cases c <;> cases a <;> simp [Linear.RegisterCodes.outcome, Sorted.AddResult.outcome] at h
  · exact .success
  · exact .overlap
  · exact .badSize
  · exact .wraps
  · exact .full

/-- The results of a sequence of calls and the table they leave, in `mock1.c`. -/
def Linear.run (tbl : Linear.RegionTable) :
    List Region → List Linear.RegisterCodes × Linear.RegionTable
  | [] => ([], tbl)
  | r :: rs =>
      let (c, tbl') := Linear.regionAdd tbl r
      let (cs, tbl'') := Linear.run tbl' rs
      (c :: cs, tbl'')

/-- The results of a sequence of calls, each with an allocator of its own, and
the table they leave, in `mock1_rcu.c`. -/
def Sorted.run (t : Sorted.RegionTable) :
    List (Sorted.Malloc × Region) → List Sorted.AddResult × Sorted.RegionTable
  | [] => ([], t)
  | (malloc, r) :: calls =>
      let (a, t') := Sorted.regionAdd malloc t r
      let (as, t'') := Sorted.run t' calls
      (a :: as, t'')

/-- Tables that store one map stay so, with corresponding results. -/
theorem run_agree :
    ∀ (calls : List (Sorted.Malloc × Region)), (∀ c ∈ calls, c.1.Succeeds) →
      ∀ {tbl : Linear.RegionTable} {t : Sorted.RegionTable} {m : MemoryMap},
      tbl.Represents m → t.Represents m →
      List.Forall₂ Corresponds (Linear.run tbl (calls.map Prod.snd)).1 (Sorted.run t calls).1 ∧
        ∃ m', (Linear.run tbl (calls.map Prod.snd)).2.Represents m' ∧
          (Sorted.run t calls).2.Represents m'
  | [], _, _, _, m, htbl, ht => ⟨.nil, m, htbl, ht⟩
  | (malloc, r) :: calls, hm, _, _, _, htbl, ht => by
      obtain ⟨hc, htbl'⟩ := Linear.regionAdd_refines htbl r
      obtain ⟨ha, ht'⟩ := Sorted.regionAdd_refines (hm _ List.mem_cons_self) ht r
      obtain ⟨hres, hmap⟩ :=
        run_agree calls (fun c hc => hm c (List.mem_cons_of_mem _ hc)) htbl' ht'
      exact ⟨.cons (corresponds_of_outcome (ha.trans (congrArg some hc.symm))) hres, hmap⟩

/-- From the empty tables, with `malloc` that succeeds, the two `region_add`
return corresponding codes on every sequence of regions, and afterwards the
linear `translate` and the binary-search `lookup` agree on every address: on
the answer and on what `*hva` holds, which is its old value on a miss. -/
theorem tables_agree (calls : List (Sorted.Malloc × Region)) (hm : ∀ c ∈ calls, c.1.Succeeds) :
    List.Forall₂ Corresponds (Linear.run .zero (calls.map Prod.snd)).1
      (Sorted.run .empty calls).1 ∧
    ∀ gpa hva : UInt64,
      Linear.translate (Linear.run .zero (calls.map Prod.snd)).2 gpa hva =
        Sorted.lookup (Sorted.run .empty calls).2 gpa hva ∧
      ((Linear.translate (Linear.run .zero (calls.map Prod.snd)).2 gpa hva).1 = false →
        (Linear.translate (Linear.run .zero (calls.map Prod.snd)).2 gpa hva).2 = hva) ∧
      ((Sorted.lookup (Sorted.run .empty calls).2 gpa hva).1 = false →
        (Sorted.lookup (Sorted.run .empty calls).2 gpa hva).2 = hva) := by
  obtain ⟨hres, m, htbl, ht⟩ :=
    run_agree calls hm Linear.zero_represents Sorted.empty_represents
  refine ⟨hres, fun gpa hva => ?_⟩
  rw [Linear.translate_refines htbl, Sorted.lookup_refines ht]
  cases m.translate gpa with
  | none => exact ⟨rfl, fun _ => rfl, fun _ => rfl⟩
  | some v => exact ⟨rfl, by simp, by simp⟩

/-- The first two calls of `main` in `mock1.c`: a region, and one that overlaps
it. -/
theorem tables_agree_overlap :
    (∀ c ∈ [(Sorted.Malloc.zeroed, (⟨0x1000, 0x1000, 0x7f0000000000⟩ : Region)),
        (Sorted.Malloc.zeroed, ⟨0x1800, 0x1000, 0x7f0000100000⟩)], c.1.Succeeds) ∧
    List.Forall₂ Corresponds
      (Linear.run .zero [⟨0x1000, 0x1000, 0x7f0000000000⟩, ⟨0x1800, 0x1000, 0x7f0000100000⟩]).1
      (Sorted.run .empty [(.zeroed, ⟨0x1000, 0x1000, 0x7f0000000000⟩),
        (.zeroed, ⟨0x1800, 0x1000, 0x7f0000100000⟩)]).1 := by
  have hm : ∀ c ∈ [(Sorted.Malloc.zeroed, (⟨0x1000, 0x1000, 0x7f0000000000⟩ : Region)),
      (Sorted.Malloc.zeroed, ⟨0x1800, 0x1000, 0x7f0000100000⟩)], c.1.Succeeds := by
    simp [Sorted.Malloc.zeroed_succeeds]
  exact ⟨hm, (tables_agree _ hm).1⟩

end GuestMemory
