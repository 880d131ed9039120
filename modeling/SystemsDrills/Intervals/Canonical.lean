import SystemsDrills.Lib.Cover
import SystemsDrills.Intervals.Merge

/-!
# What `merge` returns

The intervals that `merge` leaves in its block are the hulls of the classes of intervals that
hang together, in order.  This is the cover of `Lib.Cover`, which there is only one of, so the
result depends on the set of the intervals alone and merging it again changes nothing.
-/

namespace Intervals

open Sweep

/-- The intervals in the block that `merge` returns. -/
def merged (qsort : (Interval → Interval → Int) → List Interval → List Interval)
    (malloc : Nat → Option (List Interval)) (iv : List Interval) : List Interval :=
  ((merge qsort malloc iv).1.getD []).take ((merge qsort malloc iv).2.getD 0)

/-- The ends of the intervals. -/
def pairs (iv : List Interval) : List (Int × Int) := iv.map Interval.pair

variable {qsort : (Interval → Interval → Int) → List Interval → List Interval}
  {malloc : Nat → Option (List Interval)} {iv iv' : List Interval}

theorem pair_injective : Function.Injective Interval.pair := by
  rintro ⟨_, _⟩ ⟨_, _⟩ h
  cases h
  rfl

theorem proper_pairs (hproper : ∀ x ∈ iv, x.start ≤ x.end_) : Proper (pairs iv) := by
  intro x hx
  obtain ⟨y, hy, rfl⟩ := List.mem_map.mp hx
  exact hproper y hy

/-- What is known of `qsort` and of `malloc`, which finds memory. -/
structure Library (qsort : (Interval → Interval → Int) → List Interval → List Interval)
    (malloc : Nat → Option (List Interval)) : Prop where
  perm : ∀ l, (qsort cmp l).Perm l
  sorted : ∀ l, (qsort cmp l).Pairwise fun x y => cmp x y ≤ 0
  malloc : ∀ n, ∃ block, malloc n = some block ∧ block.length = n

/-- `merge` is a sweep over what `qsort` leaves, and `*out_n` is the number of intervals. -/
theorem pairs_merged (hlib : Library qsort malloc) (iv : List Interval) :
    pairs (merged qsort malloc iv) = sweep (pairs (qsort cmp iv)) ∧
      (merge qsort malloc iv).2 = some (merged qsort malloc iv).length := by
  have hq := (hlib.perm iv).length_eq
  rcases eq_or_ne iv [] with rfl | hne
  · rw [List.length_eq_zero_iff.mp hq]
    exact ⟨rfl, rfl⟩
  obtain ⟨block, hblock, hlen⟩ := hlib.malloc iv.length
  cases hsort : qsort cmp iv with
  | nil =>
      rw [hsort] at hq
      exact absurd (List.length_eq_zero_iff.mp hq.symm) hne
  | cons x rest =>
      rw [hsort, List.length_cons] at hq
      obtain ⟨head, out_n, hmerge, hle, htake⟩ := merge_eq hsort hblock (by omega) hne
      rw [merged, hmerge]
      refine ⟨htake, ?_⟩
      rw [Option.getD_some, Option.getD_some, List.length_take_of_le hle]

theorem merged_cover (hlib : Library qsort malloc) (hproper : ∀ x ∈ iv, x.start ≤ x.end_) :
    Cover (pairs iv) (pairs (merged qsort malloc iv)) := by
  have hmem : ∀ x, x ∈ pairs (qsort cmp iv) ↔ x ∈ pairs iv := fun x =>
    ((hlib.perm iv).map Interval.pair).mem_iff
  have hsorted : (pairs (qsort cmp iv)).Pairwise fun x y => x.1 ≤ y.1 :=
    List.pairwise_map.mpr ((hlib.sorted iv).imp fun h => cmp_le_zero.mp h)
  have hqproper : Proper (pairs (qsort cmp iv)) := fun x hx =>
    proper_pairs hproper x ((hmem x).mp hx)
  rw [(pairs_merged hlib iv).1]
  exact (sweep_cover hqproper hsorted).congr hmem

/-- An interval is in a list if its ends are in the list of the ends. -/
theorem pair_mem_pairs {x : Interval} : x.pair ∈ pairs iv ↔ x ∈ iv :=
  List.mem_map_of_injective pair_injective

theorem exists_mem_pairs {P : Int × Int → Prop} :
    (∃ x ∈ pairs iv, P x) ↔ ∃ x ∈ iv, P x.pair := by
  simp [pairs]

/-- The same cover for the same set. -/
theorem merged_eq (hlib : Library qsort malloc) (hproper : ∀ x ∈ iv, x.start ≤ x.end_)
    {out : List Interval} (hcover : Cover (pairs iv) (pairs out)) :
    merged qsort malloc iv = out :=
  List.map_injective_iff.mpr pair_injective
    ((merged_cover hlib hproper).unique hcover (proper_pairs hproper))

/-- `merge` returns the canonical cover: the hulls of the classes of intervals that hang together,
each before the next.  It depends on the set of the intervals alone, has the same points, and is
merged to itself. -/
theorem merge_canonical (hlib : Library qsort malloc) (hproper : ∀ x ∈ iv, x.start ≤ x.end_) :
    (merge qsort malloc iv).2 = some (merged qsort malloc iv).length ∧
      (merged qsort malloc iv).Pairwise (fun x y => x.end_ < y.start) ∧
      (∀ g, g ∈ merged qsort malloc iv ↔ ∃ x ∈ iv, Hull (pairs iv) x.pair g.pair) ∧
      (∀ iv', (∀ x, x ∈ iv' ↔ x ∈ iv) → merged qsort malloc iv' = merged qsort malloc iv) ∧
      (∀ p, (∃ g ∈ merged qsort malloc iv, Has g.pair p) ↔ ∃ x ∈ iv, Has x.pair p) ∧
      merged qsort malloc (merged qsort malloc iv) = merged qsort malloc iv := by
  have hcover := merged_cover hlib hproper
  refine ⟨(pairs_merged hlib iv).2, List.pairwise_map.mp hcover.apart, fun g => ?_,
    fun iv' hset => ?_, fun p => ?_, ?_⟩
  · rw [← pair_mem_pairs, hcover.mem_iff, exists_mem_pairs]
  · refine merged_eq hlib (fun x hx => hproper x ((hset x).mp hx)) (hcover.congr fun x => ?_)
    simp only [pairs, List.mem_map, hset]
  · have hhas := hcover.has_iff p
    rwa [exists_mem_pairs, exists_mem_pairs] at hhas
  · refine merged_eq hlib (fun x hx => ?_) (hcover.self (proper_pairs hproper))
    exact hcover.proper (proper_pairs hproper) x.pair (pair_mem_pairs.mpr hx)

/-- Nested, touching and equal intervals. -/
theorem merge_canonical_chain :
    let qsort := fun (cmp : Interval → Interval → Int) (l : List Interval) =>
      l.mergeSort fun x y => decide (cmp x y ≤ 0)
    let malloc := fun n => some (List.replicate n (⟨0, 0⟩ : Interval))
    (merged qsort malloc [⟨4, 5⟩, ⟨1, 4⟩, ⟨2, 3⟩, ⟨7, 7⟩, ⟨1, 4⟩]).Pairwise
        (fun x y => x.end_ < y.start) ∧
      merged qsort malloc [⟨4, 5⟩, ⟨1, 4⟩, ⟨2, 3⟩, ⟨7, 7⟩, ⟨1, 4⟩] =
        merged qsort malloc [⟨7, 7⟩, ⟨2, 3⟩, ⟨1, 4⟩, ⟨4, 5⟩] := by
  intro qsort malloc
  have hle : ∀ x y : Interval, decide (cmp x y ≤ 0) = true ↔ x.start ≤ y.start := by
    intro x y
    rw [decide_eq_true_iff, cmp_le_zero]
  have hsorted : ∀ l, (qsort cmp l).Pairwise fun x y => cmp x y ≤ 0 := by
    intro l
    refine (List.pairwise_mergeSort ?_ ?_ l).imp fun h => of_decide_eq_true h
    · intro x y z hxy hyz
      rw [hle] at *
      omega
    · intro x y
      rw [Bool.or_eq_true, hle, hle]
      omega
  have hlib : Library qsort malloc := ⟨fun l => List.mergeSort_perm l _, hsorted,
    fun n => ⟨_, rfl, List.length_replicate⟩⟩
  have hproper : ∀ x ∈ ([⟨7, 7⟩, ⟨2, 3⟩, ⟨1, 4⟩, ⟨4, 5⟩] : List Interval), x.start ≤ x.end_ := by
    decide
  have hproper' : ∀ x ∈ ([⟨4, 5⟩, ⟨1, 4⟩, ⟨2, 3⟩, ⟨7, 7⟩, ⟨1, 4⟩] : List Interval),
      x.start ≤ x.end_ := by
    decide
  refine ⟨(merge_canonical hlib hproper').2.1, ?_⟩
  refine (merge_canonical hlib hproper).2.2.2.1 _ fun x => ?_
  simp only [List.mem_cons, List.not_mem_nil, or_false]
  tauto

end Intervals
