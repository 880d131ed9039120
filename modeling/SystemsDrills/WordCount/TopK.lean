import SystemsDrills.Lib.PriorityQueue

/-!
# The most frequent words

`top_k` and `sorted_by_count` of `Interview/leetcode/10-stl-refresher.cpp`.  Both go over a hash
map in an order that is not known, so they take a list of its entries here, and `Enumerates`
says that the list has every entry once.  `std::priority_queue` and `std::sort` are parameters
with the contracts of `Lib.PriorityQueue`.

The queue of `top_k` has `better` as its order, so its top is the worst of the kept entries.
Strings compare by their bytes, and counts are only compared, so they are integers of any size.
-/

namespace WordCount

open PriorityQueue

/-! ## The code -/

/-- `std::string`. -/
abbrev Word := List (Fin 256)

/-- `Entry`. -/
abbrev Entry := Word × Int

/-- `better`. -/
def better (a b : Entry) : Bool :=
  if a.2 ≠ b.2 then a.2 > b.2 else a.1 < b.1

/-- The lambda of `sorted_by_count`. -/
def byCount (a b : Entry) : Bool :=
  if a.2 ≠ b.2 then a.2 > b.2 else a.1 < b.1

/-- A comparator as a relation. -/
def Ranks (comp : Entry → Entry → Bool) (a b : Entry) : Prop := comp a b = true

instance (comp : Entry → Entry → Bool) : DecidableRel (Ranks comp) := fun a b =>
  inferInstanceAs (Decidable (comp a b = true))

theorem ranks_better_iff {a b : Entry} :
    Ranks better a b ↔ b.2 < a.2 ∨ a.2 = b.2 ∧ a.1 < b.1 := by
  rw [Ranks, better]
  by_cases heq : a.2 = b.2
  · simp [heq]
  · simp [heq]

instance : IsStrictTotalOrder Entry (Ranks better) where
  trichotomous a b hab hba := by
    rw [ranks_better_iff] at hab hba
    push Not at hab hba
    have hcount : a.2 = b.2 := le_antisymm hab.1 hba.1
    exact Prod.ext (le_antisymm (hba.2 hcount.symm) (hab.2 hcount)) hcount
  irrefl a h := by
    rw [ranks_better_iff] at h
    rcases h with h | ⟨-, h⟩
    · exact lt_irrefl _ h
    · exact lt_irrefl _ h
  trans a b c hab hbc := by
    rw [ranks_better_iff] at hab hbc ⊢
    rcases hab with hab | ⟨heq, hab⟩
    · rcases hbc with hbc | ⟨heq', -⟩
      · exact .inl (hbc.trans hab)
      · exact .inl (heq' ▸ hab)
    · rcases hbc with hbc | ⟨heq', hbc⟩
      · exact .inl (heq ▸ hbc)
      · exact .inr ⟨heq.trans heq', hab.trans hbc⟩

instance : IsStrictTotalOrder Entry (Ranks byCount) :=
  inferInstanceAs (IsStrictTotalOrder Entry (Ranks better))

/-- `sorted_by_count`. -/
def sortedByCount (std : Sorter (Ranks byCount)) (counts : List Entry) : List Entry :=
  std.sort counts

/-- `top_k`.  The loop that empties the queue may run out of `fuel`. -/
def topK (pq : Queue (Ranks better)) (fuel : Nat) (counts : List Entry) (k : Nat) :
    Option (List Word) := do
  let q := counts.foldl (offer pq k) pq.empty
  let res ← drain pq fuel q
  return (res.map Prod.fst).reverse

/-! ## `top_k` and the full sort -/

/-- The list goes over the map. -/
structure Enumerates (counts : List Entry) (map : Word → Option Int) : Prop where
  keys : (counts.map Prod.fst).Nodup
  entries : ∀ w c, (w, c) ∈ counts ↔ map w = some c

/-- Two ways to go over a map differ in the order alone. -/
theorem Enumerates.perm {counts counts' : List Entry} {map : Word → Option Int}
    (h : Enumerates counts map) (h' : Enumerates counts' map) : counts.Perm counts' :=
  (List.perm_ext_iff_of_nodup (List.Nodup.of_map _ h.keys) (List.Nodup.of_map _ h'.keys)).mpr
    fun e => (h.entries e.1 e.2).trans (h'.entries e.1 e.2).symm

/-- A list without a word twice goes over a map. -/
theorem enumerates_lookup {counts : List Entry} (h : (counts.map Prod.fst).Nodup) :
    Enumerates counts (counts.lookup ·) := by
  refine ⟨h, fun w c => ?_⟩
  induction counts with
  | nil => simp
  | cons e counts ih =>
      obtain ⟨hnew, hrest⟩ := List.nodup_cons.mp h
      rw [List.lookup_cons, List.mem_cons]
      by_cases heq : w = e.1
      · subst heq
        have hnot : (e.1, c) ∉ counts := fun hin => hnew (List.mem_map.mpr ⟨_, hin, rfl⟩)
        simp only [beq_self_eq_true, hnot, or_false, Option.some.injEq, Prod.ext_iff, true_and]
        exact eq_comm
      · have hne : (w, c) ≠ e := fun h0 => heq (congrArg Prod.fst h0)
        simp only [hne, false_or, beq_eq_false_iff_ne.mpr heq]
        exact ih hrest

variable (pq : Queue (Ranks better)) (std : Sorter (Ranks byCount)) {map : Word → Option Int}
  {counts counts' : List Entry} (k : Nat) {fuel : Nat}

theorem topK_eq (hfuel : counts.length ≤ fuel) :
    topK pq fuel counts k = some (((sortedByCount std counts).take k).map Prod.fst) := by
  have hdrain := drain_eq_take_sort pq (std : Sorter (Ranks better)) k counts hfuel
  rw [topK, hdrain, Option.bind_eq_bind, Option.bind_some, ← List.map_reverse,
    List.reverse_reverse]
  rfl

/-- The sort forgets in which order the map was gone over. -/
theorem sortedByCount_eq (h : counts.Perm counts') :
    sortedByCount std counts = sortedByCount std counts' :=
  eq_of_sorted (std.sorted counts) (std.sorted counts')
    ((std.perm counts).trans (h.trans (std.perm counts').symm))

/-- `top_k` returns the words of the first entries of `sorted_by_count`, in whichever order the
two go over the map. -/
theorem top_k_eq_sorted (h : Enumerates counts map) (h' : Enumerates counts' map)
    (hfuel : counts.length ≤ fuel) :
    topK pq fuel counts k =
        some (((sortedByCount std counts').take (min k counts'.length)).map Prod.fst) ∧
      topK pq fuel counts' k = topK pq fuel counts k := by
  have hsort := sortedByCount_eq std (h.perm h')
  have hlen : counts'.length = (sortedByCount std counts').length :=
    (std.perm counts').length_eq.symm
  have hfuel' : counts'.length ≤ fuel := (h.perm h').length_eq ▸ hfuel
  rw [topK_eq pq std k hfuel, topK_eq pq std k hfuel', hsort, hlen, ← List.take_eq_take_min]
  exact ⟨rfl, rfl⟩

/-- A tie at the cut: of two words with the same count, the smaller one is kept. -/
theorem top_k_eq_sorted_tie :
    topK (listQueue (Ranks better)) 3 [([2], 1), ([3], 5), ([1], 1)] 2 = some [[3], [1]] ∧
      topK (listQueue (Ranks better)) 3 [([1], 1), ([2], 1), ([3], 5)] 2 = some [[3], [1]] ∧
      ((sortedByCount (mergeSorter (Ranks byCount)) [([1], 1), ([2], 1), ([3], 5)]).take 2).map
        Prod.fst = [[3], [1]] := by
  have hkeys : (([([2], 1), ([3], 5), ([1], 1)] : List Entry).map Prod.fst).Nodup := by decide
  have hkeys' : (([([1], 1), ([2], 1), ([3], 5)] : List Entry).map Prod.fst).Nodup := by decide
  have hperm : ([([1], 1), ([2], 1), ([3], 5)] : List Entry).Perm
      [([2], 1), ([3], 5), ([1], 1)] := by decide
  have h := enumerates_lookup hkeys
  have h' : Enumerates [([1], 1), ([2], 1), ([3], 5)]
      (([([2], 1), ([3], 5), ([1], 1)] : List Entry).lookup ·) :=
    ⟨hkeys', fun w c => hperm.mem_iff.trans (h.entries w c)⟩
  obtain ⟨heq, hsame⟩ := top_k_eq_sorted (listQueue (Ranks better)) (mergeSorter (Ranks byCount)) 2
    h h' (Nat.le_refl 3)
  have hrun : topK (listQueue (Ranks better)) 3 [([2], 1), ([3], 5), ([1], 1)] 2 =
      some [[3], [1]] := by decide +kernel
  exact ⟨hrun, hsame.trans hrun, Option.some.inj (heq.symm.trans hrun)⟩

end WordCount
