import SystemsDrills.WordCount.TopK

/-!
# From the words to the most frequent ones

`count_words` of `Interview/leetcode/10-stl-refresher.cpp`, and what `top_k` makes of its map.
`MostFrequent` says what the two are for: the `k` words that occur most often, the best one first,
and of two words with the same count the smaller one.  There is one such list only, so neither the
order of the words nor that of the hash map can be seen in the result.

A count is an `int`, and its increment past `INT_MAX` has no result.
-/

namespace WordCount

open PriorityQueue

/-! ## The code -/

/-- `INT_MAX`. -/
def intMax : Int := 2 ^ 31 - 1

/-- `res[word]++`.  `operator[]` inserts 0 for a missing key. -/
def increment (res : Word → Option Int) (word : Word) : Option (Word → Option Int) :=
  let x := (res word).getD 0
  if x < intMax then some (Function.update res word (some (x + 1))) else none

/-- `count_words`. -/
def countWords (words : List Word) : Option (Word → Option Int) :=
  words.foldlM increment fun _ => none

/-! ## The counts -/

variable {words words' ws ws' : List Word} {w v : Word} {k : Nat} {map : Word → Option Int}
  {counts : List Entry}

/-- How often each word occurs. -/
def countsOf (words : List Word) (w : Word) : Option Int :=
  if w ∈ words then some (words.count w) else none

theorem getD_countsOf : (countsOf words w).getD 0 = words.count w := by
  rw [countsOf]
  split
  · rfl
  · next h => rw [List.count_eq_zero.mpr h]; rfl

theorem increment_countsOf (words : List Word) (w : Word) :
    increment (countsOf words) w =
      if (words.count w : Int) < intMax then some (countsOf (words ++ [w])) else none := by
  have hmap : Function.update (countsOf words) w (some (words.count w + 1 : Int)) =
      countsOf (words ++ [w]) := by
    funext v
    by_cases hv : v = w
    · subst hv
      simp [countsOf]
    · simp [countsOf, hv, Ne.symm hv]
  rw [increment, getD_countsOf, hmap]

/-- `count_words` counts, if no count passes `INT_MAX`. -/
theorem countWords_eq_some :
    countWords words = some map ↔
      (∀ w, (words.count w : Int) ≤ intMax) ∧ map = countsOf words := by
  induction words using List.reverseRecOn generalizing map with
  | nil =>
      have hzero : ∀ w : Word, (([] : List Word).count w : Int) ≤ intMax := fun w => by
        simp [intMax]
      refine ⟨fun h => ⟨hzero, (Option.some.inj h).symm⟩, fun h => ?_⟩
      rw [h.2]
      rfl
  | append_singleton words w ih =>
      have hcount : (∀ v, ((words ++ [w]).count v : Int) ≤ intMax) ↔
          (∀ v, (words.count v : Int) ≤ intMax) ∧ (words.count w : Int) < intMax := by
        refine ⟨fun h => ⟨fun v => ?_, ?_⟩, fun ⟨h, hw⟩ v => ?_⟩
        · have := h v
          rw [List.count_append] at this
          push_cast at this
          omega
        · have := h w
          rw [List.count_append, List.count_singleton_self] at this
          push_cast at this
          omega
        · rw [List.count_append]
          by_cases hv : w = v
          · subst hv
            rw [List.count_singleton_self]
            push_cast
            omega
          · have hnone : [w].count v = 0 := List.count_eq_zero.mpr (by simpa using Ne.symm hv)
            rw [hnone]
            exact h v
      have hstep : countWords (words ++ [w]) = some map ↔
          ∃ res, countWords words = some res ∧ increment res w = some map := by
        rw [countWords, List.foldlM_append, ← countWords]
        simp [Option.bind_eq_some_iff]
      rw [hstep, hcount]
      simp only [ih]
      constructor
      · rintro ⟨res, ⟨hle, rfl⟩, hinc⟩
        rw [increment_countsOf] at hinc
        split at hinc
        · next hlt => exact ⟨⟨hle, hlt⟩, (Option.some.inj hinc).symm⟩
        · cases hinc
      · rintro ⟨⟨hle, hlt⟩, rfl⟩
        exact ⟨_, ⟨hle, rfl⟩, by rw [increment_countsOf, if_pos hlt]⟩

/-! ## The most frequent words -/

/-- `w` occurs more often than `v`, or as often and is smaller. -/
def Before (words : List Word) (w v : Word) : Prop :=
  words.count v < words.count w ∨ words.count w = words.count v ∧ w < v

/-- The `k` words that occur most often, the best one first. -/
structure MostFrequent (words : List Word) (k : Nat) (ws : List Word) : Prop where
  length : ws.length = min k words.dedup.length
  subset : ∀ w ∈ ws, w ∈ words
  sorted : ws.Pairwise (Before words)
  best : ∀ w ∈ ws, ∀ v ∈ words, v ∉ ws → Before words w v

theorem Before.asymm (h : Before words w v) : ¬ Before words v w := by
  rcases h with h | ⟨heq, h⟩
  · rintro (h' | ⟨heq', -⟩)
    · omega
    · omega
  · rintro (h' | ⟨-, h'⟩)
    · omega
    · exact lt_asymm h h'

theorem MostFrequent.nodup (h : MostFrequent words k ws) : ws.Nodup :=
  h.sorted.imp fun {a b} hb heq => by
    subst heq
    exact hb.asymm hb

/-- A word of the one list that the other one left out would be better and worse than some word. -/
theorem MostFrequent.subset_of (h : MostFrequent words k ws) (h' : MostFrequent words k ws') :
    ws ⊆ ws' := by
  intro w hw
  by_contra hw'
  have hnot : ¬ ws' ⊆ ws := by
    intro hsub
    have hperm := (h'.nodup.subperm hsub).perm_of_length_le (by rw [h.length, h'.length])
    exact hw' (hperm.mem_iff.mpr hw)
  obtain ⟨v, hv', hv⟩ : ∃ v ∈ ws', v ∉ ws := by
    by_contra hall
    push Not at hall
    exact hnot hall
  exact (h.best w hw v (h'.subset v hv') hv).asymm (h'.best v hv' w (h.subset w hw) hw')

theorem MostFrequent.unique (h : MostFrequent words k ws) (h' : MostFrequent words k ws') :
    ws = ws' := by
  have hperm : ws.Perm ws' :=
    (List.perm_ext_iff_of_nodup h.nodup h'.nodup).mpr fun w =>
      ⟨fun hw => h.subset_of h' hw, fun hw => h'.subset_of h hw⟩
  exact hperm.eq_of_pairwise (fun a b _ _ hab hba => absurd hba hab.asymm) h.sorted h'.sorted

/-! ## `top_k` of `count_words` -/

theorem countsOf_perm (h : words.Perm words') : countsOf words = countsOf words' := by
  funext w
  rw [countsOf, countsOf, h.count_eq]
  simp only [h.mem_iff]

/-- A word is a key with its count. -/
theorem Enumerates.mem_iff (h : Enumerates counts (countsOf words)) {e : Entry} :
    e ∈ counts ↔ e.1 ∈ words ∧ e.2 = words.count e.1 := by
  rw [h.entries e.1 e.2, countsOf]
  split
  · next hin => simp [hin, eq_comm]
  · next hout => simp [hout]

theorem Enumerates.length (h : Enumerates counts (countsOf words)) :
    counts.length = words.dedup.length := by
  have hperm : (counts.map Prod.fst).Perm words.dedup := by
    refine (List.perm_ext_iff_of_nodup h.keys words.nodup_dedup).mpr fun w => ?_
    rw [List.mem_map, List.mem_dedup]
    constructor
    · rintro ⟨e, he, rfl⟩
      exact (h.mem_iff.mp he).1
    · exact fun hw => ⟨(w, words.count w), h.mem_iff.mpr ⟨hw, rfl⟩, rfl⟩
  rw [← hperm.length_eq, List.length_map]

/-- The first words of the sorted entries are the most frequent ones. -/
theorem Enumerates.mostFrequent (h : Enumerates counts (countsOf words))
    (std : Sorter (Ranks byCount)) (k : Nat) :
    MostFrequent words k (((sortedByCount std counts).take k).map Prod.fst) := by
  have hperm : (sortedByCount std counts).Perm counts := std.perm counts
  have hmem : ∀ {e : Entry}, e ∈ sortedByCount std counts →
      e.1 ∈ words ∧ e.2 = words.count e.1 := fun he => h.mem_iff.mp (hperm.mem_iff.mp he)
  -- Different entries rank one way or the other.
  have hsorted : (sortedByCount std counts).Pairwise fun a b => Before words a.1 b.1 := by
    have hnodup : (sortedByCount std counts).Nodup :=
      hperm.nodup_iff.mpr (List.Nodup.of_map _ h.keys)
    refine (hnodup.and (std.sorted counts)).imp_of_mem fun {a b} ha hb hab => ?_
    have hrank : Ranks better a b := by
      by_contra hnot
      exact hab.1 (Std.Trichotomous.trichotomous (r := Ranks better) a b hnot hab.2)
    rw [ranks_better_iff, (hmem ha).2, (hmem hb).2] at hrank
    exact hrank.imp (fun hlt => by exact_mod_cast hlt) fun ⟨heq, hlt⟩ => ⟨by exact_mod_cast heq, hlt⟩
  refine ⟨?_, fun w hw => ?_, ?_, fun w hw v hv hout => ?_⟩
  · rw [List.length_map, List.length_take, hperm.length_eq, h.length]
  · obtain ⟨e, he, rfl⟩ := List.mem_map.mp hw
    exact (hmem (List.mem_of_mem_take he)).1
  · exact List.pairwise_map.mpr (hsorted.sublist (List.take_sublist _ _))
  · obtain ⟨a, ha, rfl⟩ := List.mem_map.mp hw
    have hb : (v, (words.count v : Int)) ∈ sortedByCount std counts :=
      hperm.mem_iff.mpr (h.mem_iff.mpr ⟨hv, rfl⟩)
    rw [← List.take_append_drop k (sortedByCount std counts)] at hb hsorted
    rcases List.mem_append.mp hb with hb | hb
    · exact absurd (List.mem_map.mpr ⟨_, hb, rfl⟩) hout
    · exact (List.pairwise_append.mp hsorted).2.2 a ha _ hb

/-- Some order of the hash map. -/
theorem enumerates_dedup (words : List Word) :
    Enumerates (words.dedup.map fun w => (w, (words.count w : Int))) (countsOf words) := by
  refine ⟨?_, fun w c => ?_⟩
  · have hkeys : (words.dedup.map fun w => (w, (words.count w : Int))).map Prod.fst = words.dedup := by
      rw [List.map_map]
      exact List.map_id _
    rw [hkeys]
    exact words.nodup_dedup
  · simp only [List.mem_map, List.mem_dedup, Prod.mk.injEq, countsOf]
    constructor
    · rintro ⟨v, hv, rfl, rfl⟩
      rw [if_pos hv]
    · intro h
      split at h
      · next hin => exact ⟨w, hin, rfl, Option.some.inj h⟩
      · cases h

theorem enumerates_of_perm {counts' : List Entry} (h : Enumerates counts map)
    (hperm : counts'.Perm counts) : Enumerates counts' map :=
  ⟨(hperm.map Prod.fst).nodup_iff.mpr h.keys, fun w c => hperm.mem_iff.trans (h.entries w c)⟩

/-- The way from the words to the most frequent ones.  `count_words` has a result if no word occurs
more than `INT_MAX` times, and its map is the same for the words in any other order.  In whichever order
the hash map is gone over, `top_k` returns the one list of the `k` words that occur most often. -/
theorem top_k_most_frequent (pq : Queue (Ranks better)) (words : List Word) (k : Nat) :
    ((∃ map, countWords words = some map) ↔ ∀ w, (words.count w : Int) ≤ intMax) ∧
      ∀ map, countWords words = some map →
        (∀ words', words'.Perm words → countWords words' = some map) ∧
        ∃ ws, MostFrequent words k ws ∧ (∀ ws', MostFrequent words k ws' → ws' = ws) ∧
          ∀ counts fuel, Enumerates counts map → counts.length ≤ fuel →
            topK pq fuel counts k = some ws := by
  refine ⟨⟨fun ⟨map, h⟩ => (countWords_eq_some.mp h).1,
    fun h => ⟨_, countWords_eq_some.mpr ⟨h, rfl⟩⟩⟩, fun map h => ⟨fun words' hperm => ?_, ?_⟩⟩
  · obtain ⟨hle, rfl⟩ := countWords_eq_some.mp h
    refine countWords_eq_some.mpr ⟨fun w => ?_, (countsOf_perm hperm).symm⟩
    rw [hperm.count_eq]
    exact hle w
  · obtain ⟨-, rfl⟩ := countWords_eq_some.mp h
    let std := mergeSorter (Ranks byCount)
    have hws := (enumerates_dedup words).mostFrequent std k
    refine ⟨_, hws, fun ws' h' => h'.unique hws, fun counts fuel hcounts hfuel => ?_⟩
    rw [topK_eq pq std k hfuel, sortedByCount_eq std (hcounts.perm (enumerates_dedup words))]

/-- Two words occur twice, and the smaller one comes first. -/
theorem top_k_most_frequent_tie :
    topK (listQueue (Ranks better)) 3 [([3], 1), ([2], 2), ([1], 2)] 2 = some [[1], [2]] ∧
      MostFrequent [[1], [2], [2], [1], [3]] 2 [[1], [2]] := by
  have hmap : countWords [[1], [2], [2], [1], [3]] = some (countsOf [[1], [2], [2], [1], [3]]) := by
    refine countWords_eq_some.mpr ⟨fun w => ?_, rfl⟩
    have hle := List.count_le_length (a := w) (l := [[1], [2], [2], [1], [3]])
    simp only [List.length_cons, List.length_nil] at hle
    rw [intMax]
    omega
  have henum : Enumerates [([3], 1), ([2], 2), ([1], 2)] (countsOf [[1], [2], [2], [1], [3]]) :=
    enumerates_of_perm (enumerates_dedup _) (by decide)
  obtain ⟨ws, hws, -, htop⟩ :=
    ((top_k_most_frequent (listQueue (Ranks better)) [[1], [2], [2], [1], [3]] 2).2 _ hmap).2
  have hrun : topK (listQueue (Ranks better)) 3 [([3], 1), ([2], 2), ([1], 2)] 2 =
      some [[1], [2]] := by decide +kernel
  obtain rfl := Option.some.inj ((htop _ 3 henum (Nat.le_refl 3)).symm.trans hrun)
  exact ⟨hrun, hws⟩

end WordCount
