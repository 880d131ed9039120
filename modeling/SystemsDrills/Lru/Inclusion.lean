import SystemsDrills.Lru.History

/-!
# A larger cache

What a cache holds, a larger one after the same calls holds as well.  This is not immediate, since only
a hit counts as a use: the larger cache sees uses that the smaller one does not, and so the two do not
evict in the same order.  The invariant is `Recency.Included`.  The entries of the smaller cache are
among those of the larger, in the same order, and as long as the smaller one is not full the two are
the same.
-/

namespace Lru

open Recency

def LRUCache.entries (c : LRUCache) : List (Int32 × Int32) := c.l_.map Node.entry

variable {c d : LRUCache}

/-- A cache keeps what it holds. -/
theorem LRUCache.Wf.represents (h : c.Wf) : c.Represents c.entries := by
  refine ⟨h, ?_, ?_⟩
  · rw [Distinct, entries, map_first_entry]
    exact h.firsts
  · rw [List.take_of_length_le]
    · rfl
    · rw [entries, List.length_map]
      exact h.size

theorem LRUCache.Wf.length_entries (h : c.Wf) : c.entries.length ≤ c.capacity.toNat := by
  rw [entries, List.length_map]
  exact h.size

/-- The cache `c` and a larger one after the same calls. -/
structure LRUCache.Within (c d : LRUCache) : Prop where
  small : c.Wf
  large : d.Wf
  capacity : c.capacity.toNat ≤ d.capacity.toNat
  entries : Included c.capacity.toNat c.entries d.entries

/-- `get`, in terms of what the cache holds. -/
theorem LRUCache.Wf.get_entries (h : c.Wf) (key : Int32) :
    ∃ c', c.get key = some ((c.entries.lookup key).getD (-1), c') ∧ c'.capacity = c.capacity ∧ c'.Wf ∧
      c'.entries = match c.entries.lookup key with
        | none => c.entries
        | some v => toFront key v c.entries := by
  obtain ⟨c', hget, hcap, hrep, -⟩ := h.represents.get_eq key
  have htake : c.entries.take c.capacity.toNat = c.entries :=
    List.take_of_length_le h.length_entries
  rw [Recency.get, htake] at hget hrep
  refine ⟨c', ?_, hcap, hrep.wf, ?_⟩
  · rw [hget]
    cases c.entries.lookup key <;> rfl
  · have hentries : c'.entries = _ := hrep.entries
    rw [hentries, hcap]
    cases hlook : c.entries.lookup key with
    | none => exact htake
    | some v =>
        refine List.take_of_length_le ((length_toFront_le ?_).trans h.length_entries)
        exact mem_of_lookup hlook

/-- `put`, in terms of what the cache holds. -/
theorem LRUCache.Wf.put_entries (h : c.Wf) (new : Alloc) (key value : Int32) :
    ∃ c', c.put new key value = some c' ∧ c'.capacity = c.capacity ∧ c'.Wf ∧
      c'.entries = (toFront key value c.entries).take c.capacity.toNat := by
  obtain ⟨c', hput, hcap, hrep⟩ := h.represents.put_eq new key value
  refine ⟨c', hput, hcap, hrep.wf, ?_⟩
  rw [← hcap]
  exact hrep.entries

/-- One call on both.  The smaller cache may answer -1 where the larger one has a value. -/
theorem LRUCache.Within.step (h : c.Within d) (op : Op) :
    ∃ res res' c' d', c.step op = some (res, c') ∧ d.step op = some (res', d') ∧
      (res = res' ∨ res = some (-1)) ∧ c'.Within d' := by
  have hdistinct := h.small.represents.distinct
  cases op with
  | get key =>
      obtain ⟨c', hget, hcap, hwf, hentries⟩ := h.small.get_entries key
      obtain ⟨d', hget', hcap', hwf', hentries'⟩ := h.large.get_entries key
      have hwithin : Included c.capacity.toNat c'.entries d'.entries ∧
          ((c.entries.lookup key).getD (-1) = (d.entries.lookup key).getD (-1) ∨
            (c.entries.lookup key).getD (-1) = -1) := by
        rw [hentries, hentries']
        cases hlook : c.entries.lookup key with
        | some v =>
            rw [h.entries.lookup h.large.represents.distinct hlook]
            exact ⟨h.entries.hit hdistinct key v, .inl rfl⟩
        | none =>
            refine ⟨?_, .inr rfl⟩
            cases hlook' : d.entries.lookup key with
            | none => exact h.entries
            | some v =>
                refine h.entries.miss (fun hmem => ?_) (mem_of_lookup hlook') v
                obtain ⟨e, he, rfl⟩ := List.mem_map.mp hmem
                rw [lookup_of_mem hdistinct he] at hlook
                cases hlook
      refine ⟨_, _, c', d', by rw [LRUCache.step, hget]; rfl, by rw [LRUCache.step, hget']; rfl, ?_, ?_⟩
      · exact hwithin.2.imp (congrArg some) (congrArg some)
      · exact ⟨hwf, hwf', by rw [hcap, hcap']; exact h.capacity, by rw [hcap]; exact hwithin.1⟩
  | put new key value =>
      obtain ⟨c', hput, hcap, hwf, hentries⟩ := h.small.put_entries new key value
      obtain ⟨d', hput', hcap', hwf', hentries'⟩ := h.large.put_entries new key value
      refine ⟨none, none, c', d', by rw [LRUCache.step, hput]; rfl, by rw [LRUCache.step, hput']; rfl,
        .inl rfl, hwf, hwf', by rw [hcap, hcap']; exact h.capacity, ?_⟩
      rw [hcap, hentries, hentries']
      exact h.entries.put hdistinct h.capacity h.small.length_entries h.large.length_entries key value

/-- Any sequence of calls on both. -/
theorem LRUCache.Within.run (h : c.Within d) (ops : List Op) :
    ∃ results results' c' d', c.run ops = some (results, c') ∧ d.run ops = some (results', d') ∧
      List.Forall₂ (fun res res' => res = res' ∨ res = some (-1)) results results' ∧
      c'.Within d' := by
  induction ops generalizing c d with
  | nil => exact ⟨[], [], c, d, rfl, rfl, .nil, h⟩
  | cons op ops ih =>
      obtain ⟨res, res', c₁, d₁, hstep, hstep', hres, h₁⟩ := h.step op
      obtain ⟨results, results', c₂, d₂, hrun, hrun', hresults, h₂⟩ := ih h₁
      refine ⟨res :: results, res' :: results', c₂, d₂, ?_, ?_, .cons hres hresults, h₂⟩
      · simp [LRUCache.run, hstep, hrun]
      · simp [LRUCache.run, hstep', hrun']

/-- More capacity never costs a hit.  After the same calls a larger cache holds every entry that a
smaller one holds, with the same value and in the same order, and a `get` that the smaller one does not
answer with -1 has the same answer from the larger one. -/
theorem larger_cache_includes {capacity capacity' : Int32} (h : 0 ≤ capacity)
    (hle : capacity ≤ capacity') (ops : List Op) :
    ∃ results results' c c', (LRUCache.new capacity).run ops = some (results, c) ∧
      (LRUCache.new capacity').run ops = some (results', c') ∧
      List.Forall₂ (fun res res' => res = res' ∨ res = some (-1)) results results' ∧
      (c.l_.map Node.entry).Sublist (c'.l_.map Node.entry) := by
  have hcap : (LRUCache.new capacity).capacity.toNat ≤ (LRUCache.new capacity').capacity.toNat := by
    rw [capacity_new h, capacity_new (Int32.le_trans h hle)]
    have := Int32.le_iff_toInt_le.mp hle
    simp only [Int32.toNatClampNeg]
    omega
  have hempty : ∀ capacity, (LRUCache.new capacity).entries = [] := fun _ => rfl
  have hstart : (LRUCache.new capacity).Within (LRUCache.new capacity') := by
    refine ⟨.new _, .new _, hcap, ?_⟩
    rw [hempty, hempty]
    exact ⟨List.Sublist.refl _, fun _ => rfl⟩
  obtain ⟨results, results', c, c', hrun, hrun', hresults, hend⟩ := hstart.run ops
  exact ⟨results, results', c, c', hrun, hrun', hresults, hend.entries.sublist⟩

/-- The larger cache has a hit on key 1 that the smaller one has not, and keeps it in place of key 2. -/
theorem larger_cache_includes_two :
    ∃ results results' c c',
      (LRUCache.new 2).run
        [.put .above 1 10, .put .above 2 20, .put .above 3 30, .get 1, .put .above 4 40, .get 3] =
        some (results, c) ∧
      (LRUCache.new 3).run
        [.put .above 1 10, .put .above 2 20, .put .above 3 30, .get 1, .put .above 4 40, .get 3] =
        some (results', c') ∧
      List.Forall₂ (fun res res' => res = res' ∨ res = some (-1)) results results' ∧
      (c.l_.map Node.entry).Sublist (c'.l_.map Node.entry) :=
  larger_cache_includes (show (0 : Int32) ≤ 2 by decide) (show (2 : Int32) ≤ 3 by decide)
    [.put .above 1 10, .put .above 2 20, .put .above 3 30, .get 1, .put .above 4 40, .get 3]

end Lru
