import SystemsDrills.Lru.Cache

/-!
# Sequences of calls

`get` and `put` in any order, from a new cache.  The cache agrees call by call
with the abstract cache, which keeps the most recently used entries of all that
were ever used.  So the answer of a `get` can be read off the calls before it:
it is a hit exactly if fewer distinct other keys were used since than fit into
the cache.
-/

namespace Lru

open Recency

/-! ## Sequences of calls -/

inductive Op where
  | get (key : Int32)
  | put (new : Alloc) (key value : Int32)

/-- The result of a call, which is `none` for `put`, and the cache after it. -/
def LRUCache.step (c : LRUCache) : Op → Option (Option Int32 × LRUCache)
  | .get key => (c.get key).map fun (res, c') => (some res, c')
  | .put new key value => (c.put new key value).map fun c' => (none, c')

/-- The results of a sequence of calls and the cache after it. -/
def LRUCache.run (c : LRUCache) : List Op → Option (List (Option Int32) × LRUCache)
  | [] => some ([], c)
  | op :: ops => do
    let (res, c') ← c.step op
    let (results, c'') ← c'.run ops
    return (res :: results, c'')

/-- The key a call uses: `put` uses its key, and `get` uses it if it is there. -/
def LRUCache.uses (c : LRUCache) : Op → Option Int32
  | .get key => if (c.keys key).isSome then some key else none
  | .put _ key _ => some key

/-- The keys a sequence of calls uses, oldest first. -/
def LRUCache.used (c : LRUCache) : List Op → List Int32
  | [] => []
  | op :: ops =>
    (c.uses op).toList ++ ((c.step op).map fun (_, c') => c'.used ops).getD []

/-- The value of the last `put` of `x`. -/
def lastPut (x : Int32) : List Op → Option Int32
  | [] => none
  | .get _ :: ops => lastPut x ops
  | .put _ key value :: ops => (lastPut x ops).or (if key = x then some value else none)

/-! ## The abstract cache -/

/-- A call on the abstract cache of capacity `c`: the list of all entries used. -/
def absStep (c : Nat) (used : List (Int32 × Int32)) : Op → Option Int32 × List (Int32 × Int32)
  | .get key =>
    let (found, used') := Recency.get c key used
    (some (found.getD (-1)), used')
  | .put _ key value => (none, toFront key value used)

/-- The results of a sequence of calls on the abstract cache. -/
def absRun (c : Nat) (used : List (Int32 × Int32)) : List Op → List (Option Int32)
  | [] => []
  | op :: ops => (absStep c used op).1 :: absRun c (absStep c used op).2 ops

variable {c : LRUCache}

/-! ## Whole runs -/

/-- One call.  The entry it uses goes to the end of the history `us`. -/
theorem step_eq {us : List (Int32 × Int32)} (h : c.Represents (stack us)) (op : Op) :
    ∃ c' us', c.step op = some ((absStep c.capacity.toNat (stack us) op).1, c') ∧
      c'.capacity = c.capacity ∧ us'.map Prod.fst = (c.uses op).toList ∧
      (absStep c.capacity.toNat (stack us) op).2 = stack (us ++ us') ∧
      c'.Represents (stack (us ++ us')) ∧
      ∀ x, (stack (us ++ us')).lookup x = (lastPut x [op]).or ((stack us).lookup x) := by
  cases op with
  | get key =>
      obtain ⟨c', hget, hcap, hrep, hsome⟩ := h.get_eq key
      rw [Recency.get] at hget hrep hsome
      simp only [absStep, LRUCache.step, LRUCache.uses, hget, Recency.get, lastPut, hsome]
      cases hlook : ((stack us).take c.capacity.toNat).lookup key with
      | none =>
          rw [hlook] at hrep
          exact ⟨c', [], rfl, hcap, rfl, by simp, by simpa using hrep, by simp⟩
      | some v =>
          rw [hlook] at hrep
          refine ⟨c', [(key, v)], rfl, hcap, rfl, by simp, by simpa using hrep, fun x => ?_⟩
          rw [stack_concat]
          by_cases hx : x = key
          · -- The value that was found is the one that was there.
            subst hx
            rw [lookup_take] at hlook
            split at hlook
            · simp [hlook]
            · cases hlook
          · simp [lookup_toFront_ne hx]
  | put new key value =>
      obtain ⟨c', hput, hcap, hrep⟩ := h.put_eq new key value
      refine ⟨c', [(key, value)], by simp [LRUCache.step, absStep, hput], hcap, rfl,
        by simp [absStep], by simpa using hrep, fun x => ?_⟩
      rw [stack_concat, lastPut, lastPut]
      by_cases hx : x = key
      · subst hx
        simp
      · simp [lookup_toFront_ne hx, Ne.symm hx]

theorem lastPut_cons (x : Int32) (op : Op) (ops : List Op) :
    lastPut x (op :: ops) = (lastPut x ops).or (lastPut x [op]) := by
  cases op <;> simp [lastPut]

/-- Any sequence of calls. -/
theorem run_eq {us : List (Int32 × Int32)} (h : c.Represents (stack us)) (ops : List Op) :
    ∃ c' us', c.run ops = some (absRun c.capacity.toNat (stack us) ops, c') ∧
      c'.capacity = c.capacity ∧ us'.map Prod.fst = c.used ops ∧
      c'.Represents (stack (us ++ us')) ∧
      ∀ x, (stack (us ++ us')).lookup x = (lastPut x ops).or ((stack us).lookup x) := by
  induction ops generalizing c us with
  | nil => exact ⟨c, [], rfl, rfl, rfl, by simpa using h, by simp [lastPut]⟩
  | cons op ops ih =>
      obtain ⟨c₁, us₁, hstep, hcap₁, hused₁, habs, hrep₁, hlook₁⟩ := step_eq h op
      obtain ⟨c₂, us₂, hrun, hcap₂, hused₂, hrep₂, hlook₂⟩ := ih hrep₁
      rw [List.append_assoc] at hrep₂ hlook₂
      refine ⟨c₂, us₁ ++ us₂, ?_, hcap₂.trans hcap₁, ?_, hrep₂, fun x => ?_⟩
      · rw [hcap₁] at hrun
        simp [LRUCache.run, hstep, hrun, absRun, habs]
      · simp [LRUCache.used, hstep, hused₁, hused₂]
      · rw [hlook₂, hlook₁, lastPut_cons x op ops, Option.or_assoc]

/-- A new cache holds as many entries as it was asked for. -/
theorem capacity_new {capacity : Int32} (h : 0 ≤ capacity) :
    (LRUCache.new capacity).capacity.toNat = capacity.toNatClampNeg := by
  have h64 : 0 ≤ capacity.toInt64 := by
    rw [Int64.le_iff_toInt_le, Int32.toInt_toInt64]
    exact Int32.le_iff_toInt_le.mp h
  rw [LRUCache.new, Int64.toNat_toUInt64_of_le h64, Int32.toNatClampNeg_toInt64]

theorem represents_new (capacity : Int32) : (LRUCache.new capacity).Represents (stack []) :=
  ⟨.new capacity, List.nodup_nil, by simp [LRUCache.new]⟩

/-- Any sequence of calls on a new cache is defined and leaves a list of distinct
keys, not longer than the capacity and with the most recently used key first, and
a map that has exactly the keys of the list, each with an iterator to its node.
Every `get` has the result of the abstract cache that keeps the most recently
used entries. -/
theorem lru_refines {capacity : Int32} (h : 0 ≤ capacity) (ops : List Op) :
    ∃ c, (LRUCache.new capacity).run ops = some (absRun capacity.toNatClampNeg [] ops, c) ∧
      (c.l_.map Node.first).Nodup ∧
      (∀ key, (c.keys key).isSome ↔ key ∈ c.l_.map Node.first) ∧
      (∀ key it, c.keys key = some it →
        ∃ nd ∈ c.l_, nd.first = key ∧ ∀ nd' ∈ c.l_, nd'.addr = it ↔ nd' = nd) ∧
      c.l_.length ≤ capacity.toNatClampNeg ∧
      (c.l_.map Node.first).Pairwise fun a b =>
        ago a ((LRUCache.new capacity).used ops) < ago b ((LRUCache.new capacity).used ops) := by
  obtain ⟨c, us, hrun, hcap, hused, hrep, -⟩ := run_eq (represents_new capacity) ops
  rw [List.nil_append] at hrep
  rw [capacity_new h, stack_nil] at hrun
  have hwf := hrep.wf
  refine ⟨c, hrun, hwf.firsts, fun key => ?_, fun key it hkey => ?_, ?_, ?_⟩
  · constructor
    · intro hsome
      obtain ⟨it, hit⟩ := Option.isSome_iff_exists.mp hsome
      obtain ⟨nd, hnd, -, rfl⟩ := (hwf.index key it).mp hit
      exact List.mem_map_of_mem hnd
    · intro hmem
      obtain ⟨nd, hnd, rfl⟩ := List.mem_map.mp hmem
      exact Option.isSome_iff_exists.mpr ⟨_, (hwf.index _ _).mpr ⟨nd, hnd, rfl, rfl⟩⟩
  · obtain ⟨nd, hnd, rfl, rfl⟩ := (hwf.index key it).mp hkey
    refine ⟨nd, hnd, rfl, fun nd' hnd' => ⟨?_, fun h => h ▸ rfl⟩⟩
    exact List.inj_on_of_nodup_map hwf.addrs hnd' hnd
  · rw [← capacity_new h, ← hcap]
    exact hwf.size
  · rw [← hused, ← map_first_entry, hrep.entries]
    exact (pairwise_stack us).sublist ((List.take_sublist _ _).map _)

/-- A cache of two entries, in which a `get` saves key 1 and the next `put` evicts
key 2. -/
theorem lru_refines_two :
    ∃ c, (LRUCache.new 2).run
        [.put .above 1 1, .put .above 2 2, .get 1, .put .above 3 3, .get 2] =
      some ([none, none, some 1, none, some (-1)], c) ∧ c.l_.length ≤ 2 := by
  obtain ⟨c, hrun, -, -, -, hlen, -⟩ := lru_refines (show (0 : Int32) ≤ 2 by decide)
    [.put .above 1 1, .put .above 2 2, .get 1, .put .above 3 3, .get 2]
  exact ⟨c, hrun, hlen⟩

/-- The reuse-distance law.  `get(x)` after any calls returns the value of the last
`put` of `x` if the number of distinct other keys used since `x` was last used is
less than the capacity, and -1 if there was no `put` of `x` or the number is not
less. -/
theorem reuse_distance {capacity : Int32} (h : 0 ≤ capacity) (ops : List Op) (x : Int32) :
    ∃ results c c', (LRUCache.new capacity).run ops = some (results, c) ∧
      c.get x = some
        (match lastPut x ops with
          | none => -1
          | some v =>
            if (since x ((LRUCache.new capacity).used ops)).toFinset.card <
              capacity.toNatClampNeg then v else -1, c') := by
  obtain ⟨c, us, hrun, hcap, hused, hrep, hlook⟩ := run_eq (represents_new capacity) ops
  rw [List.nil_append] at hrep
  obtain ⟨c', hget, -⟩ := hrep.get_eq x
  refine ⟨_, c, c', hrun, ?_⟩
  have hx : (stack us).lookup x = lastPut x ops := by simpa using hlook x
  rw [hget, Recency.get, lookup_take, hx, length_ahead_stack, hused, hcap, capacity_new h]
  cases lastPut x ops with
  | none => simp
  | some v =>
      by_cases hd : (since x ((LRUCache.new capacity).used ops)).toFinset.card <
          capacity.toNatClampNeg
      · simp [hd]
      · simp [hd]

/-- In a cache of two entries one other key was used since key 1 was. -/
theorem reuse_distance_two :
    ∃ results c c',
      (LRUCache.new 2).run [.put .above 1 10, .put .above 2 20, .get 1, .put .above 3 30] =
        some (results, c) ∧ c.get 1 = some (10, c') :=
  reuse_distance (show (0 : Int32) ≤ 2 by decide)
    [.put .above 1 10, .put .above 2 20, .get 1, .put .above 3 30] 1

end Lru
