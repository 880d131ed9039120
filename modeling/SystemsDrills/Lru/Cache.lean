import SystemsDrills.Lib.Recency

/-!
# The LRU cache

`LRUCache` of `Interview/leetcode/11-lru-cache.cpp`: a `std::list` of the
entries, most recently used first, and a `std::unordered_map` from each key to an
iterator into the list.

A list node has an address, and an iterator is the address of its node.  A new
node may get any address that no node of the list has, also one that an erased
node had.  So a stale iterator may dangle or may point to the node of another
key, and an operation on an iterator that is not in the list is undefined: the
model then returns `none`.

The list refines the entries that the abstract cache keeps, and the map is the
index of the list (`LRUCache.Wf`).
-/

namespace Lru

open Recency

/-! ## `std::list` -/

/-- A node of `std::list<std::pair<int, int>>`. -/
structure Node where
  addr : Nat
  first : Int32
  second : Int32
deriving DecidableEq, Repr

/-- Where a new node is placed, given the addresses in use. -/
structure Alloc where
  addr : List Nat → Nat
  fresh : ∀ inUse, addr inUse ∉ inUse

/-- The allocator that goes above all addresses in use. -/
def Alloc.above : Alloc where
  addr inUse := inUse.sum + 1
  fresh _ h := absurd (List.le_sum_of_mem h) (Nat.not_succ_le_self _)

/-- `l.splice(l.begin(), l, it)`. -/
def splice (l : List Node) (it : Nat) : Option (List Node) :=
  (l.find? fun nd => nd.addr = it).map (· :: l.eraseP fun nd => nd.addr = it)

/-- `l.front().second = value`. -/
def setFront (value : Int32) : List Node → Option (List Node)
  | [] => none
  | nd :: l => some ({ nd with second := value } :: l)

/-! ## `LRUCache` -/

structure LRUCache where
  l_ : List Node
  /-- `keys.find`. -/
  keys : Int32 → Option Nat
  capacity : UInt64

/-- The constructor. -/
def LRUCache.new (capacity : Int32) : LRUCache where
  l_ := []
  keys := fun _ => none
  capacity := capacity.toInt64.toUInt64

def LRUCache.get (c : LRUCache) (key : Int32) : Option (Int32 × LRUCache) :=
  match c.keys key with
  | none => some (-1, c)
  | some it => do
    let l ← splice c.l_ it
    let front ← l.head?
    return (front.second, { c with l_ := l })

/-- The eviction at the end of `put`. -/
def LRUCache.evict (c : LRUCache) : Option LRUCache :=
  if c.capacity.toNat < c.l_.length then do
    let back ← c.l_.getLast?
    return { c with l_ := c.l_.dropLast, keys := Function.update c.keys back.first none }
  else
    some c

def LRUCache.put (c : LRUCache) (new : Alloc) (key value : Int32) : Option LRUCache :=
  match c.keys key with
  | some it => do
    let l ← splice c.l_ it
    let l ← setFront value l
    return { c with l_ := l }
  | none =>
    let node : Node := ⟨new.addr (c.l_.map Node.addr), key, value⟩
    LRUCache.evict
      { c with l_ := node :: c.l_, keys := Function.update c.keys key (some node.addr) }

/-! ## The invariant -/

/-- The pair in a node. -/
def Node.entry (nd : Node) : Int32 × Int32 := (nd.first, nd.second)

/-- The map gives for each key of the list an iterator to its node, and nothing
else. -/
def Indexes (keys : Int32 → Option Nat) (l : List Node) : Prop :=
  ∀ key it, keys key = some it ↔ ∃ nd ∈ l, nd.addr = it ∧ nd.first = key

structure LRUCache.Wf (c : LRUCache) : Prop where
  addrs : (c.l_.map Node.addr).Nodup
  firsts : (c.l_.map Node.first).Nodup
  index : Indexes c.keys c.l_
  size : c.l_.length ≤ c.capacity.toNat

/-- The cache keeps the first entries of `used`. -/
structure LRUCache.Represents (c : LRUCache) (used : List (Int32 × Int32)) : Prop where
  wf : c.Wf
  distinct : Distinct used
  entries : c.l_.map Node.entry = used.take c.capacity.toNat

theorem map_first_entry (l : List Node) : (l.map Node.entry).map Prod.fst = l.map Node.first := by
  rw [List.map_map]
  rfl

variable {c : LRUCache} {used : List (Int32 × Int32)}

theorem LRUCache.Wf.new (capacity : Int32) : (LRUCache.new capacity).Wf :=
  ⟨List.nodup_nil, List.nodup_nil, by simp [LRUCache.new, Indexes], Nat.zero_le _⟩

/-- A key without an iterator is in no node. -/
theorem LRUCache.Wf.notMem (h : c.Wf) {key : Int32} (hkey : c.keys key = none) :
    key ∉ c.l_.map Node.first := by
  intro hmem
  obtain ⟨nd, hnd, hfirst⟩ := List.mem_map.mp hmem
  have := (h.index key nd.addr).mpr ⟨nd, hnd, rfl, hfirst⟩
  simp [hkey] at this

/-- With addresses and keys distinct, to erase a node is to erase its key. -/
theorem eraseP_addr {l : List Node} {nd : Node} (haddr : (l.map Node.addr).Nodup)
    (hfirst : (l.map Node.first).Nodup) (hnd : nd ∈ l) :
    l.eraseP (fun x => x.addr = nd.addr) = l.filter fun x => x.first ≠ nd.first := by
  induction l with
  | nil => rfl
  | cons x l ih =>
      obtain ⟨ha, haddr⟩ := List.nodup_cons.mp haddr
      obtain ⟨hf, hfirst⟩ := List.nodup_cons.mp hfirst
      rcases List.mem_cons.mp hnd with rfl | hnd
      · rw [List.eraseP_cons_of_pos (by simp), List.filter_cons_of_neg (by simp)]
        refine (List.filter_eq_self.mpr fun y hy => ?_).symm
        have : y.first ≠ nd.first := fun h => hf (h ▸ List.mem_map_of_mem hy)
        simpa using this
      · have ha' : x.addr ≠ nd.addr := fun h => ha (h ▸ List.mem_map_of_mem hnd)
        have hf' : x.first ≠ nd.first := fun h => hf (h ▸ List.mem_map_of_mem hnd)
        rw [List.eraseP_cons_of_neg (by simpa using ha'), ih haddr hfirst hnd,
          List.filter_cons_of_pos (by simpa using hf')]

theorem map_entry_filter (l : List Node) (key : Int32) :
    (l.filter fun x => x.first ≠ key).map Node.entry = without key (l.map Node.entry) := by
  rw [without, List.filter_map]
  rfl

/-- A stored iterator is good: the splice finds the node of the key. -/
theorem LRUCache.Wf.splice_eq (h : c.Wf) {key : Int32} {it : Nat} (hkey : c.keys key = some it) :
    ∃ nd ∈ c.l_, nd.addr = it ∧ nd.first = key ∧
      splice c.l_ it = some (nd :: c.l_.filter fun x => x.first ≠ key) := by
  obtain ⟨nd, hnd, rfl, rfl⟩ := (h.index key it).mp hkey
  refine ⟨nd, hnd, rfl, rfl, ?_⟩
  have hfind : c.l_.find? (fun x => x.addr = nd.addr) = some nd := by
    obtain ⟨x, hx⟩ : ∃ x, c.l_.find? (fun x => x.addr = nd.addr) = some x := by
      rw [← Option.isSome_iff_exists, List.find?_isSome]
      exact ⟨nd, hnd, by simp⟩
    have hxa : x.addr = nd.addr := by simpa using List.find?_some hx
    rw [hx, List.inj_on_of_nodup_map h.addrs (List.mem_of_find?_eq_some hx) hnd hxa]
  rw [splice, hfind, eraseP_addr h.addrs h.firsts hnd]
  rfl

/-! ## The operations keep it -/

/-- The cache with a node moved to the front and its value set. -/
def LRUCache.moveFront (c : LRUCache) (nd : Node) (value : Int32) : LRUCache :=
  { c with l_ := { nd with second := value } :: c.l_.filter fun x => x.first ≠ nd.first }

theorem LRUCache.Wf.moveFront (h : c.Wf) {nd : Node} (hnd : nd ∈ c.l_) (value : Int32) :
    (c.moveFront nd value).Wf := by
  have hsub := List.filter_sublist (p := fun x : Node => x.first ≠ nd.first) (l := c.l_)
  have hmem : ∀ {x}, x ∈ c.l_.filter (fun x => x.first ≠ nd.first) ↔
      x ∈ c.l_ ∧ x.first ≠ nd.first := by simp
  refine ⟨List.nodup_cons.mpr ⟨?_, h.addrs.sublist (hsub.map _)⟩,
    List.nodup_cons.mpr ⟨?_, h.firsts.sublist (hsub.map _)⟩, fun key it => ?_, ?_⟩
  · intro ha
    obtain ⟨x, hx, hax⟩ := List.mem_map.mp ha
    obtain ⟨hx, hne⟩ := hmem.mp hx
    exact hne (congrArg Node.first (List.inj_on_of_nodup_map h.addrs hx hnd hax))
  · intro hf
    obtain ⟨x, hx, hfx⟩ := List.mem_map.mp hf
    exact (hmem.mp hx).2 hfx
  · refine (h.index key it).trans ⟨?_, ?_⟩
    · rintro ⟨x, hx, rfl, rfl⟩
      by_cases hfx : x.first = nd.first
      · obtain rfl := List.inj_on_of_nodup_map h.firsts hx hnd hfx
        exact ⟨_, List.mem_cons_self, rfl, rfl⟩
      · exact ⟨x, List.mem_cons_of_mem _ (hmem.mpr ⟨hx, hfx⟩), rfl, rfl⟩
    · rintro ⟨x, hx, rfl, rfl⟩
      rcases List.mem_cons.mp hx with rfl | hx
      · exact ⟨nd, hnd, rfl, rfl⟩
      · exact ⟨x, (hmem.mp hx).1, rfl, rfl⟩
  · exact (List.length_filter_lt_length_iff_exists.mpr ⟨nd, hnd, by simp⟩).trans_le h.size

/-- A hit, or an update of a key that is there. -/
theorem LRUCache.Represents.moveFront (h : c.Represents used) {nd : Node} (hnd : nd ∈ c.l_)
    (value : Int32) : (c.moveFront nd value).Represents (toFront nd.first value used) := by
  refine ⟨h.wf.moveFront hnd value, h.distinct.toFront _ _, ?_⟩
  have hkey : nd.first ∈ (used.take c.capacity.toNat).map Prod.fst := by
    rw [← h.entries, map_first_entry]
    exact List.mem_map_of_mem hnd
  show (nd.first, value) :: (c.l_.filter fun x => x.first ≠ nd.first).map Node.entry =
    (toFront nd.first value used).take c.capacity.toNat
  rw [take_toFront h.distinct, List.take_of_length_le, map_entry_filter, h.entries]
  · rfl
  · exact (length_toFront_le hkey).trans (List.length_take_le _ _)

/-- `get` of the code is `get` of the abstract cache. -/
theorem LRUCache.Represents.get_eq (h : c.Represents used) (key : Int32) :
    ∃ c', c.get key = some ((Recency.get c.capacity.toNat key used).1.getD (-1), c') ∧
      c'.capacity = c.capacity ∧ c'.Represents (Recency.get c.capacity.toNat key used).2 ∧
      (c.keys key).isSome = (Recency.get c.capacity.toNat key used).1.isSome := by
  rw [LRUCache.get, Recency.get]
  cases hkey : c.keys key with
  | none =>
      have hnone : (used.take c.capacity.toNat).lookup key = none := by
        rw [← h.entries]
        refine Option.eq_none_iff_forall_ne_some.mpr fun v hv => h.wf.notMem hkey ?_
        rw [← map_first_entry]
        exact mem_of_lookup hv
      rw [hnone]
      exact ⟨c, rfl, rfl, h, rfl⟩
  | some it =>
      obtain ⟨nd, hnd, rfl, rfl, hsplice⟩ := h.wf.splice_eq hkey
      have hsome : (used.take c.capacity.toNat).lookup nd.first = some nd.second :=
        lookup_of_mem (e := nd.entry) (h.distinct.take _) (h.entries ▸ List.mem_map_of_mem hnd)
      rw [hsome]
      refine ⟨c.moveFront nd nd.second, ?_, rfl, h.moveFront hnd nd.second, rfl⟩
      simp [hsplice, LRUCache.moveFront]

/-- The index after a node with a new key was added. -/
theorem Indexes.cons {keys : Int32 → Option Nat} {l : List Node} (h : Indexes keys l) {nd : Node}
    (hnd : nd.first ∉ l.map Node.first) :
    Indexes (Function.update keys nd.first (some nd.addr)) (nd :: l) := by
  intro key it
  by_cases hk : key = nd.first
  · subst hk
    simp only [Function.update_self, Option.some.injEq, List.mem_cons]
    constructor
    · rintro rfl
      exact ⟨nd, .inl rfl, rfl, rfl⟩
    · rintro ⟨x, rfl | hx, ha, hf⟩
      · exact ha
      · exact absurd (hf ▸ List.mem_map_of_mem hx) hnd
  · rw [Function.update_of_ne hk, h]
    simp only [List.mem_cons]
    refine ⟨fun ⟨x, hx, h⟩ => ⟨x, .inr hx, h⟩, ?_⟩
    rintro ⟨x, rfl | hx, ha, hf⟩
    · exact absurd hf.symm hk
    · exact ⟨x, hx, ha, hf⟩

/-- The index after the last node was dropped. -/
theorem Indexes.dropLast {keys : Int32 → Option Nat} {l : List Node} {back : Node}
    (h : Indexes keys (l ++ [back])) (hback : back.first ∉ l.map Node.first) :
    Indexes (Function.update keys back.first none) l := by
  intro key it
  by_cases hk : key = back.first
  · subst hk
    simp only [Function.update_self, reduceCtorEq, false_iff]
    rintro ⟨nd, hnd, -, hf⟩
    exact hback (hf ▸ List.mem_map_of_mem hnd)
  · rw [Function.update_of_ne hk, h]
    simp only [List.mem_append, List.mem_singleton]
    refine ⟨?_, fun ⟨nd, hnd, h⟩ => ⟨nd, .inl hnd, h⟩⟩
    rintro ⟨nd, hnd | rfl, ha, hf⟩
    · exact ⟨nd, hnd, ha, hf⟩
    · exact absurd hf.symm hk

/-- The eviction, right after a node was added. -/
theorem evict_eq (haddr : (c.l_.map Node.addr).Nodup) (hfirst : (c.l_.map Node.first).Nodup)
    (hindex : Indexes c.keys c.l_) (hsize : c.l_.length ≤ c.capacity.toNat + 1) :
    ∃ c', c.evict = some c' ∧ c'.Wf ∧ c'.capacity = c.capacity ∧
      c'.l_ = c.l_.take c.capacity.toNat := by
  rw [LRUCache.evict]
  split
  · rename_i hover
    obtain ⟨l, back, hl⟩ := (List.eq_nil_or_concat' c.l_).resolve_left
      (List.ne_nil_of_length_pos (by omega))
    have hlen : l.length = c.capacity.toNat := by
      rw [hl, List.length_append, List.length_singleton] at hover hsize
      omega
    rw [hl] at haddr hfirst hindex
    have hsub := List.sublist_append_left l [back]
    have hback : back.first ∉ l.map Node.first := by
      rw [List.map_append, List.nodup_append'] at hfirst
      exact fun hmem => hfirst.2.2 hmem List.mem_cons_self
    refine ⟨{ c with l_ := l, keys := Function.update c.keys back.first none }, by simp [hl],
      ⟨haddr.sublist (hsub.map _), hfirst.sublist (hsub.map _), hindex.dropLast hback, hlen.le⟩,
      rfl, ?_⟩
    rw [hl, ← hlen, List.take_left]
  · rename_i hfits
    have hsize : c.l_.length ≤ c.capacity.toNat := Nat.le_of_not_lt hfits
    exact ⟨c, rfl, ⟨haddr, hfirst, hindex, hsize⟩, rfl, (List.take_of_length_le hsize).symm⟩

/-- `put` of the code uses the key with the new value. -/
theorem LRUCache.Represents.put_eq (h : c.Represents used) (new : Alloc) (key value : Int32) :
    ∃ c', c.put new key value = some c' ∧ c'.capacity = c.capacity ∧
      c'.Represents (toFront key value used) := by
  rw [LRUCache.put]
  cases hkey : c.keys key with
  | some it =>
      obtain ⟨nd, hnd, rfl, rfl, hsplice⟩ := h.wf.splice_eq hkey
      refine ⟨c.moveFront nd value, ?_, rfl, h.moveFront hnd value⟩
      simp [hsplice, setFront, LRUCache.moveFront]
  | none =>
      have hnot := h.wf.notMem hkey
      let node : Node := ⟨new.addr (c.l_.map Node.addr), key, value⟩
      obtain ⟨c', hc', hwf, hcap, hl⟩ := evict_eq
        (c := { c with l_ := node :: c.l_, keys := Function.update c.keys key (some node.addr) })
        (List.nodup_cons.mpr ⟨new.fresh _, h.wf.addrs⟩) (List.nodup_cons.mpr ⟨hnot, h.wf.firsts⟩)
        (h.wf.index.cons (show node.first ∉ _ from hnot)) (Nat.succ_le_succ h.wf.size)
      refine ⟨c', hc', hcap, hwf, h.distinct.toFront _ _, ?_⟩
      rw [hl, hcap, List.map_take, take_toFront h.distinct, toFront, ← h.entries,
        without_eq_self (by rw [map_first_entry]; exact hnot)]
      rfl

end Lru
