import Mathlib.Tactic

/-!
# The pool allocator

`init_pool` and `allocate` of `pool_allocator/pa.c`.  The free list is threaded through the
first word of each free block.  A pointer is an address, `NULL` is 0, and the memory is read
as the word that `node->next` names at each address.

`allocate` means to test its argument for `NULL` and assigns `NULL` to it, so the test never
succeeds.  The calls that find a block are right, and the first call that finds none reads
through `NULL`.
-/

namespace Pool

/-! ## The code -/

/-- `BLOCK_SIZE`, which is `sizeof(struct block)`. -/
def blockSize : UInt64 := (1 : UInt64) <<< 6

/-- The words `node->next` and the global `free_list`. -/
structure State where
  next : UInt64 → UInt64
  free_list : UInt64

/-- `pool + i`. -/
def block (pool : UInt64) (i : Nat) : UInt64 := pool + UInt64.ofNat i * blockSize

/-- `node->next = p`. -/
@[simps] def State.link (s : State) (node p : UInt64) : State :=
  { s with next := Function.update s.next node p }

/-- The first `k` rounds of the loop of `init_pool`. -/
def State.links (s : State) (pool : UInt64) (k : Nat) : State :=
  (List.range k).foldl (fun s i => s.link (block pool i) (block pool (i + 1))) s

/-- `init_pool`. -/
def initPool (malloc : UInt64 → UInt64) (s : State) (pool_size : UInt64) : UInt64 × State :=
  let pool := malloc (pool_size * blockSize)
  if pool = 0 then
    (0, s)
  else
    let i := (pool_size - 1).toNat
    (pool, { (s.links pool i).link (block pool i) 0 with free_list := pool })

/-- `allocate`.  It has no value if it reads through `NULL`. -/
def allocate (_node : UInt64) (s : State) : Option (UInt64 × State) :=
  -- `if (node = NULL)`
  let node : UInt64 := 0
  if node ≠ 0 then
    some (0, s)
  else
    let curr := s.free_list
    if s.free_list = 0 then none else some (curr, { s with free_list := s.next s.free_list })

/-- `m` calls `allocate(free_list)`: what they return, and the state after them. -/
def allocates : Nat → State → Option (List UInt64 × State)
  | 0, s => some ([], s)
  | m + 1, s => do
    let (p, s) ← allocate s.free_list s
    let (ps, s) ← allocates m s
    return (p :: ps, s)

/-! ## List segments -/

/-- The nodes from `p` on are `ps`, and the last one points to `q`. -/
inductive Segment (next : UInt64 → UInt64) : UInt64 → List UInt64 → UInt64 → Prop where
  | nil : Segment next p [] p
  | cons : p ≠ 0 → Segment next (next p) ps q → Segment next p (p :: ps) q

theorem Segment.eq_nil_iff {next : UInt64 → UInt64} {p : UInt64} {ps : List UInt64}
    (h : Segment next p ps 0) : p = 0 ↔ ps = [] := by
  cases h with
  | nil => simp
  | cons hp _ => simp [hp]

/-- Nodes that point each to the next one. -/
theorem segment_of_links {next : UInt64 → UInt64} {node : Nat → UInt64} {n : Nat}
    (hne : ∀ i < n, node i ≠ 0) (hnext : ∀ i < n, next (node i) = node (i + 1)) {k : Nat}
    (hk : k ≤ n) : Segment next (node (n - k)) ((List.range' (n - k) k).map node) (node n) := by
  induction k with
  | zero => exact .nil
  | succ k ih =>
      have hstep : n - (k + 1) + 1 = n - k := by omega
      rw [List.range'_succ, List.map_cons, hstep]
      refine .cons (hne _ (by omega)) ?_
      rw [hnext _ (by omega), hstep]
      exact ih (by omega)

/-! ## `init_pool` -/

section Init

variable {pool : UInt64} {n : Nat} (hpool : pool ≠ 0) (hfits : pool.toNat + n * 64 ≤ 2 ^ 64)

include hfits in
theorem toNat_block {i : Nat} (hi : i < n) : (block pool i).toNat = pool.toNat + i * 64 := by
  have hsize : blockSize.toNat = 64 := rfl
  have := pool.toNat_lt
  rw [block, UInt64.toNat_add, UInt64.toNat_mul, hsize, UInt64.toNat_ofNat']
  omega

include hfits in
theorem block_inj {i j : Nat} (hi : i < n) (hj : j < n) (h : block pool i = block pool j) :
    i = j := by
  have := congrArg UInt64.toNat h
  rw [toNat_block hfits hi, toNat_block hfits hj] at this
  omega

include hpool hfits in
theorem block_ne_zero {i : Nat} (hi : i < n) : block pool i ≠ 0 := by
  intro h
  have h0 := congrArg UInt64.toNat h
  rw [toNat_block hfits hi, UInt64.toNat_zero] at h0
  exact hpool (UInt64.toNat_inj.mp (by rw [UInt64.toNat_zero]; omega))

include hfits in
/-- The loop links each block to the one after it. -/
theorem links_next (s : State) {k : Nat} (hk : k < n) {i : Nat} (hi : i < k) :
    (s.links pool k).next (block pool i) = block pool (i + 1) := by
  induction k with
  | zero => omega
  | succ k ih =>
      rw [State.links, List.range_succ, List.foldl_append]
      show Function.update (s.links pool k).next (block pool k) _ _ = _
      by_cases hik : i = k
      · rw [hik, Function.update_self]
      · rw [Function.update_of_ne fun h => hik (block_inj hfits (by omega) (by omega) h)]
        exact ih (by omega) (by omega)

include hpool hfits in
/-- After `init_pool` the free list has all blocks in order. -/
theorem segment_initPool (s : State) (hn : 0 < n) :
    Segment ((s.links pool (n - 1)).link (block pool (n - 1)) 0).next pool
      ((List.range n).map (block pool)) 0 := by
  let node i := if i < n then block pool i else 0
  have hblock : ∀ i < n, node i = block pool i := fun i hi => if_pos hi
  have hlinks : ∀ i < n,
      ((s.links pool (n - 1)).link (block pool (n - 1)) 0).next (node i) = node (i + 1) := by
    intro i hi
    rw [hblock i hi, State.link_next]
    by_cases hlast : i = n - 1
    · have hend : node (i + 1) = 0 := if_neg (by omega)
      rw [hend, hlast, Function.update_self]
    · rw [Function.update_of_ne fun h => hlast (block_inj hfits hi (by omega) h),
        hblock (i + 1) (by omega)]
      exact links_next hfits s (by omega) (by omega)
  have hne : ∀ i < n, node i ≠ 0 := by
    intro i hi
    rw [hblock i hi]
    exact block_ne_zero hpool hfits hi
  have hseg := segment_of_links hne hlinks (le_refl n)
  have h0 : node 0 = pool := by
    rw [hblock 0 hn, block]
    simp
  have hnodes : (List.range n).map node = (List.range n).map (block pool) :=
    List.map_congr_left fun i hi => hblock i (List.mem_range.mp hi)
  rw [Nat.sub_self, h0, ← List.range_eq_range', hnodes, show node n = 0 from if_neg (lt_irrefl n)]
    at hseg
  exact hseg

end Init

/-! ## `allocate` -/

theorem allocate_cons {s : State} {p : UInt64} {ps : List UInt64}
    (h : Segment s.next s.free_list (p :: ps) 0) :
    allocate s.free_list s = some (p, { s with free_list := s.next p }) ∧
      Segment s.next (s.next p) ps 0 := by
  obtain ⟨next, free_list⟩ := s
  cases h with
  | cons hp h => exact ⟨by simp [allocate, hp], h⟩

theorem allocate_nil {s : State} (h : Segment s.next s.free_list [] 0) :
    allocate s.free_list s = none := by
  have h0 := h.eq_nil_iff.mpr rfl
  simp [allocate, h0]

/-- As long as there are blocks, each call takes the first one. -/
theorem allocates_eq {s : State} {ps : List UInt64} (h : Segment s.next s.free_list ps 0) {m : Nat}
    (hm : m ≤ ps.length) :
    ∃ s', allocates m s = some (ps.take m, s') ∧ Segment s'.next s'.free_list (ps.drop m) 0 := by
  induction m generalizing s ps with
  | zero => exact ⟨s, rfl, h⟩
  | succ m ih =>
      cases ps with
      | nil => simp at hm
      | cons p ps =>
          obtain ⟨halloc, hrest⟩ := allocate_cons h
          obtain ⟨s', hcalls, hseg⟩ := ih (s := { s with free_list := s.next p }) hrest
            (Nat.le_of_succ_le_succ hm)
          refine ⟨s', ?_, hseg⟩
          rw [allocates, halloc]
          simp only [Option.bind_eq_bind, Option.bind_some]
          rw [hcalls]
          rfl

/-- One call too many reads through `NULL`. -/
theorem allocates_eq_none {s : State} {ps : List UInt64} (h : Segment s.next s.free_list ps 0)
    {m : Nat} (hm : ps.length < m) : allocates m s = none := by
  induction m generalizing s ps with
  | zero => simp at hm
  | succ m ih =>
      rw [allocates]
      cases ps with
      | nil => rw [allocate_nil h]; rfl
      | cons p ps =>
          obtain ⟨halloc, hrest⟩ := allocate_cons h
          rw [halloc]
          simp only [Option.bind_eq_bind, Option.bind_some]
          rw [ih (s := { s with free_list := s.next p }) hrest (Nat.lt_of_succ_lt_succ hm)]
          rfl

/-! ## The pool -/

/-- `m` calls on a pool of `n` blocks do what they should.  The first ones, at most `n`,
return blocks of the pool, each at most once.  `free_list` is `NULL` exactly when all
blocks have been handed out.  The further calls return `NULL` and change nothing. -/
def HandsOut (pool : UInt64) (n : Nat) (s : State) (m : Nat) : Prop :=
  ∃ ps s', allocates (min m n) s = some (ps, s') ∧
    ps.length = min m n ∧ ps.Nodup ∧ (∀ p ∈ ps, ∃ i < n, p = block pool i) ∧
    (s'.free_list = 0 ↔ n ≤ m) ∧
    allocates m s = some (ps ++ List.replicate (m - n) 0, s')

section

variable {pool : UInt64} {n m : Nat} (hfits : pool.toNat + n * 64 ≤ 2 ^ 64)
  {s : State} (h : Segment s.next s.free_list ((List.range n).map (block pool)) 0)

include hfits h in
/-- While there are blocks the calls do what they should. -/
theorem handsOut_of_le (hm : m ≤ n) : HandsOut pool n s m := by
  obtain ⟨s', hcalls, hseg⟩ := allocates_eq h (m := m) (by simpa using hm)
  rw [← List.map_take, List.take_range, min_eq_left hm] at hcalls
  refine ⟨(List.range m).map (block pool), s', ?_, ?_, ?_, ?_, ?_, ?_⟩
  · rwa [min_eq_left hm]
  · simp [hm]
  · refine List.nodup_range.map_on fun i hi j hj hij => ?_
    rw [List.mem_range] at hi hj
    exact block_inj hfits (by omega) (by omega) hij
  · intro p hp
    obtain ⟨i, hi, rfl⟩ := List.mem_map.mp hp
    exact ⟨i, (List.mem_range.mp hi).trans_le hm, rfl⟩
  · rw [hseg.eq_nil_iff, List.drop_eq_nil_iff, List.length_map, List.length_range]
  · rwa [Nat.sub_eq_zero_of_le hm, List.replicate_zero, List.append_nil]

include h in
theorem not_handsOut_of_lt (hm : n < m) : ¬ HandsOut pool n s m := by
  rintro ⟨ps, s', -, -, -, -, -, hcalls⟩
  rw [allocates_eq_none h (by simpa using hm)] at hcalls
  cases hcalls

end

/-- The pool hands out each of its blocks once, but has no answer after that.  For every
pool whose size in bytes does not wrap, and with `malloc` giving a block that is not `NULL`
and lies in the address space, `m` calls do what they should exactly if there are no more
of them than blocks. -/
theorem hands_out_iff {malloc : UInt64 → UInt64} {pool_size : UInt64} (hpos : 1 ≤ pool_size.toNat)
    (hwrap : pool_size.toNat * 64 < 2 ^ 64) (hmalloc : malloc (pool_size * blockSize) ≠ 0)
    (hblock : (malloc (pool_size * blockSize)).toNat + (pool_size * blockSize).toNat ≤ 2 ^ 64)
    (s : State) (m : Nat) :
    HandsOut (initPool malloc s pool_size).1 pool_size.toNat (initPool malloc s pool_size).2 m ↔
      m ≤ pool_size.toNat := by
  have hfits : (malloc (pool_size * blockSize)).toNat + pool_size.toNat * 64 ≤ 2 ^ 64 := by
    have hsize : blockSize.toNat = 64 := rfl
    rwa [UInt64.toNat_mul, hsize, Nat.mod_eq_of_lt hwrap] at hblock
  have hlast : (pool_size - 1).toNat = pool_size.toNat - 1 := by
    have := pool_size.toNat_lt
    rw [UInt64.toNat_sub, UInt64.toNat_one]
    omega
  have hinit : initPool malloc s pool_size = (malloc (pool_size * blockSize),
      { (s.links (malloc (pool_size * blockSize)) (pool_size.toNat - 1)).link
          (block (malloc (pool_size * blockSize)) (pool_size.toNat - 1)) 0 with
        free_list := malloc (pool_size * blockSize) }) := by
    rw [initPool, hlast]
    exact if_neg hmalloc
  rw [hinit]
  have hseg := segment_initPool hmalloc hfits s hpos
  constructor
  · intro hands
    by_contra hm
    exact not_handsOut_of_lt (s := State.mk _ _) hseg (not_le.mp hm) hands
  · exact fun hm => handsOut_of_le hfits (s := State.mk _ _) hseg hm

/-- A pool of two blocks. -/
theorem hands_out_iff_two :
    HandsOut (initPool (fun _ => 64) ⟨fun _ => 0, 0⟩ 2).1 2
      (initPool (fun _ => 64) ⟨fun _ => 0, 0⟩ 2).2 2 :=
  (hands_out_iff (by decide) (by decide) (by decide) (by decide) _ 2).mpr (by decide)

/-- The second call on a pool of one block reads through `NULL`. -/
theorem not_handsOut_one :
    ¬ HandsOut (initPool (fun _ => 64) ⟨fun _ => 0, 0⟩ 1).1 1
      (initPool (fun _ => 64) ⟨fun _ => 0, 0⟩ 1).2 2 := by
  have hcrash : allocates 2 (initPool (fun _ => 64) ⟨fun _ => 0, 0⟩ 1).2 = none := rfl
  rintro ⟨ps, s', -, -, -, -, -, hcalls⟩
  rw [hcrash] at hcalls
  cases hcalls

end Pool
