import SystemsDrills.Pool.Allocator

/-!
# The stores of `init_pool`

The loop of `init_pool` runs while `i < pool_size - 1`, and the pool has `pool_size * 64` bytes.
Both are taken modulo `2 ^ 64`.  Here the loop is a loop with fuel that keeps a list of the nodes it
writes to, and `initPoolLog_eq` ties it to `initPool`.

With a size of 0 the bound wraps, and with a size from `2 ^ 58` on the number of bytes does.  In
both cases there are fewer blocks than nodes, and the first node behind the pool is written to.
-/

namespace Pool

/-! ## The code -/

/-- The loop of `init_pool`, with the nodes written so far. -/
def linkLoop (pool bound : UInt64) :
    Nat → UInt64 → State → List UInt64 → Option (UInt64 × State × List UInt64)
  | 0, _, _, _ => none
  | fuel + 1, i, s, written =>
    if i < bound then
      let node := block pool i.toNat
      linkLoop pool bound fuel (i + 1) (s.link node (block pool (i.toNat + 1))) (written ++ [node])
    else
      some (i, s, written)

/-- `init_pool`, with the nodes it writes to. -/
def initPoolLog (fuel : Nat) (malloc : UInt64 → UInt64) (s : State) (pool_size : UInt64) :
    Option (UInt64 × State × List UInt64) :=
  let pool := malloc (pool_size * blockSize)
  if pool = 0 then
    some (0, s, [])
  else do
    let (i, s, written) ← linkLoop pool (pool_size - 1) fuel 0 s []
    let node := block pool i.toNat
    return (pool, { s.link node 0 with free_list := pool }, written ++ [node])

/-- `sizeof(struct list)`. -/
def nodeSize : Nat := 8

/-- The node at this address is inside of a block of `bytes` bytes at `pool`. -/
def NodeInside (pool bytes node : UInt64) : Prop := (node - pool).toNat + nodeSize ≤ bytes.toNat

/-- The loop ends, only nodes inside of the pool are written, and the free list has `pool_size`
different blocks of it. -/
def PoolFits (malloc : UInt64 → UInt64) (s : State) (pool_size : UInt64) : Prop :=
  ∃ pool s' written,
    (∃ n, ∀ fuel, n ≤ fuel → initPoolLog fuel malloc s pool_size = some (pool, s', written)) ∧
    (∀ node ∈ written, NodeInside pool (pool_size * blockSize) node) ∧
    ∃ ps, Segment s'.next s'.free_list ps 0 ∧ ps.length = pool_size.toNat ∧ ps.Nodup ∧
      ∀ p ∈ ps, ∃ i < pool_size.toNat, p = block pool i

/-! ## The loop -/

/-- The loop ends and links the blocks up to the bound. -/
theorem linkLoop_eq (pool bound : UInt64) (s : State) (fuel : Nat) {k : Nat} (hk : k ≤ bound.toNat)
    (hfuel : bound.toNat < k + fuel) :
    linkLoop pool bound fuel (UInt64.ofNat k) (s.links pool k) ((List.range k).map (block pool)) =
      some (bound, s.links pool bound.toNat, (List.range bound.toNat).map (block pool)) := by
  induction fuel generalizing k with
  | zero => omega
  | succ fuel ih =>
      have htoNat : (UInt64.ofNat k).toNat = k :=
        UInt64.toNat_ofNat_of_lt' (lt_of_le_of_lt hk bound.toNat_lt)
      rw [linkLoop]
      by_cases hlt : k < bound.toNat
      · have hnext : UInt64.ofNat k + 1 = UInt64.ofNat (k + 1) := by simp
        have hlinks : (s.links pool k).link (block pool k) (block pool (k + 1)) =
            s.links pool (k + 1) := by
          rw [State.links, State.links, List.range_succ, List.foldl_append]
          rfl
        have hwritten : (List.range k).map (block pool) ++ [block pool k] =
            (List.range (k + 1)).map (block pool) := by
          rw [List.range_succ, List.map_append]
          rfl
        rw [if_pos (UInt64.lt_iff_toNat_lt.mpr (by rwa [htoNat])), htoNat, hnext]
        simp only [hlinks, hwritten]
        exact ih hlt (by omega)
      · have hend : k = bound.toNat := by omega
        rw [if_neg (by rw [UInt64.lt_iff_toNat_lt, htoNat]; exact hlt), hend, UInt64.ofNat_toNat]

/-- `initPool` with the nodes that were written. -/
theorem initPoolLog_eq {malloc : UInt64 → UInt64} {pool_size : UInt64}
    (hmalloc : malloc (pool_size * blockSize) ≠ 0) (s : State) {fuel : Nat}
    (hfuel : (pool_size - 1).toNat < fuel) :
    initPoolLog fuel malloc s pool_size =
      some (malloc (pool_size * blockSize), (initPool malloc s pool_size).2,
        (List.range ((pool_size - 1).toNat + 1)).map (block (malloc (pool_size * blockSize)))) := by
  have hloop := linkLoop_eq (malloc (pool_size * blockSize)) (pool_size - 1) s fuel
    (Nat.zero_le _) (by omega)
  have hinit : (initPool malloc s pool_size).2 =
      { (s.links (malloc (pool_size * blockSize)) (pool_size - 1).toNat).link
          (block (malloc (pool_size * blockSize)) (pool_size - 1).toNat) 0 with
        free_list := malloc (pool_size * blockSize) } := by
    rw [initPool, if_neg hmalloc]
  rw [initPoolLog, if_neg hmalloc, hinit, List.range_succ, List.map_append]
  exact congrArg (Option.bind · _) hloop

/-! ## The nodes -/

theorem toNat_bytes (pool_size : UInt64) :
    (pool_size * blockSize).toNat = pool_size.toNat * 64 % 2 ^ 64 := UInt64.toNat_mul ..

theorem toNat_block_sub (pool : UInt64) (i : Nat) :
    (block pool i - pool).toNat = i * 64 % 2 ^ 64 := by
  have hsub : block pool i - pool = UInt64.ofNat i * blockSize := by
    rw [block, UInt64.add_comm, UInt64.add_sub_cancel]
  rw [hsub, toNat_bytes, UInt64.toNat_ofNat', Nat.mod_mul_mod]

/-- The first node behind the pool is written to, if the bound or the number of bytes wraps. -/
theorem exists_not_nodeInside {pool pool_size : UInt64}
    (h : ¬ (1 ≤ pool_size.toNat ∧ pool_size.toNat < 2 ^ 58)) :
    ∃ i < (pool_size - 1).toNat + 1, ¬ NodeInside pool (pool_size * blockSize) (block pool i) := by
  have hlt := pool_size.toNat_lt
  refine ⟨pool_size.toNat % 2 ^ 58, ?_, ?_⟩
  · rw [UInt64.toNat_sub, UInt64.toNat_one]
    omega
  · rw [NodeInside, toNat_block_sub, toNat_bytes, nodeSize]
    omega

theorem nodeInside_of_lt {pool pool_size : UInt64} (hwrap : pool_size.toNat < 2 ^ 58) {i : Nat}
    (hi : i < pool_size.toNat) : NodeInside pool (pool_size * blockSize) (block pool i) := by
  rw [NodeInside, toNat_block_sub, toNat_bytes, nodeSize]
  omega

/-- So the other sizes are not right. -/
theorem PoolFits.size {malloc : UInt64 → UInt64} {pool_size : UInt64} {s : State}
    (h : PoolFits malloc s pool_size) (hmalloc : malloc (pool_size * blockSize) ≠ 0) :
    1 ≤ pool_size.toNat ∧ pool_size.toNat < 2 ^ 58 := by
  obtain ⟨pool, s', written, ⟨n, hrun⟩, hinside, -⟩ := h
  by_contra hnot
  have hend := hrun (max n ((pool_size - 1).toNat + 1)) (le_max_left ..)
  rw [initPoolLog_eq hmalloc s (Nat.lt_of_succ_le (le_max_right ..))] at hend
  cases hend
  obtain ⟨i, hi, hout⟩ := exists_not_nodeInside hnot
  exact hout (hinside _ (List.mem_map.mpr ⟨i, List.mem_range.mpr hi, rfl⟩))

/-- With a `malloc` that gives a block of the bytes that were asked for, `init_pool` does what it
should exactly for the sizes from 1 on whose number of bytes does not wrap. -/
theorem pool_fits_iff {malloc : UInt64 → UInt64} {pool_size : UInt64}
    (hmalloc : malloc (pool_size * blockSize) ≠ 0)
    (hblock : (malloc (pool_size * blockSize)).toNat + (pool_size * blockSize).toNat ≤ 2 ^ 64)
    (s : State) :
    PoolFits malloc s pool_size ↔ 1 ≤ pool_size.toNat ∧ pool_size.toNat < 2 ^ 58 := by
  refine ⟨fun h => h.size hmalloc, ?_⟩
  rintro ⟨hpos, hwrap⟩
  have hlast : (pool_size - 1).toNat = pool_size.toNat - 1 := by
    have hle : (1 : UInt64) ≤ pool_size := UInt64.le_iff_toNat_le.mpr hpos
    rw [UInt64.toNat_sub_of_le _ _ hle, UInt64.toNat_one]
  have hcount : (pool_size - 1).toNat + 1 = pool_size.toNat := by omega
  have hfits : (malloc (pool_size * blockSize)).toNat + pool_size.toNat * 64 ≤ 2 ^ 64 := by
    rwa [toNat_bytes, Nat.mod_eq_of_lt (by omega)] at hblock
  refine ⟨_, _, _, ⟨_, fun fuel hfuel => initPoolLog_eq hmalloc s hfuel⟩, ?_, ?_⟩
  · intro node hnode
    rw [hcount] at hnode
    obtain ⟨i, hi, rfl⟩ := List.mem_map.mp hnode
    exact nodeInside_of_lt hwrap (List.mem_range.mp hi)
  · refine ⟨(List.range pool_size.toNat).map (block (malloc (pool_size * blockSize))), ?_, by simp,
      ?_, ?_⟩
    · rw [initPool, if_neg hmalloc, hlast]
      exact segment_initPool hmalloc hfits s hpos
    · refine List.nodup_range.map_on fun i hi j hj hij => ?_
      exact block_inj hfits (List.mem_range.mp hi) (List.mem_range.mp hj) hij
    · intro p hp
      obtain ⟨i, hi, rfl⟩ := List.mem_map.mp hp
      exact ⟨i, List.mem_range.mp hi, rfl⟩

/-- The pool of `main`. -/
theorem pool_fits_iff_sixteen : PoolFits (fun _ => 4096) ⟨fun _ => 0, 0⟩ 16 :=
  (pool_fits_iff (by decide) (by decide) _).mpr (by decide)

/-- An empty pool, and one whose bytes wrap to those of one block. -/
theorem not_poolFits :
    ¬ PoolFits (fun _ => 4096) ⟨fun _ => 0, 0⟩ 0 ∧
      ¬ PoolFits (fun _ => 4096) ⟨fun _ => 0, 0⟩ 288230376151711745 :=
  ⟨fun h => absurd (h.size (by decide)) (by decide), fun h => absurd (h.size (by decide)) (by decide)⟩

end Pool
