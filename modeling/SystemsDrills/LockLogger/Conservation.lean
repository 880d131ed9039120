import SystemsDrills.LockLogger.Machine

/-!
# The logger neither loses nor repeats an entry

What a worker has made is, in order, what the log holds of it and what it has staged and
not flushed.  This is kept by each of the three flushes and by the iterations that do not
flush, and it bounds the log: as long as an entry waits, the log has room for it, so no
flush is cut short.

A slot counts as written once the copy into it is done.  The owner has moved `g_count`
past the slot before that.
-/

namespace LockLogger

open Transition

variable {ncpu : Nat}

/-! ## The log and what is staged -/

/-- The entries in `pending[0 .. n)`. -/
def Worker.staged (w : Worker) : List Entry := (List.range w.n).map w.pending

/-- The entries that have not been copied to the log. -/
def Worker.unflushed (w : Worker) : List Entry :=
  match w.pc with
  | .flushTest _ k | .flushLoad _ k | .flushStore _ k _ | .flushCopy _ k _ => w.staged.drop k
  | .endWrite _ | .done => []
  | .loop | .tryBegin | .refused | .wait _ | .asleep _ => w.staged

/-- The worker has taken a slot and has not copied its entry there. -/
def Pc.isCopying : Pc → Bool
  | .flushCopy _ _ _ => true
  | _ => false

/-- How many slots are written. -/
def State.written (s : State ncpu) : Nat :=
  if ∃ c, (s.workers c).pc.isCopying = true then s.g_count - 1 else s.g_count

/-- The entries in the log. -/
def State.log (s : State ncpu) : List Entry := (List.range s.written).map s.g_log

/-- The entries of one worker in a list. -/
def ofCpu (c : Fin ncpu) (l : List Entry) : List Entry := l.filter (·.cpu_id = UInt32.ofNat c)

/-- The entry that a step made, and who made it. -/
def Act.made : Act ncpu → Option (Fin ncpu × Entry)
  | .make c e => some (c, e)
  | .step _ => none

/-- What one worker made. -/
def mine (c : Fin ncpu) (made : List (Fin ncpu × Entry)) : List Entry :=
  (made.filter (·.1 = c)).map Prod.snd

@[simp] theorem mine_self (c : Fin ncpu) (made : List (Fin ncpu × Entry)) (e : Entry) :
    mine c (made ++ [(c, e)]) = mine c made ++ [e] := by
  simp [mine]

@[simp] theorem mine_of_ne {c d : Fin ncpu} (h : d ≠ c) (made : List (Fin ncpu × Entry))
    (e : Entry) : mine d (made ++ [(c, e)]) = mine d made := by
  simp [mine, h.symm]

theorem written_of_not_copying {s : State ncpu} (h : ∀ c, (s.workers c).pc.isCopying = false) :
    s.written = s.g_count := by
  simp [State.written, h]

theorem written_of_copying {s : State ncpu} {c : Fin ncpu}
    (h : (s.workers c).pc.isCopying = true) : s.written = s.g_count - 1 :=
  if_pos ⟨c, h⟩

/-- A worker moves without taking a slot or filling one. -/
theorem log_set {s : State ncpu} {c : Fin ncpu} {w : Worker}
    (h : w.pc.isCopying = (s.workers c).pc.isCopying) : (s.set c w).log = s.log := by
  have hcopy : ∀ d, ((s.set c w).workers d).pc.isCopying = (s.workers d).pc.isCopying :=
    State.forall_set (P := fun d w => w.pc.isCopying = (s.workers d).pc.isCopying) h fun _ _ => rfl
  simp only [State.log, State.written, hcopy]
  rfl

theorem Pc.isCopying_of_not_owns {p : Pc} (h : ¬ p.Owns) : p.isCopying = false := by
  cases p with
  | flushCopy drain k slot => exact absurd trivial h
  | _ => rfl

/-- If the owner is not copying, nobody is. -/
theorem not_copying_of_owner {s : State ncpu} (hx : s.Exclusive) {c : Fin ncpu}
    (hown : (s.workers c).pc.Owns) (hc : (s.workers c).pc.isCopying = false) (d : Fin ncpu) :
    (s.workers d).pc.isCopying = false := by
  by_cases hd : d = c
  · exact hd ▸ hc
  · exact Pc.isCopying_of_not_owns fun h => hd (hx.unique d c h hown)

/-! ## The locals of a worker -/

/-- Whether the entry of the present iteration has been made. -/
def Pc.round : Pc → Nat
  | .loop | .done => 0
  | .tryBegin | .refused => 1
  | .wait drain | .asleep drain | .flushTest drain _ | .flushLoad drain _ | .flushStore drain _ _
  | .flushCopy drain _ _ | .endWrite drain => if drain then 0 else 1

/-- The worker has left its loop. -/
def Pc.Drains : Pc → Prop
  | .loop | .tryBegin | .refused => False
  | .wait drain | .asleep drain | .flushTest drain _ | .flushLoad drain _ | .flushStore drain _ _
  | .flushCopy drain _ _ | .endWrite drain => drain = true
  | .done => True

/-- The locals of `flush` fit `n` and `g_count`. -/
def Pc.Flushes (n g_count : Nat) : Pc → Prop
  | .flushTest _ k => k ≤ n
  | .flushLoad _ k => k < n
  | .flushStore _ k slot => k < n ∧ slot = g_count
  | .flushCopy _ k slot => k < n ∧ slot + 1 = g_count
  | .loop | .tryBegin | .refused | .wait _ | .asleep _ | .endWrite _ | .done => True

theorem Pc.flushes_of_not_owns {p : Pc} (h : ¬ p.Owns) (n g_count : Nat) : p.Flushes n g_count := by
  cases p with
  | flushTest drain k => exact absurd trivial h
  | flushLoad drain k => exact absurd trivial h
  | flushStore drain k slot => exact absurd trivial h
  | flushCopy drain k slot => exact absurd trivial h
  | _ => trivial

/-- The locals of a worker that has made `m` entries. -/
structure Worker.Fits (w : Worker) (g_count m : Nat) : Prop where
  room : w.n ≤ localCap
  loop : w.pc = .loop → w.n < localCap
  rounds : m = w.i + w.pc.round
  le : m ≤ entriesPerCpu
  drains : w.pc.Drains → w.i = entriesPerCpu
  flushes : w.pc.Flushes w.n g_count
  reset : w.pc = .endWrite false → w.n = 0

/-- The worker moves, its locals as before. -/
theorem Worker.Fits.goto {w : Worker} {g_count m : Nat} (hf : w.Fits g_count m) {p : Pc}
    (hloop : p ≠ .loop) (hround : p.round = w.pc.round) (hdrains : p.Drains → w.pc.Drains)
    (hflushes : p.Flushes w.n g_count) (hend : p ≠ .endWrite false) :
    (w.goto p).Fits g_count m :=
  ⟨hf.room, fun h => absurd h hloop, by rw [hf.rounds, ← hround]; rfl, hf.le,
    fun h => hf.drains (hdrains h), hflushes, fun h => absurd h hend⟩

/-- The worker leaves its loop. -/
theorem Worker.Fits.leave {w : Worker} {g_count m : Nat} (hf : w.Fits g_count m)
    (hpc : w.pc = .loop) (hi : ¬ w.i < entriesPerCpu) {p : Pc} (hloop : p ≠ .loop)
    (hround : p.round = 0) (hflushes : p.Flushes w.n g_count) (hend : p ≠ .endWrite false) :
    (w.goto p).Fits g_count m := by
  have hrounds : m = w.i := by
    rw [hf.rounds, hpc]
    rfl
  have hle := hf.le
  exact ⟨hf.room, fun h => absurd h hloop, by rw [hrounds, ← Nat.add_zero w.i, ← hround]; rfl, hle,
    fun _ => by show w.i = _; omega, hflushes, fun h => absurd h hend⟩

/-- After the entries `made`, the log and the staged entries are what was made. -/
structure State.Kept (s : State ncpu) (made : List (Fin ncpu × Entry)) : Prop where
  fits : ∀ c, (s.workers c).Fits s.g_count (mine c made).length
  kept : ∀ c, ofCpu c s.log ++ (s.workers c).unflushed = mine c made
  ids : ∀ e ∈ s.log, ∃ c : Fin ncpu, e.cpu_id = UInt32.ofNat c
  own : ∀ x ∈ made, x.2.cpu_id = UInt32.ofNat x.1

/-- One worker moves.  What the others have made, staged and flushed fits as before. -/
theorem State.Kept.of_set {s : State ncpu} {made : List (Fin ncpu × Entry)} {c : Fin ncpu}
    {w : Worker} {l : List Entry} (hlog : (s.set c w).log = l)
    (hfits : w.Fits s.g_count (mine c made).length) (hkept : ofCpu c l ++ w.unflushed = mine c made)
    (hrest : ∀ d, d ≠ c → (s.workers d).Fits s.g_count (mine d made).length ∧
      ofCpu d l ++ (s.workers d).unflushed = mine d made)
    (hids : ∀ e ∈ l, ∃ c : Fin ncpu, e.cpu_id = UInt32.ofNat c)
    (hown : ∀ x ∈ made, x.2.cpu_id = UInt32.ofNat x.1) : (s.set c w).Kept made := by
  subst hlog
  refine ⟨?_, ?_, hids, hown⟩
  · exact State.forall_set (P := fun d w => w.Fits s.g_count (mine d made).length) hfits
      fun d hd => (hrest d hd).1
  · exact State.forall_set
      (P := fun d v => ofCpu d (s.set c w).log ++ v.unflushed = mine d made) hkept
      fun d hd => (hrest d hd).2

/-- A worker moves without making or copying an entry. -/
theorem State.Kept.set {s : State ncpu} {made : List (Fin ncpu × Entry)} (hk : s.Kept made)
    {c : Fin ncpu} {w : Worker} (hcopy : w.pc.isCopying = (s.workers c).pc.isCopying)
    (hun : w.unflushed = (s.workers c).unflushed)
    (hfits : w.Fits s.g_count (mine c made).length) : (s.set c w).Kept made :=
  .of_set (log_set hcopy) hfits (hun ▸ hk.kept c) (fun d _ => ⟨hk.fits d, hk.kept d⟩) hk.ids hk.own

/-! ## The log has room -/

section Room

variable (hcap : ncpu * entriesPerCpu ≤ logCapacity)
include hcap

theorem cpuId_injective : Function.Injective fun c : Fin ncpu => UInt32.ofNat c := by
  intro c d hcd
  have hlt : ∀ c : Fin ncpu, c.val < 2 ^ 32 := by
    intro c
    have := c.isLt
    simp only [entriesPerCpu, logCapacity] at hcap
    omega
  have := congrArg UInt32.toNat hcd
  rw [UInt32.toNat_ofNat_of_lt' (hlt c), UInt32.toNat_ofNat_of_lt' (hlt d)] at this
  exact Fin.ext this

variable {s : State ncpu} {made : List (Fin ncpu × Entry)} (hk : s.Kept made)
include hk

/-- The log and what all workers have staged are what was made. -/
theorem State.Kept.perm :
    (s.log ++ (List.finRange ncpu).flatMap fun c => (s.workers c).unflushed).Perm
      (made.map Prod.snd) := by
  have hids : ((List.finRange ncpu).map fun c : Fin ncpu => UInt32.ofNat c).Nodup :=
    (List.nodup_finRange ncpu).map (cpuId_injective hcap)
  have hlog : s.log.Perm ((List.finRange ncpu).flatMap fun c => ofCpu c s.log) := by
    have h := perm_flatMap_filter Entry.cpu_id s.log hids fun e he => by
      obtain ⟨c, hc⟩ := hk.ids e he
      exact List.mem_map.mpr ⟨c, List.mem_finRange c, hc.symm⟩
    rwa [List.flatMap_map] at h
  have hmade : (made.map Prod.snd).Perm ((List.finRange ncpu).flatMap fun c => mine c made) := by
    have h := (perm_flatMap_filter Prod.fst made (List.nodup_finRange ncpu)
      fun x _ => List.mem_finRange x.1).map Prod.snd
    rwa [List.map_flatMap] at h
  refine (hlog.append_right _).trans ((List.flatMap_append_perm _ _ _).trans ?_)
  simp only [hk.kept]
  exact hmade.symm

omit hcap in
theorem State.Kept.length_made_le : made.length ≤ ncpu * entriesPerCpu := by
  have hparts := (perm_flatMap_filter Prod.fst made (List.nodup_finRange ncpu)
    fun x _ => List.mem_finRange x.1).length_eq
  rw [List.length_flatMap] at hparts
  have hle := List.sum_le_card_nsmul
    ((List.finRange ncpu).map fun c => (made.filter (·.1 = c)).length) entriesPerCpu ?_
  · rw [hparts]
    simpa using hle
  · intro x hx
    obtain ⟨c, -, rfl⟩ := List.mem_map.mp hx
    have := (hk.fits c).le
    rwa [mine, List.length_map] at this

/-- As long as an entry waits to be copied, the log has room for it. -/
theorem State.Kept.room (hnot : ∀ c, (s.workers c).pc.isCopying = false) {c : Fin ncpu} {e : Entry}
    (he : e ∈ (s.workers c).unflushed) : s.g_count < logCapacity := by
  have htotal := (hk.perm hcap).length_eq
  have hwait : 0 < ((List.finRange ncpu).flatMap fun c => (s.workers c).unflushed).length :=
    List.length_pos_of_mem (List.mem_flatMap.mpr ⟨c, List.mem_finRange c, he⟩)
  rw [List.length_append, State.log, List.length_map, List.length_range,
    written_of_not_copying hnot, List.length_map] at htotal
  have := hk.length_made_le
  omega

end Room

/-! ## The steps -/

section Steps

variable {s : State ncpu} {made : List (Fin ncpu × Entry)} (hk : s.Kept made)
include hk

theorem State.Kept.setBusy (b : Int32) : (s.setBusy b).Kept made :=
  ⟨hk.fits, hk.kept, hk.ids, hk.own⟩

theorem State.Kept.broadcast : s.broadcast.Kept made := by
  have hcopy : ∀ w : Worker, w.wake.pc.isCopying = w.pc.isCopying := by
    intro w
    rw [Worker.wake]
    split
    · next h => simp [h, Pc.isCopying]
    · rfl
  have hlog : s.broadcast.log = s.log := by
    simp only [State.log, State.written, State.broadcast_workers, hcopy]
    rfl
  refine ⟨fun c => ?_, fun c => ?_, by rw [hlog]; exact hk.ids, hk.own⟩
  · have hf := hk.fits c
    rw [State.broadcast_workers, Worker.wake]
    split
    · next drain h =>
        refine ⟨hf.room, by simp, ?_, hf.le, ?_, trivial, by simp⟩
        · simpa [h, Pc.round] using hf.rounds
        · simpa [h, Pc.Drains] using hf.drains
    · exact hf
  · have hun : (s.workers c).wake.unflushed = (s.workers c).unflushed := by
      rw [Worker.wake]
      split
      · next h => simp [Worker.unflushed, Worker.staged, h]
      · rfl
    rw [hlog, State.broadcast_workers, hun]
    exact hk.kept c

omit hk in
theorem Worker.staged_stage (w : Worker) (e : Entry) : (w.stage e).staged = w.staged ++ [e] := by
  show (List.range (w.n + 1)).map (Function.update w.pending w.n e) = _
  rw [List.range_succ, List.map_append, List.map_singleton, Function.update_self]
  congr 1
  refine List.map_congr_left fun k hk => Function.update_of_ne ?_ _ _
  exact (List.mem_range.mp hk).ne

/-- A worker makes an entry. -/
theorem State.Kept.make {c : Fin ncpu} {e : Entry} (hpc : (s.workers c).pc = .loop)
    (hi : (s.workers c).i < entriesPerCpu) (he : e.cpu_id = UInt32.ofNat c) :
    (s.set c (((s.workers c).stage e).goto .tryBegin)).Kept (made ++ [(c, e)]) := by
  have hf := hk.fits c
  refine .of_set (log_set (by rw [hpc]; rfl)) ?_ ?_ (fun d hd => ?_) hk.ids fun x hx => ?_
  · rw [mine_self, List.length_append, List.length_singleton, hf.rounds, hpc]
    exact ⟨hf.loop hpc, by simp, rfl, hi, fun h => h.elim, trivial, by simp⟩
  · have hold := hk.kept c
    rw [Worker.unflushed, hpc] at hold
    rw [mine_self, ← hold, List.append_assoc]
    exact congrArg (_ ++ ·) (Worker.staged_stage _ e)
  · rw [mine_of_ne hd]
    exact ⟨hk.fits d, hk.kept d⟩
  · rcases List.mem_append.mp hx with hx | hx
    · exact hk.own x hx
    · rw [List.mem_singleton.mp hx]
      exact he

/-- A worker that is not the owner, when the owner changes `g_count`. -/
theorem State.Kept.fits_of_ne (hx : s.Exclusive) {c d : Fin ncpu} (hown : (s.workers c).pc.Owns)
    (hd : d ≠ c) (m : Nat) : (s.workers d).Fits m (mine d made).length := by
  have hf := hk.fits d
  have hnot : ¬ (s.workers d).pc.Owns := fun h => hd (hx.unique d c h hown)
  exact ⟨hf.room, hf.loop, hf.rounds, hf.le, hf.drains, Pc.flushes_of_not_owns hnot _ _, hf.reset⟩

/-- The owner takes a slot. -/
theorem State.Kept.flushStore (hx : s.Exclusive) {c : Fin ncpu} {drain : Bool} {k slot : Nat}
    (hpc : (s.workers c).pc = .flushStore drain k slot) :
    ((s.setCount (slot + 1)).set c ((s.workers c).goto (.flushCopy drain k slot))).Kept made := by
  have hf := hk.fits c
  have hown : (s.workers c).pc.Owns := by rw [hpc]; trivial
  obtain ⟨hlt, hslot⟩ : k < (s.workers c).n ∧ slot = s.g_count := by
    have := hf.flushes
    rwa [hpc] at this
  have hlog : ((s.setCount (slot + 1)).set c
      ((s.workers c).goto (.flushCopy drain k slot))).log = s.log := by
    have hnot := not_copying_of_owner hx hown (by rw [hpc]; rfl)
    have hw : ((s.setCount (slot + 1)).set c
        ((s.workers c).goto (.flushCopy drain k slot))).written = slot :=
      written_of_copying (c := c) (by simp [Pc.isCopying])
    rw [State.log, hw, State.log, written_of_not_copying hnot, hslot]
    rfl
  refine .of_set hlog ?_ ?_ (fun d hd => ⟨hk.fits_of_ne hx hown hd _, hk.kept d⟩) hk.ids hk.own
  · refine ⟨hf.room, by simp, ?_, hf.le, ?_, ⟨hlt, rfl⟩, by simp⟩
    · simpa [hpc, Pc.round] using hf.rounds
    · simpa [hpc, Pc.Drains] using hf.drains
  · have hold := hk.kept c
    rw [Worker.unflushed, hpc] at hold
    exact hold

omit hk in
theorem log_flushCopy (hx : s.Exclusive) {c : Fin ncpu} {drain : Bool} {k slot : Nat}
    (hpc : (s.workers c).pc = .flushCopy drain k slot) (hslot : slot + 1 = s.g_count) (e : Entry) :
    ((s.copy slot e).set c ((s.workers c).goto (.flushTest drain (k + 1)))).log =
      s.log ++ [e] := by
  have hown : (s.workers c).pc.Owns := by rw [hpc]; trivial
  have hw : s.written = slot := by
    rw [written_of_copying (c := c) (by rw [hpc]; rfl), ← hslot, Nat.add_sub_cancel]
  have hw' : ((s.copy slot e).set c
      ((s.workers c).goto (.flushTest drain (k + 1)))).written = slot + 1 := by
    refine (written_of_not_copying ?_).trans hslot.symm
    exact State.forall_set (P := fun _ w => w.pc.isCopying = false) rfl
      fun d hd => Pc.isCopying_of_not_owns fun h => hd (hx.unique d c h hown)
  rw [State.log, hw', List.range_succ, List.map_append, List.map_singleton, State.log, hw]
  show (List.range slot).map (Function.update s.g_log slot e) ++
    [Function.update s.g_log slot e slot] = _
  rw [Function.update_self]
  congr 1
  exact List.map_congr_left fun m hm => Function.update_of_ne (List.mem_range.mp hm).ne _ _

omit hk in
/-- The entry that is copied is the first that waits. -/
theorem Worker.unflushed_flushCopy {w : Worker} {drain : Bool} {k slot : Nat}
    (hpc : w.pc = .flushCopy drain k slot) (hlt : k < w.n) :
    w.unflushed = w.pending k :: (w.goto (.flushTest drain (k + 1))).unflushed := by
  have hlen : k < w.staged.length := by simpa [Worker.staged] using hlt
  rw [Worker.unflushed, hpc]
  show w.staged.drop k = w.pending k :: w.staged.drop (k + 1)
  rw [List.drop_eq_getElem_cons hlen]
  simp [Worker.staged]

/-- A worker's entries carry its number. -/
theorem State.Kept.cpu_id_eq {c : Fin ncpu} {e : Entry} (he : e ∈ (s.workers c).unflushed) :
    e.cpu_id = UInt32.ofNat c := by
  have hmem : e ∈ mine c made := hk.kept c ▸ List.mem_append_right _ he
  obtain ⟨x, hx, rfl⟩ := List.mem_map.mp hmem
  obtain ⟨hxm, hxc⟩ := List.mem_filter.mp hx
  rw [hk.own x hxm, of_decide_eq_true hxc]

/-- The owner copies an entry into its slot. -/
theorem State.Kept.flushCopy (hx : s.Exclusive) (hcap : ncpu * entriesPerCpu ≤ logCapacity)
    {c : Fin ncpu} {drain : Bool} {k slot : Nat}
    (hpc : (s.workers c).pc = .flushCopy drain k slot) :
    ((s.copy slot ((s.workers c).pending k)).set c
      ((s.workers c).goto (.flushTest drain (k + 1)))).Kept made := by
  have hf := hk.fits c
  obtain ⟨hlt, hslot⟩ : k < (s.workers c).n ∧ slot + 1 = s.g_count := by
    have := hf.flushes
    rwa [hpc] at this
  have hun := Worker.unflushed_flushCopy hpc hlt
  have hid : ((s.workers c).pending k).cpu_id = UInt32.ofNat c :=
    hk.cpu_id_eq (hun ▸ List.mem_cons_self)
  refine .of_set (log_flushCopy hx hpc hslot _) ?_ ?_ (fun d hd => ⟨hk.fits d, ?_⟩) ?_ hk.own
  · exact hf.goto (by simp) (by rw [hpc]; rfl) (by rw [hpc]; exact id) hlt (by simp)
  · rw [← hk.kept c, hun, ofCpu, List.filter_append]
    simp [hid, ofCpu]
  · have hne : ((s.workers c).pending k).cpu_id ≠ UInt32.ofNat d := by
      rw [hid]
      exact fun h => hd (cpuId_injective hcap h).symm
    rw [← hk.kept d, ofCpu, List.filter_append]
    simp [hne, ofCpu]
  · intro e he
    rcases List.mem_append.mp he with he | he
    · exact hk.ids e he
    · exact ⟨c, by rw [List.mem_singleton.mp he, hid]⟩

/-- The loop of `flush` is not cut short: it ends when nothing waits. -/
theorem State.Kept.flush_all (hx : s.Exclusive) (hcap : ncpu * entriesPerCpu ≤ logCapacity)
    {c : Fin ncpu} {drain : Bool} {k : Nat} (hpc : (s.workers c).pc = .flushTest drain k)
    (hexit : ¬ (k < (s.workers c).n ∧ s.g_count < logCapacity)) :
    (s.workers c).unflushed = [] := by
  by_contra hne
  obtain ⟨e, he⟩ := List.exists_mem_of_ne_nil _ hne
  have hnot := not_copying_of_owner hx (c := c) (by rw [hpc]; trivial) (by rw [hpc]; rfl)
  have hk' : k < (s.workers c).n := by
    by_contra hge
    rw [Worker.unflushed, hpc] at hne
    exact hne (List.drop_eq_nil_of_le (by simpa [Worker.staged] using hge))
  exact hexit ⟨hk', hk.room hcap hnot he⟩

/-- The owner leaves the loop of `flush`. -/
theorem State.Kept.flushExit (hx : s.Exclusive) (hcap : ncpu * entriesPerCpu ≤ logCapacity)
    {c : Fin ncpu} {drain : Bool} {k : Nat} (hpc : (s.workers c).pc = .flushTest drain k)
    (hexit : ¬ (k < (s.workers c).n ∧ s.g_count < logCapacity)) :
    (s.set c (((s.workers c).flushed drain).goto (.endWrite drain))).Kept made := by
  refine hk.set (by rw [hpc]; rfl) (hk.flush_all hx hcap hpc hexit).symm ?_
  have hf := hk.fits c
  have hrounds := hf.rounds
  have hdrains := hf.drains
  rw [hpc] at hrounds hdrains
  refine ⟨?_, by simp, hrounds, hf.le, hdrains, trivial, fun h => ?_⟩
  · cases drain with
    | false => exact Nat.zero_le _
    | true => exact hf.room
  · obtain rfl : drain = false := by simpa using h
    rfl

/-- `end_write` returns to the worker. -/
theorem State.Kept.endWrite {c : Fin ncpu} {drain : Bool}
    (hpc : (s.workers c).pc = .endWrite drain) :
    ((s.setBusy 0).broadcast.set c ((s.workers c).afterWrite drain)).Kept made := by
  have hf := hk.fits c
  have hwake : ((s.setBusy 0).broadcast.workers c) = s.workers c := by
    simp [Worker.wake, hpc]
  refine (hk.setBusy 0).broadcast.set ?_ ?_ ?_
  · rw [hwake, hpc]
    cases drain with
    | false => rfl
    | true => rfl
  · rw [hwake, Worker.unflushed, Worker.unflushed, hpc]
    cases drain with
    | false =>
        show (s.workers c).staged = []
        simp [Worker.staged, hf.reset hpc]
    | true => rfl
  · cases drain with
    | false =>
        refine ⟨hf.room, fun _ => ?_, ?_, hf.le, fun h => h.elim, trivial, by simp [Worker.afterWrite]⟩
        · show (s.workers c).n < localCap
          rw [hf.reset hpc]
          decide
        · rw [hf.rounds, hpc]
          rfl
    | true =>
        refine hf.goto (by simp) ?_ ?_ trivial (by simp)
        · rw [hpc]
          rfl
        · rw [hpc]
          exact fun _ => rfl

end Steps

/-- A step that makes no entry. -/
theorem kept_step (hcap : ncpu * entriesPerCpu ≤ logCapacity) {s s' : State ncpu}
    {made : List (Fin ncpu × Entry)} {c : Fin ncpu} (hx : s.Exclusive) (hk : s.Kept made)
    (h : Step s (.step c) s') : s'.Kept made := by
  have hf := hk.fits c
  cases h with
  | loopDrain hpc hi _ =>
      exact hk.set (by rw [hpc]; rfl) (by rw [Worker.unflushed, Worker.unflushed, hpc]; rfl)
        (hf.leave hpc hi (by simp) rfl trivial (by simp))
  | loopDone hpc hi hn =>
      refine hk.set (by rw [hpc]; rfl) ?_ (hf.leave hpc hi (by simp) rfl trivial (by simp))
      rw [Worker.unflushed, Worker.unflushed, hpc]
      simp [Worker.staged, hn]
  | tryFree hpc _ =>
      refine (hk.setBusy 1).set ?_ ?_ ?_
      · exact (congrArg Pc.isCopying hpc).symm
      · simp [Worker.unflushed, Worker.staged, hpc]
      · exact hf.goto (by simp) (by rw [hpc]; rfl) (by simp [Pc.Drains]) (Nat.zero_le _) (by simp)
  | tryBusy hpc _ =>
      exact hk.set (by rw [hpc]; rfl) (by rw [Worker.unflushed, Worker.unflushed, hpc]; rfl)
        (hf.goto (by simp) (by rw [hpc]; rfl) (fun h => h.elim) trivial (by simp))
  | full hpc _ =>
      refine hk.set (by rw [hpc]; rfl) (by rw [Worker.unflushed, Worker.unflushed, hpc]; rfl) ?_
      have hsleeps : (s.workers c).sleeps.Fits s.g_count (mine c made).length :=
        ⟨hf.room, hf.loop, hf.rounds, hf.le, hf.drains, hf.flushes, hf.reset⟩
      exact hsleeps.goto (by simp) (by simp [hpc, Pc.round]) (by simp [Pc.Drains]) trivial (by simp)
  | overlap hpc hn =>
      refine hk.set (by rw [hpc]; rfl) (by rw [Worker.unflushed, Worker.unflushed, hpc]; rfl) ?_
      refine ⟨hf.room, fun _ => hf.room.lt_of_ne hn, ?_, hf.le, fun h => h.elim, trivial, by simp⟩
      rw [hf.rounds, hpc]
      rfl
  | claim hpc _ =>
      refine (hk.setBusy 1).set ?_ ?_ ?_
      · exact (congrArg Pc.isCopying hpc).symm
      · simp [Worker.unflushed, Worker.staged, hpc]
      · exact hf.goto (by simp) (by rw [hpc]; rfl) (by rw [hpc]; exact id) (Nat.zero_le _) (by simp)
  | sleep hpc _ =>
      exact hk.set (by rw [hpc]; rfl) (by rw [Worker.unflushed, Worker.unflushed, hpc]; rfl)
        (hf.goto (by simp) (by rw [hpc]; rfl) (by rw [hpc]; exact id) trivial (by simp))
  | spurious hpc =>
      exact hk.set (by rw [hpc]; rfl) (by rw [Worker.unflushed, Worker.unflushed, hpc]; rfl)
        (hf.goto (by simp) (by rw [hpc]; rfl) (by rw [hpc]; exact id) trivial (by simp))
  | flushGo hpc hgo =>
      exact hk.set (by rw [hpc]; rfl) (by rw [Worker.unflushed, Worker.unflushed, hpc]; rfl)
        (hf.goto (by simp) (by rw [hpc]; rfl) (by rw [hpc]; exact id) hgo.1 (by simp))
  | flushExit hpc hexit => exact hk.flushExit hx hcap hpc hexit
  | flushLoad hpc =>
      refine hk.set (by rw [hpc]; rfl) (by rw [Worker.unflushed, Worker.unflushed, hpc]; rfl) ?_
      have hlt := hf.flushes
      rw [hpc] at hlt
      exact hf.goto (by simp) (by rw [hpc]; rfl) (by rw [hpc]; exact id) ⟨hlt, rfl⟩ (by simp)
  | flushStore hpc => exact hk.flushStore hx hpc
  | flushCopy hpc => exact hk.flushCopy hx hcap hpc
  | endWrite hpc => exact hk.endWrite hpc

theorem kept_next (hcap : ncpu * entriesPerCpu ≤ logCapacity) {s s' : State ncpu}
    {made : List (Fin ncpu × Entry)} {a : Act ncpu} (hx : s.Exclusive) (hk : s.Kept made)
    (h : Step s a s') : s'.Kept (made ++ a.made.toList) := by
  cases a with
  | make c e =>
      cases h with
      | make hpc hi he => exact hk.make hpc hi (by rw [he]; rfl)
  | step c =>
      rw [Act.made, Option.toList_none, List.append_nil]
      exact kept_step hcap hx hk h

end LockLogger
