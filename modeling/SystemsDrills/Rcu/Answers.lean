import SystemsDrills.Rcu.Refinement

/-!
# What `translate` answers

`translate` on the memory with views is linearizable, as it is on the interleaved machine.  The steps of
the calls and the publishes are the same there, so the moment at which the interleaved call loads
`current` has its place in the execution with views, too.
-/

namespace Rcu

open Transition Views GuestMemory GuestMemory.Sorted

variable {W : Type}

/-- The map of the regions that were published. -/
noncomputable def publishedMap (as : List (Act W)) : MemoryMap :=
  (as.filterMap Act.published).foldl (fun m rgn => (m.add rgn).2) .empty

/-- Only visible steps publish. -/
theorem publishedMap_congr {as bs : List (Act W)} (h : as.filter Act.visible = bs.filter Act.visible) :
    publishedMap as = publishedMap bs := by
  have hvisible : ∀ l : List (Act W), (l.filter Act.visible).filterMap Act.published =
      l.filterMap Act.published := by
    intro l
    rw [List.filterMap_filter]
    refine List.filterMap_congr fun a _ => ?_
    cases a <;> rfl
  rw [publishedMap, publishedMap, ← hvisible as, h, hvisible bs]

theorem Act.startsTranslate.visible {a : Act W} {i : Fin maxReaders} (h : a.startsTranslate i) :
    a.visible = true := by
  obtain ⟨gpa, hva, rfl⟩ := h
  rfl

section

variable [DecidableEq W]

/-- A run and the list of its labels. -/
theorem map_act_take {n k : Nat} {r : Run (machine W) n} {bs : List (Act W)}
    (h : (List.range n).map r.act = bs) (hk : k ≤ n) : (List.range k).map r.act = bs.take k := by
  rw [← h, ← List.map_take, List.take_range, min_eq_left hk]

/-- Each call of `translate` has its moment: it answers as the map of the regions that were published
before it, and finds what was added before it began. -/
theorem answer_of_exec {bs : List (Act W)} {u : State W} {i : Fin maxReaders} {gpa hva : UInt64}
    {ans : Bool × UInt64} (h : (machine W).Exec (start W) (bs ++ [.translateRet i gpa hva ans]) u) :
    ∃ earlier since later, bs = earlier ++ .translateCall i gpa hva :: (since ++ later) ∧
      (∀ a ∈ since ++ later, ¬ a.startsTranslate i) ∧
      ans = answer (publishedMap (earlier ++ .translateCall i gpa hva :: since)) gpa hva ∧
      ∀ w rgn, .addRet w rgn .addOk ∈ earlier → gpa.toNat ∈ rgn.range →
        ans = (true, rgn.translate gpa) := by
  obtain ⟨r, -, -, hact⟩ := h.exists_run rfl
  have hlen : (bs ++ [Act.translateRet i gpa hva ans]).length = bs.length + 1 := by simp
  have hret : r.act bs.length = .translateRet i gpa hva ans :=
    Run.act_of_map_act hact List.getElem?_concat_length
  have hj : bs.length < (bs ++ [Act.translateRet i gpa hva ans]).length := by omega
  obtain ⟨a, m, hlast, hcall, ham, hmj, hans⟩ := translate_moment r hj hret
  have htake : ∀ k ≤ bs.length, (List.range k).map r.act = bs.take k := fun k hk => by
    rw [map_act_take hact (by omega), List.take_append_of_le_length hk]
  have hmem : ∀ {k x}, k ≤ bs.length → x ∈ bs.take k → ∃ l < k, r.act l = x := by
    intro k x hk hx
    rw [← htake k hk] at hx
    simpa using hx
  have hget : ∀ l (hl : l < bs.length), bs[l] = r.act l := fun l hl => by
    have hl' : (bs ++ [Act.translateRet i gpa hva ans])[l]? = some bs[l] := by
      rw [List.getElem?_append_left hl, List.getElem?_eq_getElem hl]
    exact (Run.act_of_map_act hact hl').symm
  have ha : a < bs.length := hlast.lt
  -- The call, what came from it to the moment, and what came then.
  have hdrop : bs.drop a = .translateCall i gpa hva :: bs.drop (a + 1) := by
    rw [List.drop_eq_getElem_cons ha, hget a ha, hcall]
  have htakem : bs.take m = bs.take a ++ .translateCall i gpa hva ::
      (bs.drop (a + 1)).take (m - (a + 1)) := by
    conv_lhs => rw [← Nat.add_sub_cancel' ham.le, List.take_add, hdrop]
    rw [show m - a = m - (a + 1) + 1 by omega, List.take_succ_cons]
  refine ⟨bs.take a, (bs.drop (a + 1)).take (m - (a + 1)), (bs.drop (a + 1)).drop (m - (a + 1)),
    ?_, fun x hx hstart => ?_, ?_, fun w rgn hin hg => ?_⟩
  · rw [List.take_append_drop, ← hdrop, List.take_append_drop]
  · rw [List.take_append_drop] at hx
    obtain ⟨l, hl, rfl⟩ := List.mem_iff_getElem.mp hx
    rw [List.length_drop] at hl
    rw [List.getElem_drop, hget] at hstart
    exact hlast.since _ (by omega) (by omega) hstart
  · rw [← htakem, ← htake m hmj]
    exact hans
  · obtain ⟨c, hc, hadd⟩ := hmem ha.le hin
    have hreg := mem_registered_of_addOk r (by omega) hadd
    exact translate_hit r hj hret hlast hc.le (MemoryMap.translate_of_mem _ hreg hg)

/-- Two lists that are the same up to some elements are cut alike at an element that counts. -/
theorem exists_cut_of_filter_eq {α : Type} {keep : α → Bool} {x : α} {as front mid back : List α}
    (hx : keep x) (h : as.filter keep = (front ++ x :: (mid ++ back)).filter keep) :
    ∃ front' mid' back', as = front' ++ x :: (mid' ++ back') ∧
      front'.filter keep = front.filter keep ∧ mid'.filter keep = mid.filter keep ∧
      back'.filter keep = back.filter keep := by
  rw [List.filter_append, List.filter_cons_of_pos hx, List.filter_append] at h
  obtain ⟨as₁, rest, rfl, hfront, hrest⟩ := List.filter_eq_append_iff.mp h
  obtain ⟨idle, as₂, rfl, hidle, -, hrest⟩ := List.filter_eq_cons_iff.mp hrest
  obtain ⟨as₃, as₄, rfl, hmid, hback⟩ := List.filter_eq_append_iff.mp hrest
  refine ⟨as₁ ++ idle, as₃, as₄, by simp, ?_, hmid, hback⟩
  rw [List.filter_append, List.filter_eq_nil_iff.mpr hidle, List.append_nil, hfront]

/-- An element that counts is in both of two lists that are the same up to others. -/
theorem mem_of_filter_eq {α : Type} {keep : α → Bool} {x : α} {as bs : List α} (hx : keep x)
    (h : as.filter keep = bs.filter keep) (hmem : x ∈ as) : x ∈ bs := by
  have hfilter : x ∈ as.filter keep := List.mem_filter.mpr ⟨hmem, hx⟩
  rw [h] at hfilter
  exact (List.mem_filter.mp hfilter).1

/-- The interleaved execution up to a return of `translate`. -/
theorem exists_exec_ret {as : List (Act W)} {s : ViewState W} {i : Fin maxReaders}
    {gpa hva : UInt64} {ans : Bool × UInt64}
    (h : (viewMachine W).Exec (viewStart W) (as ++ [.translateRet i gpa hva ans]) s) :
    ∃ bs u, (machine W).Exec (start W) (bs ++ [.translateRet i gpa hva ans]) u ∧
      as.filter Act.visible = bs.filter Act.visible := by
  obtain ⟨bs, wr, hexec, hvisible, -⟩ := inv_viewStart.exec h
  rw [seen_viewStart] at hexec
  rw [List.filter_append] at hvisible
  obtain ⟨bs₁, rest, rfl, hbefore, hrest⟩ := List.filter_eq_append_iff.mp hvisible
  obtain ⟨quiet, bs₂, rfl, hquiet, -, -⟩ := List.filter_eq_cons_iff.mp hrest
  have hcut : bs₁ ++ (quiet ++ .translateRet i gpa hva ans :: bs₂) =
      (bs₁ ++ quiet) ++ [.translateRet i gpa hva ans] ++ bs₂ := by simp
  rw [hcut] at hexec
  obtain ⟨u, hexec, -⟩ := hexec.of_append
  refine ⟨bs₁ ++ quiet, u, hexec, ?_⟩
  rw [List.filter_append, List.filter_eq_nil_iff.mpr hquiet, List.append_nil, hbefore]

/-- The answers of `translate` are right with the memory orders of the source.  Each call of it answers as
the map of the regions published up to one moment between its start and its return, and a region whose
call of `region_add` had returned `ADD_OK` before the call began is found. -/
theorem translate_answered {as : List (Act W)} {s : ViewState W} {i : Fin maxReaders}
    {gpa hva : UInt64} {ans : Bool × UInt64}
    (h : (viewMachine W).Exec (viewStart W) (as ++ [.translateRet i gpa hva ans]) s) :
    ∃ earlier since later, as = earlier ++ .translateCall i gpa hva :: (since ++ later) ∧
      (∀ a ∈ since ++ later, ¬ a.startsTranslate i) ∧
      ans = answer (publishedMap (earlier ++ .translateCall i gpa hva :: since)) gpa hva ∧
      ∀ w rgn, .addRet w rgn .addOk ∈ earlier → gpa.toNat ∈ rgn.range →
        ans = (true, rgn.translate gpa) := by
  obtain ⟨bs, u, hexec, hsame⟩ := exists_exec_ret h
  obtain ⟨earlier, since, later, rfl, hno, hans, hfound⟩ := answer_of_exec hexec
  -- The same cut of the execution with views.
  obtain ⟨earlier', since', later', rfl, hearlier, hsince, hlater⟩ :=
    exists_cut_of_filter_eq rfl hsame
  refine ⟨earlier', since', later', rfl, fun a ha hstart => ?_, ?_, fun w rgn hin => ?_⟩
  · refine hno a (mem_of_filter_eq hstart.visible ?_ ha) hstart
    rw [List.filter_append, hsince, hlater, List.filter_append]
  · rw [hans]
    refine congrArg (fun m => answer m gpa hva) (publishedMap_congr ?_)
    rw [List.filter_append, List.filter_append, hearlier, List.filter_cons_of_pos rfl,
      List.filter_cons_of_pos rfl, hsince]
  · exact hfound w rgn (mem_of_filter_eq rfl hearlier hin)

end

/-- A call finds the region that was added to the empty table before. -/
theorem translate_answered_hit :
    let added : List (Act Unit) := [.addCall () ⟨4096, 4096, 65536⟩, .writerStep (), .writerStep (),
      .writerStep (), .writerStep (), .writerStep (), .writerStep (), .writerStep (), .writerStep (),
      .writerStep (), .publish () ⟨4096, 4096, 65536⟩ 0 1, .writerStep (), .writerStep (),
      .writerStep (), .writerStep (), .writerStep (), .writerStep (), .writerStep (), .writerStep (),
      .writerStep (), .free () 0, .addRet () ⟨4096, 4096, 65536⟩ .addOk]
    let search : List (Act Unit) := [.readerStep 0, .readerStep 0, .readerStep 0, .readerStep 0,
      .readerStep 0, .readerStep 0, .readerStep 0]
    ∃ s : ViewState Unit, (viewMachine Unit).Exec (viewStart Unit)
        ((added ++ .translateCall 0 5000 9 :: search) ++ [.translateRet 0 5000 9 (true, 66440)]) s ∧
      (true, 66440) = (true, Region.translate ⟨4096, 4096, 65536⟩ 5000) ∧
      ∃ since later, search = since ++ later ∧
        (true, 66440) = answer (publishedMap (added ++ .translateCall 0 5000 9 :: since)) 5000 9 := by
  intro added search
  have h : (viewMachine Unit).Exec (viewStart Unit)
      ((added ++ .translateCall 0 5000 9 :: search) ++ [.translateRet 0 5000 9 (true, 66440)]) _ :=
    .cons (.addCall rfl) <|
    .cons (.checkOk rfl (by decide)) <|
    .cons (.lock rfl rfl) <|
    .cons (.load (j := 0) rfl ⟨le_rfl, rfl⟩) <|
    .cons (.scanOk (j := 0) (t := .empty) rfl ⟨le_rfl, rfl⟩ (fun _ ht => Cell.live.inj ht)
      (findPos_empty _)) <|
    .cons (.malloc_one (j := 0) 1 ⟨7, 7, 7⟩ rfl ⟨le_rfl, rfl⟩ (fun _ ht => Cell.live.inj ht) rfl) <|
    .cons (.fill (j := 0) (k := 1) (t := .empty) rfl ⟨le_rfl, rfl⟩
      (fun _ ht => Cell.live.inj ht) ⟨le_rfl, rfl⟩ (fun _ ht => Cell.live.inj ht)) <|
    .cons (.fill (j := 0) (k := 2) (t := .empty) rfl ⟨le_rfl, rfl⟩
      (fun _ ht => Cell.live.inj ht) ⟨le_rfl, rfl⟩ (fun _ ht => Cell.live.inj ht)) <|
    .cons (.fill (j := 0) (k := 3) (t := .empty) rfl ⟨le_rfl, rfl⟩
      (fun _ ht => Cell.live.inj ht) ⟨le_rfl, rfl⟩ (fun _ ht => Cell.live.inj ht)) <|
    .cons (.fill (j := 0) (k := 4) (t := .empty) rfl ⟨le_rfl, rfl⟩
      (fun _ ht => Cell.live.inj ht) ⟨le_rfl, rfl⟩ (fun _ ht => Cell.live.inj ht)) <|
    .cons (.publish rfl) <|
    .cons (.waitOut (i := 0) (j := 0) rfl ⟨⟨le_rfl, rfl⟩, by decide⟩ (by decide)) <|
    .cons (.waitOut (i := 1) (j := 0) rfl ⟨⟨le_rfl, rfl⟩, by decide⟩ (by decide)) <|
    .cons (.waitOut (i := 2) (j := 0) rfl ⟨⟨le_rfl, rfl⟩, by decide⟩ (by decide)) <|
    .cons (.waitOut (i := 3) (j := 0) rfl ⟨⟨le_rfl, rfl⟩, by decide⟩ (by decide)) <|
    .cons (.waitOut (i := 4) (j := 0) rfl ⟨⟨le_rfl, rfl⟩, by decide⟩ (by decide)) <|
    .cons (.waitOut (i := 5) (j := 0) rfl ⟨⟨le_rfl, rfl⟩, by decide⟩ (by decide)) <|
    .cons (.waitOut (i := 6) (j := 0) rfl ⟨⟨le_rfl, rfl⟩, by decide⟩ (by decide)) <|
    .cons (.waitOut (i := 7) (j := 0) rfl ⟨⟨le_rfl, rfl⟩, by decide⟩ (by decide)) <|
    .cons (.waitEnd rfl) <|
    .cons (.free rfl) <|
    .cons (.unlock rfl) <|
    .cons (.translateCall rfl) <|
    .cons (.beginLoad (j := 0) rfl ⟨le_rfl, rfl⟩) <|
    .cons (.beginStore rfl) <|
    .cons (.loadCurrent (j := 1) rfl ⟨⟨by decide, rfl⟩, by decide⟩) <|
    .cons (.readN (p := 1) (j := 5) (t := ⟨1, [⟨4096, 4096, 65536⟩]⟩) rfl ⟨le_rfl, rfl⟩
      (fun _ ht => Cell.live.inj ht)) <|
    .cons (.searchRight (p := 1) (j := 5) (t := ⟨1, [⟨4096, 4096, 65536⟩]⟩) rfl (by decide)
      ⟨le_rfl, rfl⟩ (fun _ ht => Cell.live.inj ht) (by decide)) <|
    .cons (.searchEnd (p := 1) (j := 5) (t := ⟨1, [⟨4096, 4096, 65536⟩]⟩) rfl (by decide)
      ⟨le_rfl, rfl⟩ (fun _ ht => Cell.live.inj ht)) <|
    .cons (.endLoad (j := 1) rfl ⟨le_rfl, rfl⟩) <|
    .cons (.endStore rfl) .nil
  obtain ⟨earlier, since, later, hsplit, -, hans, hfound⟩ := translate_answered h
  -- There is one call, so the cut is there.
  obtain ⟨rfl, -, hlater⟩ :=
    (List.append_cons_inj_of_notMem (by simp [added]) (by simp [search])).mp hsplit
  exact ⟨_, h, hfound () _ (by simp [added]) ⟨by decide, by decide⟩, since, later, hlater, hans⟩

end Rcu
