import SystemsDrills.ParkingLot.Tickets

/-!
# Drivers who present a ticket once

A ticket is not bound to a stay, so a driver who keeps an old one can open the place again when
another vehicle stands there.  This is all that can go wrong: if each ticket is presented at most
once, then no ticket is rejected, the tickets that are still out name the occupied places, one
ticket each, and the lot is as good as new when all of them were presented.
-/

namespace ParkingLot

open Transition

variable {lot lot' : Lot} {d d' : Desk} {e : Event} {events : List Event} {used : List Nat}
  {t t' : Ticket} {k : Nat}

/-- The number of the ticket that was presented. -/
def Event.presented : Event → Option Nat
  | .left k _ | .rejected k _ => some k
  | .parked _ | .full _ => none

/-- The numbers of the tickets that were presented. -/
def presented (events : List Event) : List Nat := events.filterMap Event.presented

theorem presented_cons (e : Event) (events : List Event) :
    presented (e :: events) = e.presented.toList ++ presented events := by
  rw [presented, List.filterMap_cons]
  cases e.presented <;> rfl

/-- Ticket `k` is for place `t`, and it was not presented yet. -/
def Desk.Out (d : Desk) (used : List Nat) (k : Nat) (t : Ticket) : Prop :=
  d.issued[k]? = some t ∧ k ∉ used

/-- Each ticket that is out is good for a place of its own, and there is one for each place that is
occupied. -/
structure Owned (d : Desk) (used : List Nat) : Prop where
  inRange : ∀ k t, d.Out used k t → d.lot.InRange t
  occupied : ∀ k t, d.Out used k t → d.occupied t = true
  owner : ∀ t, d.lot.InRange t → d.occupied t = true → ∃ k, d.Out used k t
  once : ∀ j k t, d.Out used j t → d.Out used k t → j = k
  /-- Only tickets that were issued are presented. -/
  used_lt : ∀ k ∈ used, k < d.issued.length

/-! ## What a step does to the tickets that are out -/

/-- A ticket that is issued is out, and the others are as before. -/
theorem Owned.out_issue (h : Owned d used) :
    (⟨lot', d.issued ++ [t]⟩ : Desk).Out used k t' ↔
      d.Out used k t' ∨ k = d.issued.length ∧ t' = t := by
  have hnew : d.issued.length ∉ used := fun hin => lt_irrefl _ (h.used_lt _ hin)
  simp only [Desk.Out, List.getElem?_append]
  grind

/-- A ticket that is presented is out no longer. -/
theorem out_present {j : Nat} :
    (⟨lot', d.issued⟩ : Desk).Out (used ++ [k]) j t' ↔ d.Out used j t' ∧ j ≠ k := by
  simp only [Desk.Out, List.mem_append, List.mem_singleton]
  tauto

/-- A ticket for a free place is issued. -/
theorem Owned.issue (h : Owned d used) (hf : Follows d (.parked t) ⟨lot', d.issued ++ [t]⟩) :
    Owned ⟨lot', d.issued ++ [t]⟩ used := by
  obtain ⟨ht, hfree⟩ := hf.parked t rfl
  have hflag : ∀ t', d.lot.InRange t' → (⟨lot', d.issued ++ [t]⟩ : Desk).occupied t' =
      if t = t' then true else d.occupied t' := hf.flag
  -- No ticket was out for the place.
  have hnone : ∀ k, ¬ d.Out used k t := fun k hk => by
    rw [h.occupied k t hk] at hfree
    cases hfree
  have hrange : ∀ k t', (⟨lot', d.issued ++ [t]⟩ : Desk).Out used k t' → d.lot.InRange t' := by
    intro k t' hk
    rcases h.out_issue.mp hk with hk | ⟨-, rfl⟩
    · exact h.inRange k t' hk
    · exact ht
  refine ⟨fun k t' hk => (hf.inRange t').mpr (hrange k t' hk), ?_, ?_, ?_, ?_⟩
  · intro k t' hk
    rw [hflag t' (hrange k t' hk)]
    rcases h.out_issue.mp hk with hk | ⟨-, rfl⟩
    · rw [h.occupied k t' hk, ite_self]
    · exact if_pos rfl
  · intro t' ht' hocc
    rw [hflag t' ((hf.inRange t').mp ht')] at hocc
    by_cases heq : t = t'
    · exact ⟨d.issued.length, h.out_issue.mpr (.inr ⟨rfl, heq.symm⟩)⟩
    · rw [if_neg heq] at hocc
      obtain ⟨k, hk⟩ := h.owner t' ((hf.inRange t').mp ht') hocc
      exact ⟨k, h.out_issue.mpr (.inl hk)⟩
  · intro j k t' hj hk
    rcases h.out_issue.mp hj with hj | ⟨rfl, rfl⟩ <;>
      rcases h.out_issue.mp hk with hk | ⟨rfl, heq⟩
    · exact h.once j k t' hj hk
    · exact absurd (heq ▸ hj) (hnone j)
    · exact absurd hk (hnone k)
    · rfl
  · intro k hk
    rw [List.length_append]
    exact Nat.lt_add_right _ (h.used_lt k hk)

/-- The ticket of an occupied place is presented. -/
theorem Owned.present (h : Owned d used) (hf : Follows d (.left k t) ⟨lot', d.issued⟩)
    (hk : d.Out used k t) : Owned ⟨lot', d.issued⟩ (used ++ [k]) := by
  have hflag : ∀ t', d.lot.InRange t' → (⟨lot', d.issued⟩ : Desk).occupied t' =
      if t = t' then false else d.occupied t' := hf.flag
  refine ⟨?_, ?_, ?_, ?_, ?_⟩
  · intro j t' hj
    exact (hf.inRange t').mpr (h.inRange j t' (out_present.mp hj).1)
  · intro j t' hj
    obtain ⟨hj, hne⟩ := out_present.mp hj
    rw [hflag t' (h.inRange j t' hj), if_neg]
    · exact h.occupied j t' hj
    · rintro rfl
      exact hne (h.once j k t hj hk)
  · intro t' ht' hocc
    rw [hflag t' ((hf.inRange t').mp ht')] at hocc
    split at hocc
    · cases hocc
    · next hne =>
        obtain ⟨j, hj⟩ := h.owner t' ((hf.inRange t').mp ht') hocc
        refine ⟨j, out_present.mpr ⟨hj, ?_⟩⟩
        rintro rfl
        exact hne (Option.some.inj (hk.1.symm.trans hj.1))
  · intro i j t' hi hj
    exact h.once i j t' (out_present.mp hi).1 (out_present.mp hj).1
  · intro j hj
    rcases List.mem_append.mp hj with hj | hj
    · exact h.used_lt j hj
    · rw [List.mem_singleton.mp hj]
      exact (List.getElem?_eq_some_iff.mp hk.1).1

/-- A step with a ticket that was not presented before. -/
theorem Owned.step (h : Owned d used) (hshape : d.lot.Shape) (hstep : Step d e d')
    (honce : ∀ k ∈ e.presented, k ∉ used) :
    Owned d' (used ++ e.presented.toList) ∧ ∀ k t, e ≠ .rejected k t := by
  have hf := Follows.of_step hshape hstep
  cases hstep with
  | parked heq =>
      refine ⟨?_, nofun⟩
      rw [Event.presented, Option.toList_none, List.append_nil]
      exact h.issue hf
  | full heq =>
      obtain rfl := of_assigner_eq_none heq
      refine ⟨?_, nofun⟩
      rw [Event.presented, Option.toList_none, List.append_nil]
      exact h
  | left hk heq => exact ⟨h.present hf ⟨hk, honce _ rfl⟩, nofun⟩
  | rejected hk heq =>
      -- It is out, so its place is occupied and it is accepted.
      have hout := And.intro hk (honce _ rfl)
      exact absurd ⟨h.inRange _ _ hout, h.occupied _ _ hout⟩ (of_deassigner_eq_false heq).1

theorem Owned.exec (h : Owned d used) (hshape : d.lot.Shape) (hexec : (desk lot).Exec d events d')
    (honce : (used ++ presented events).Nodup) :
    Owned d' (used ++ presented events) ∧ ∀ k t, .rejected k t ∉ events := by
  induction hexec generalizing used with
  | nil =>
      refine ⟨?_, fun _ _ => List.not_mem_nil⟩
      rw [presented, List.filterMap_nil, List.append_nil]
      exact h
  | @cons d e d₁ events d' hstep hrest ih =>
      rw [presented_cons, ← List.append_assoc] at honce ⊢
      have hnew : ∀ k ∈ e.presented, k ∉ used := fun k hk hin =>
        List.disjoint_of_nodup_append honce.of_append_left hin (Option.mem_toList.mpr hk)
      obtain ⟨howned, hno⟩ := h.step hshape hstep hnew
      obtain ⟨hlast, hnone⟩ := ih howned (Follows.of_step hshape hstep).shape honce
      refine ⟨hlast, fun k t hin => ?_⟩
      rcases List.mem_cons.mp hin with heq | hin
      · exact hno k t heq.symm
      · exact hnone k t hin

/-! ## The lot when everybody has left -/

/-- The lot of a desk went through some calls. -/
theorem Step.exec_lot (h : Step d e d') : ∃ c : Call, d'.lot = (c.exec d.lot).2 := by
  cases h with
  | parked heq => exact ⟨.assigner _, by rw [Call.exec, heq]⟩
  | full heq => exact ⟨.assigner _, by rw [Call.exec, heq]⟩
  | left _ heq => exact ⟨.deassigner _, by rw [Call.exec, heq]⟩
  | rejected _ heq => exact ⟨.deassigner _, by rw [Call.exec, heq]⟩

theorem exists_calls (h : (desk lot).Exec d events d') : ∃ calls, d'.lot = run d.lot calls := by
  induction h with
  | nil => exact ⟨[], rfl⟩
  | cons hstep _ ih =>
      obtain ⟨c, hc⟩ := hstep.exec_lot
      obtain ⟨calls, hcalls⟩ := ih
      exact ⟨c :: calls, by rw [run_cons, ← hc, hcalls]⟩

/-- No call changes the numbers of levels and of places. -/
theorem bounds_run (lot : Lot) (calls : List Call) :
    (run lot calls).levels = lot.levels ∧ (run lot calls).spots_floor = lot.spots_floor := by
  induction calls generalizing lot with
  | nil => exact ⟨rfl, rfl⟩
  | cons c calls ih =>
      rw [run_cons]
      obtain ⟨hlevels, hfloor⟩ := ih (c.exec lot).2
      obtain ⟨_, _, -, -, heq⟩ | ⟨_, -, -, heq⟩ | heq := c.exec_cases lot <;>
        rw [heq] at hlevels hfloor ⊢ <;> exact ⟨hlevels, hfloor⟩

theorem Spot.eq_of_fields {sp sp' : Spot} (hocc : sp.occupied = sp'.occupied)
    (hsize : sp.size = sp'.size) : sp = sp' := by
  cases sp
  cases sp'
  cases hocc
  cases hsize
  rfl

/-- The flags say all about a lot with the right counters but the sizes of its spots. -/
theorem run_eq_of_flags (h : lot.Inv) (calls : List Call)
    (hflags : ∀ t, lot.InRange t →
      ((run lot calls).spotAt t).occupied = (lot.spotAt t).occupied) : run lot calls = lot := by
  have hrun := h.run calls
  obtain ⟨hlevels, hfloor⟩ := bounds_run lot calls
  have hrange : ∀ t, (run lot calls).InRange t ↔ lot.InRange t := fun t => by
    rw [Lot.InRange, Lot.InRange, hlevels, hfloor]
  have hindex : ∀ t, (run lot calls).index t = lot.index t := fun t => by
    rw [Lot.index, Lot.index, hfloor]
  have hsizes := map_size_run lot calls
  have hspots : (run lot calls).spots = lot.spots := by
    have hlength : (run lot calls).spots.length = lot.spots.length := by
      simpa using congrArg List.length hsizes
    refine List.ext_getElem hlength fun i hi hi' => ?_
    obtain ⟨t, ht, rfl, -⟩ := h.exists_ticket hi'
    obtain ⟨_, hget⟩ := h.getElem_index ht
    obtain ⟨_, hget'⟩ := hrun.getElem_index ((hrange t).mpr ht)
    simp only [hindex] at hget'
    have hsize : (run lot calls).spots[lot.index t].size = lot.spots[lot.index t].size := by
      simpa [hi, hi'] using congrArg (·[lot.index t]?) hsizes
    have hocc := hflags t ht
    rw [← hget, ← hget'] at hocc
    exact Spot.eq_of_fields hocc hsize
  refine Lot.ext hspots hlevels hfloor (funext fun s => UInt64.toNat_inj.mp ?_)
  rw [hrun.counts, h.counts, Lot.unoccupied, Lot.unoccupied, hspots]

variable {mem : Bool} {levels num_small num_medium num_large : UInt64}

/-- On a lot that was made without a wrap, if each ticket is presented at most once then none is
rejected, the tickets that are out name the occupied places, one ticket each, and once all were
presented the lot is as it was made. -/
theorem drivers_served (h : createLot mem levels num_small num_medium num_large = some lot)
    (hfits : Fits levels num_small num_medium num_large)
    (hexec : (desk lot).Exec ⟨lot, []⟩ events d) (honce : (presented events).Nodup) :
    (∀ k t, .rejected k t ∉ events) ∧
      (∀ t, lot.InRange t →
        ((d.lot.spotAt t).occupied = true ↔ ∃ k, d.Out (presented events) k t)) ∧
      (∀ j k t, d.Out (presented events) j t → d.Out (presented events) k t → j = k) ∧
      ((∀ k t, ¬ d.Out (presented events) k t) → d.lot = lot) := by
  have hinv := createLot_inv h hfits
  have hnew : ∀ t, lot.InRange t → (lot.spotAt t).occupied = false := fun t ht => by
    rw [(createLot_spots h hfits).2.2.2.2 t ht]
  have hnone : ∀ k t, ¬ Desk.Out ⟨lot, []⟩ [] k t := fun k t hk =>
    List.not_mem_nil (List.mem_of_getElem? hk.1)
  have hstart : Owned ⟨lot, []⟩ [] :=
    { inRange := fun k t hk => absurd hk (hnone k t)
      occupied := fun k t hk => absurd hk (hnone k t)
      owner := fun t ht hocc => absurd ((hnew t ht).symm.trans hocc) Bool.false_ne_true
      once := fun j _ t hj => absurd hj (hnone j t)
      used_lt := fun _ hk => absurd hk List.not_mem_nil }
  obtain ⟨howned, hserved⟩ := hstart.exec hinv.toShape hexec honce
  rw [List.nil_append] at howned
  obtain ⟨calls, hcalls⟩ := exists_calls hexec
  have hrange : ∀ t, d.lot.InRange t ↔ lot.InRange t := fun t => by
    obtain ⟨hlevels, hfloor⟩ := bounds_run lot calls
    rw [hcalls, Lot.InRange, Lot.InRange, hlevels, hfloor]
  have hflag : ∀ t, lot.InRange t →
      ((d.lot.spotAt t).occupied = true ↔ ∃ k, d.Out (presented events) k t) := by
    refine fun t ht => ⟨howned.owner t ((hrange t).mpr ht), fun hout => ?_⟩
    obtain ⟨k, hk⟩ := hout
    exact howned.occupied k t hk
  refine ⟨hserved, hflag, howned.once, fun hall => ?_⟩
  have hfree : ∀ t, lot.InRange t → (d.lot.spotAt t).occupied = (lot.spotAt t).occupied := by
    intro t ht
    rw [hnew t ht, Bool.eq_false_iff]
    intro hocc
    obtain ⟨k, hk⟩ := (hflag t ht).mp hocc
    exact hall k t hk
  rw [hcalls] at hfree ⊢
  exact run_eq_of_flags hinv calls hfree

/-- Two trucks one after the other leave the only spot as they found it. -/
theorem drivers_served_trucks :
    ∃ d, (desk oneLarge).Exec ⟨oneLarge, []⟩
        [.parked ⟨0, 0⟩, .left 0 ⟨0, 0⟩, .parked ⟨0, 0⟩, .left 1 ⟨0, 0⟩] d ∧
      d.issued = [⟨0, 0⟩, ⟨0, 0⟩] ∧ d.lot = oneLarge := by
  have hexec : (desk oneLarge).Exec ⟨oneLarge, []⟩
      [.parked ⟨0, 0⟩, .left 0 ⟨0, 0⟩, .parked ⟨0, 0⟩, .left 1 ⟨0, 0⟩] _ :=
    .cons (.parked (v := .truck) rfl) (.cons (.left rfl rfl) (.cons (.parked (v := .truck) rfl)
      (.cons (.left rfl rfl) .nil)))
  refine ⟨_, hexec, rfl, ?_⟩
  have hlast := (drivers_served createLot_oneLarge ⟨by decide, by decide⟩ hexec (by decide)).2.2.2
  refine hlast fun k t ⟨hk, hin⟩ => ?_
  have hlt : k < 2 := (List.getElem?_eq_some_iff.mp hk).1
  have hmem : k ∈ [0, 1] := by
    rw [List.mem_cons, List.mem_singleton]
    omega
  exact hin hmem

end ParkingLot
