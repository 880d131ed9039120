import SystemsDrills.Lib.Transition
import SystemsDrills.ParkingLot.Counters

/-!
# Tickets

Vehicles park and leave in any order, and a driver may present a ticket as often as he likes.
A ticket names a place and not the stay for which it was issued, so the ticket of an earlier
stay opens the place again once another vehicle stands there.  What the code keeps is the
account of each place: `deassigner` returns true at most once each time the place is handed
out, and the place is not handed out while it is occupied.
-/

namespace ParkingLot

open Transition

/-- The lot and the tickets that were issued, oldest first. -/
structure Desk where
  lot : Lot
  issued : List Ticket

/-- What came of a call. -/
inductive Event where
  /-- `assigner` returned true and filled the ticket. -/
  | parked (t : Ticket)
  /-- `assigner` returned false. -/
  | full (v : Vehicle)
  /-- `deassigner` returned true for the ticket that was issued as number `k`. -/
  | left (k : Nat) (t : Ticket)
  /-- `deassigner` returned false for it. -/
  | rejected (k : Nat) (t : Ticket)
deriving DecidableEq, Repr

/-- A call of `assigner`, or one of `deassigner` with a ticket issued so far. -/
inductive Step : Desk → Event → Desk → Prop where
  | parked : assigner d.lot v = (some t, lot) → Step d (.parked t) ⟨lot, d.issued ++ [t]⟩
  | full : assigner d.lot v = (none, lot) → Step d (.full v) ⟨lot, d.issued⟩
  | left : d.issued[k]? = some t → deassigner d.lot t = (true, lot) →
      Step d (.left k t) ⟨lot, d.issued⟩
  | rejected : d.issued[k]? = some t → deassigner d.lot t = (false, lot) →
      Step d (.rejected k t) ⟨lot, d.issued⟩

/-- A lot of which no ticket was issued yet. -/
def desk (lot : Lot) : System Desk Event where
  init d := d = ⟨lot, []⟩
  step := Step

/-- Each ticket makes `deassigner` return true at most once. -/
def OneLeave (lot : Lot) : Prop :=
  ∀ events d, (desk lot).Exec ⟨lot, []⟩ events d → ∀ k t, events.count (.left k t) ≤ 1

/-- A lot with a single spot. -/
def oneLarge : Lot := (createLot true 1 0 0 1).get rfl

theorem createLot_oneLarge : createLot true 1 0 0 1 = some oneLarge := (Option.some_get _).symm

/-- The ticket of the first truck is accepted again when the second one stands there. -/
theorem not_oneLeave : createLot true 1 0 0 1 = some oneLarge ∧ ¬ OneLeave oneLarge := by
  refine ⟨createLot_oneLarge, fun h => ?_⟩
  have htwice := h [.parked ⟨0, 0⟩, .left 0 ⟨0, 0⟩, .parked ⟨0, 0⟩, .left 0 ⟨0, 0⟩] _
    (.cons (.parked (v := .truck) rfl) (.cons (.left rfl rfl) (.cons (.parked (v := .truck) rfl)
      (.cons (.left rfl rfl) .nil)))) 0 ⟨0, 0⟩
  exact absurd htwice (by decide)

/-! ## The account of a place -/

variable {lot : Lot} {d d' : Desk} {e : Event} {events : List Event} {t : Ticket}

/-- Whether the spot of a place is occupied. -/
def Desk.occupied (d : Desk) (t : Ticket) : Bool := (d.lot.spotAt t).occupied

/-- What an event makes of the flag of a place. -/
def Event.flag (t : Ticket) (occ : Bool) : Event → Bool
  | .parked t' => if t' = t then true else occ
  | .left _ t' => if t' = t then false else occ
  | .full _ => occ
  | .rejected _ _ => occ

/-- How often a place was handed out. -/
def issues (t : Ticket) (events : List Event) : Nat := events.countP fun
  | .parked t' => t' = t
  | _ => false

/-- How often a ticket for a place was accepted. -/
def leaves (t : Ticket) (events : List Event) : Nat := events.countP fun
  | .left _ t' => t' = t
  | _ => false

/-- A step does to each place what its event says, and is possible only if the flag allows. -/
structure Follows (d : Desk) (e : Event) (d' : Desk) : Prop where
  shape : d'.lot.Shape
  inRange : ∀ t, d'.lot.InRange t ↔ d.lot.InRange t
  flag : ∀ t, d.lot.InRange t → d'.occupied t = e.flag t (d.occupied t)
  parked : ∀ t, e = .parked t → d.lot.InRange t ∧ d.occupied t = false
  left : ∀ k t, e = .left k t → d.lot.InRange t ∧ d.occupied t = true

theorem Lot.Shape.occupied_setSpot (h : lot.Shape) {t t' : Ticket} (ht : lot.InRange t)
    (ht' : lot.InRange t') (occ : Bool) :
    ((lot.setSpot t { lot.spotAt t with occupied := occ }).spotAt t').occupied =
      if t = t' then occ else (lot.spotAt t').occupied := by
  by_cases heq : t = t'
  · subst heq
    rw [if_pos rfl, h.spotAt_setSpot_self ht]
  · rw [if_neg heq, h.spotAt_setSpot_of_ne ht ht' (Ne.symm heq)]

theorem Follows.of_step (h : d.lot.Shape) (hstep : Step d e d') : Follows d e d' := by
  cases hstep with
  | parked heq =>
      obtain ⟨s, -, ⟨ht, hspot⟩, rfl⟩ := of_assigner_eq_some heq
      refine ⟨(h.setSpot _ _).setCount _ _, fun _ => Iff.rfl, ?_, ?_, nofun⟩
      · intro t' ht'
        exact h.occupied_setSpot ht ht' true
      · rintro _ ⟨⟩
        exact ⟨ht, congrArg Spot.occupied hspot⟩
  | full heq =>
      obtain rfl := of_assigner_eq_none heq
      exact ⟨h, fun _ => Iff.rfl, fun _ _ => rfl, nofun, nofun⟩
  | left _ heq =>
      obtain ⟨ht, hocc, rfl⟩ := of_deassigner_eq_true heq
      refine ⟨(h.setSpot _ _).setCount _ _, fun _ => Iff.rfl, ?_, nofun, ?_⟩
      · intro t' ht'
        exact h.occupied_setSpot ht ht' false
      · rintro _ _ ⟨⟩
        exact ⟨ht, hocc⟩
  | rejected _ heq =>
      obtain ⟨-, rfl⟩ := of_deassigner_eq_false heq
      exact ⟨h, fun _ => Iff.rfl, fun _ _ => rfl, nofun, nofun⟩

theorem Follows.exec_shape (h : d.lot.Shape) (hexec : (desk lot).Exec d events d') :
    d'.lot.Shape := by
  induction hexec with
  | nil => exact h
  | cons hstep _ ih => exact ih (Follows.of_step h hstep).shape

/-- The flag of a place follows the events. -/
theorem Follows.exec_flag (h : d.lot.Shape) (hexec : (desk lot).Exec d events d')
    (ht : d.lot.InRange t) : d'.occupied t = events.foldl (Event.flag t) (d.occupied t) := by
  induction hexec with
  | nil => rfl
  | cons hstep _ ih =>
      have hf := Follows.of_step h hstep
      rw [List.foldl_cons, ← hf.flag t ht]
      exact ih hf.shape ((hf.inRange t).mpr ht)

/-- A step hands a free place out, takes an occupied one back or leaves it as it is. -/
theorem Follows.balance (hf : Follows d e d') (ht : d.lot.InRange t) :
    issues t [e] + (d.occupied t).toNat = leaves t [e] + (d'.occupied t).toNat := by
  rw [hf.flag t ht]
  cases e with
  | parked t' =>
      by_cases heq : t' = t
      · subst heq
        simp [issues, leaves, Event.flag, (hf.parked t' rfl).2]
      · simp [issues, leaves, Event.flag, heq]
  | left k t' =>
      by_cases heq : t' = t
      · subst heq
        simp [issues, leaves, Event.flag, (hf.left k t' rfl).2]
      · simp [issues, leaves, Event.flag, heq]
  | full v => rfl
  | rejected k t' => rfl

/-- A place was handed out as often as it was left, and once more if it is occupied. -/
theorem Follows.exec_balance (h : d.lot.Shape) (hexec : (desk lot).Exec d events d')
    (ht : d.lot.InRange t) :
    issues t events + (d.occupied t).toNat = leaves t events + (d'.occupied t).toNat := by
  induction hexec with
  | nil => rfl
  | @cons _ e _ events _ hstep _ ih =>
      have hf := Follows.of_step h hstep
      have hfirst := hf.balance ht
      have hrest := ih hf.shape ((hf.inRange t).mpr ht)
      have hissues : issues t (e :: events) = issues t [e] + issues t events := by
        rw [issues, ← List.singleton_append, List.countP_append]
        rfl
      have hleaves : leaves t (e :: events) = leaves t [e] + leaves t events := by
        rw [leaves, ← List.singleton_append, List.countP_append]
        rfl
      omega

/-- An event that does not hand the place out leaves it free. -/
theorem Event.flag_false (h : e ≠ .parked t) : e.flag t false = false := by
  cases e with
  | parked t' => exact if_neg fun heq => h (by rw [heq])
  | left k t' => exact ite_self _
  | full v => rfl
  | rejected k t' => rfl

/-- An event that does not give the place back leaves it occupied. -/
theorem Event.flag_true (h : ∀ k, e ≠ .left k t) : e.flag t true = true := by
  cases e with
  | parked t' => exact ite_self _
  | left k t' => exact if_neg fun heq => h k (by rw [heq])
  | full v => rfl
  | rejected k t' => rfl

theorem foldl_flag_false (h : .parked t ∉ events) : events.foldl (Event.flag t) false = false := by
  induction events with
  | nil => rfl
  | cons e events ih =>
      rw [List.mem_cons, not_or] at h
      rw [List.foldl_cons, Event.flag_false (Ne.symm h.1), ih h.2]

theorem foldl_flag_true (h : ∀ k, .left k t ∉ events) :
    events.foldl (Event.flag t) true = true := by
  induction events with
  | nil => rfl
  | cons e events ih =>
      rw [List.foldl_cons, Event.flag_true fun k heq => h k (heq ▸ List.mem_cons_self),
        ih fun k hin => h k (List.mem_cons_of_mem _ hin)]

/-- The flag after an event and some more. -/
theorem Follows.exec_flag_of_append (h : lot.Shape) {before after : List Event}
    (hexec : (desk lot).Exec ⟨lot, []⟩ (before ++ e :: after) d) (occ : Bool)
    (hset : ∀ b, e.flag t b = occ)
    (hrange : ∀ d₁ d₂, Follows d₁ e d₂ → d₁.lot.InRange t) :
    d.occupied t = after.foldl (Event.flag t) occ := by
  obtain ⟨d₁, hbefore, hrest⟩ := hexec.of_append
  cases hrest with
  | cons hstep hafter =>
      have hf := Follows.of_step (Follows.exec_shape h hbefore) hstep
      have ht := hrange _ _ hf
      rw [Follows.exec_flag hf.shape hafter ((hf.inRange t).mpr ht), hf.flag t ht, hset]

/-- A ticket is good for one leave each time its place is handed out.  After a leave, no ticket
for the place is accepted until it is handed out again, and a place that was handed out stays
occupied and is not handed out again until a ticket for it is accepted. -/
theorem one_leave_per_issue (h : lot.Shape) (hexec : (desk lot).Exec ⟨lot, []⟩ events d) :
    (∀ t, lot.InRange t → issues t events + (lot.spotAt t).occupied.toNat =
        leaves t events + (d.lot.spotAt t).occupied.toNat) ∧
      (∀ before k t after, events = before ++ Event.left k t :: after → Event.parked t ∉ after →
        deassigner d.lot t = (false, d.lot)) ∧
      ∀ before t after, events = before ++ Event.parked t :: after →
        (∀ k, Event.left k t ∉ after) →
        (d.lot.spotAt t).occupied = true ∧ ∀ v, (assigner d.lot v).1 ≠ some t := by
  refine ⟨fun t ht => Follows.exec_balance h hexec ht, ?_, ?_⟩
  · rintro before k t after rfl hno
    have hocc := Follows.exec_flag_of_append (t := t) h hexec false (fun _ => if_pos rfl)
      fun _ _ hf => (hf.left k t rfl).1
    rw [foldl_flag_false hno] at hocc
    obtain ⟨_ | _, lot', hres⟩ : ∃ r lot', deassigner d.lot t = (r, lot') := ⟨_, _, rfl⟩
    · rw [hres, (of_deassigner_eq_false hres).2]
    · exact absurd (of_deassigner_eq_true hres).2.1 (by rw [← Desk.occupied, hocc]; decide)
  · rintro before t after rfl hno
    have hocc := Follows.exec_flag_of_append (t := t) h hexec true (fun _ => if_pos rfl)
      fun _ _ hf => (hf.parked t rfl).1
    rw [foldl_flag_true hno] at hocc
    refine ⟨hocc, fun v hsome => ?_⟩
    have hres : assigner d.lot v = (some t, (assigner d.lot v).2) := Prod.ext hsome rfl
    obtain ⟨s, -, ⟨-, hspot⟩, -⟩ := of_assigner_eq_some hres
    rw [Desk.occupied, hspot] at hocc
    cases hocc

/-- The second leave in a row is rejected. -/
theorem one_leave_per_issue_truck :
    ∃ d, (desk oneLarge).Exec ⟨oneLarge, []⟩ [.parked ⟨0, 0⟩, .left 0 ⟨0, 0⟩] d ∧
      deassigner d.lot ⟨0, 0⟩ = (false, d.lot) := by
  have hexec : (desk oneLarge).Exec ⟨oneLarge, []⟩ [.parked ⟨0, 0⟩, .left 0 ⟨0, 0⟩] _ :=
    .cons (.parked (v := .truck) rfl) (.cons (.left rfl rfl) .nil)
  have hshape : oneLarge.Shape :=
    (createLot_inv createLot_oneLarge ⟨by decide, by decide⟩).toShape
  exact ⟨_, hexec,
    (one_leave_per_issue hshape hexec).2.1 [.parked ⟨0, 0⟩] 0 ⟨0, 0⟩ [] rfl List.not_mem_nil⟩

end ParkingLot
