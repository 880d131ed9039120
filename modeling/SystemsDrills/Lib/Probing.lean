import Mathlib.Tactic

/-!
# Open addressing with linear probing

A table has `cap` slots, each empty or with an entry.  A key `k` is looked for from its home
slot on, in the slots `(home k + d) % cap`, until its entry or an empty slot is met.  The keys
of a table are distinct, and between the home slot of a stored key and its own slot there is no
empty slot (`Sound`).  So the search ends at the entry of the key if there is one, and at an
empty slot otherwise, provided that there is one.

`Represents` says which finite map a table stands for.  Nothing is assumed of the keys but that
they can be compared, and nothing of `home`.
-/

namespace Probing

variable {K : Type u} {V : Type v} {cap : Nat} {home : K → Nat} {slot : Nat → Option (K × V)}
  {k k' : K} {v : V}

/-- The slot that is looked at after `d` others. -/
def walk (cap : Nat) (home : K → Nat) (k : K) (d : Nat) : Nat := (home k + d) % cap

theorem walk_lt (hcap : 0 < cap) (k : K) (d : Nat) : walk cap home k d < cap := Nat.mod_lt _ hcap

theorem walk_succ (k : K) (d : Nat) : walk cap home k (d + 1) = (walk cap home k d + 1) % cap := by
  rw [walk, walk, Nat.mod_add_mod, Nat.add_assoc]

/-- Every slot is met within `cap` steps. -/
theorem exists_walk (home : K → Nat) {i : Nat} (hi : i < cap) (k : K) :
    ∃ d < cap, walk cap home k d = i := by
  have hcap : 0 < cap := Nat.zero_lt_of_lt hi
  have hhome : home k % cap < cap := Nat.mod_lt _ hcap
  refine ⟨(i + cap - home k % cap) % cap, Nat.mod_lt _ hcap, ?_⟩
  rw [walk, Nat.add_mod_mod, ← Nat.mod_add_mod, ← Nat.add_sub_assoc (by omega),
    Nat.add_sub_cancel_left, Nat.add_mod_right, Nat.mod_eq_of_lt hi]

/-- The search for `k` from slot `i`.  It may run out of `fuel`. -/
def probe [DecidableEq K] (cap : Nat) (slot : Nat → Option (K × V)) (k : K) : Nat → Nat → Option Nat
  | 0, _ => none
  | fuel + 1, i =>
    match slot i with
    | none => some i
    | some e => if e.1 = k then some i else probe cap slot k fuel ((i + 1) % cap)

/-- The keys are distinct, and no slot before that of a key is empty. -/
structure Sound (cap : Nat) (home : K → Nat) (slot : Nat → Option (K × V)) : Prop where
  distinct : ∀ i < cap, ∀ j < cap, ∀ k v w, slot i = some (k, v) → slot j = some (k, w) → i = j
  reached : ∀ i < cap, ∀ k v, slot i = some (k, v) →
    ∃ d < cap, walk cap home k d = i ∧ ∀ e < d, slot (walk cap home k e) ≠ none

/-- The search may stop at this slot. -/
def Stops (slot : Nat → Option (K × V)) (k : K) (i : Nat) : Prop :=
  slot i = none ∨ ∃ v, slot i = some (k, v)

/-- The search ends at the first slot where it may stop. -/
theorem probe_walk [DecidableEq K] {n fuel e : Nat} (hfuel : n < fuel)
    (hpass : ∀ m < n, ¬ Stops slot k (walk cap home k (e + m)))
    (hstop : Stops slot k (walk cap home k (e + n))) :
    probe cap slot k fuel (walk cap home k e) = some (walk cap home k (e + n)) := by
  induction n generalizing fuel e with
  | zero =>
      obtain ⟨fuel, rfl⟩ := Nat.exists_eq_succ_of_ne_zero (Nat.ne_of_gt hfuel)
      obtain hnone | ⟨v, hsome⟩ := hstop
      · rw [probe, ← Nat.add_zero e, hnone]
      · rw [probe, ← Nat.add_zero e, hsome]
        exact if_pos rfl
  | succ n ih =>
      obtain ⟨fuel, rfl⟩ := Nat.exists_eq_succ_of_ne_zero (Nat.ne_of_gt (Nat.zero_lt_of_lt hfuel))
      have hfirst := hpass 0 (Nat.succ_pos n)
      rw [Nat.add_zero, Stops, not_or] at hfirst
      obtain ⟨⟨k', v⟩, hentry⟩ := Option.ne_none_iff_exists'.mp hfirst.1
      have hne : k' ≠ k := by
        rintro rfl
        exact hfirst.2 ⟨v, hentry⟩
      rw [probe, hentry, ← walk_succ]
      rw [show e + (n + 1) = e + 1 + n by omega] at hstop ⊢
      refine (if_neg hne).trans (ih (Nat.lt_of_succ_lt_succ hfuel) (fun m hm => ?_) hstop)
      rw [Nat.add_assoc, Nat.add_comm 1 m]
      exact hpass (m + 1) (Nat.succ_lt_succ hm)

/-- The slot where the search for `k` ends. -/
structure Finds (cap : Nat) (home : K → Nat) (slot : Nat → Option (K × V)) (k : K) (i : Nat) :
    Prop where
  lt : i < cap
  reached : ∃ d < cap, walk cap home k d = i ∧ ∀ e < d, slot (walk cap home k e) ≠ none
  stops : Stops slot k i
  absent : slot i = none → ∀ j < cap, ∀ v, slot j ≠ some (k, v)

/-- The search ends within `cap` slots if one of them is empty. -/
theorem Sound.finds [DecidableEq K] (h : Sound cap home slot) (hempty : ∃ i < cap, slot i = none)
    (k : K) :
    ∃ i, Finds cap home slot k i ∧
      ∀ fuel, cap ≤ fuel → probe cap slot k fuel (walk cap home k 0) = some i := by
  classical
  obtain ⟨i₀, hi₀, hnone⟩ := hempty
  obtain ⟨d₀, hd₀, rfl⟩ := exists_walk home hi₀ k
  have hex : ∃ d, Stops slot k (walk cap home k d) := ⟨d₀, .inl hnone⟩
  have hstop := Nat.find_spec hex
  have hpass : ∀ e < Nat.find hex, ¬ Stops slot k (walk cap home k e) := fun e he =>
    Nat.find_min hex he
  have hlt : Nat.find hex < cap := (Nat.find_min' hex (.inl hnone)).trans_lt hd₀
  refine ⟨walk cap home k (Nat.find hex), ⟨walk_lt (Nat.zero_lt_of_lt hlt) k _,
    ⟨_, hlt, rfl, fun e he h0 => hpass e he (.inl h0)⟩, hstop, ?_⟩, fun fuel hfuel => ?_⟩
  · -- The entry of `k` would have been met, since no slot before it is empty.
    intro h0 j hj v hentry
    obtain ⟨d, -, rfl, hfull⟩ := h.reached j hj k v hentry
    have hle : Nat.find hex ≤ d := Nat.find_min' hex (.inr ⟨v, hentry⟩)
    rcases hle.lt_or_eq with hlt | heq
    · exact hfull _ hlt h0
    · rw [heq, hentry] at h0
      cases h0
  · have hend : probe cap slot k fuel (walk cap home k 0) =
        some (walk cap home k (0 + Nat.find hex)) := by
      refine probe_walk (hlt.trans_le hfuel) (fun m hm => ?_) ?_
      · rw [Nat.zero_add]
        exact hpass m hm
      · rw [Nat.zero_add]
        exact hstop
    rwa [Nat.zero_add] at hend

/-- A table with distinct keys that are fewer than its slots has an empty slot. -/
theorem Sound.exists_empty (h : Sound cap home slot) {keys : Finset K}
    (hkeys : ∀ i < cap, ∀ k v, slot i = some (k, v) → k ∈ keys) (hcard : keys.card < cap) :
    ∃ i < cap, slot i = none := by
  by_contra hfull
  push Not at hfull
  have hentry : ∀ i, ∃ k : K, i < cap → ∃ v, slot i = some (k, v) := by
    intro i
    by_cases hi : i < cap
    · obtain ⟨⟨k, v⟩, he⟩ := Option.ne_none_iff_exists'.mp (hfull i hi)
      exact ⟨k, fun _ => ⟨v, he⟩⟩
    · obtain ⟨⟨k, v⟩, -⟩ := Option.ne_none_iff_exists'.mp (hfull 0 (by omega))
      exact ⟨k, fun hi' => absurd hi' hi⟩
  choose key hkey using hentry
  have hle := Finset.card_le_card_of_injOn (s := Finset.range cap) (t := keys) key
    (fun i hi => by
      obtain ⟨v, he⟩ := hkey i (Finset.mem_range.mp hi)
      exact hkeys i (Finset.mem_range.mp hi) _ v he)
    (fun i hi j hj heq => by
      have hi := Finset.mem_range.mp hi
      have hj := Finset.mem_range.mp hj
      obtain ⟨v, he⟩ := hkey i hi
      obtain ⟨w, he'⟩ := hkey j hj
      rw [← heq] at he'
      exact h.distinct i hi j hj _ v w he he')
  rw [Finset.card_range] at hle
  omega

/-! ## The map of a table -/

/-- The entries of the table are those of `m`. -/
def Represents (cap : Nat) (slot : Nat → Option (K × V)) (m : K → Option V) : Prop :=
  ∀ k v, m k = some v ↔ ∃ i < cap, slot i = some (k, v)

variable {m : K → Option V} {i : Nat}

/-- The slot that is found has the value of the key, if there is one. -/
theorem Finds.represents (h : Finds cap home slot k i) (hm : Represents cap slot m) :
    (slot i).map Prod.snd = m k := by
  obtain hnone | ⟨v, hsome⟩ := h.stops
  · rw [hnone, Option.map_none, eq_comm, Option.eq_none_iff_forall_ne_some]
    intro v hv
    obtain ⟨j, hj, hentry⟩ := (hm k v).mp hv
    exact h.absent hnone j hj v hentry
  · rw [hsome, Option.map_some, eq_comm]
    exact (hm k v).mpr ⟨i, h.lt, hsome⟩

/-- No other slot has the key. -/
theorem Finds.eq (h : Finds cap home slot k i) (hs : Sound cap home slot) {j : Nat} (hj : j < cap)
    {w : V} (hentry : slot j = some (k, w)) : j = i := by
  obtain hnone | ⟨v, hsome⟩ := h.stops
  · exact absurd hentry (h.absent hnone j hj w)
  · exact hs.distinct j hj i h.lt k w v hentry hsome

/-- An entry of another key is not overwritten. -/
theorem Finds.ne (h : Finds cap home slot k i) {k' : K} {w : V} (hne : k' ≠ k) {j : Nat}
    (hentry : slot j = some (k', w)) : j ≠ i := by
  rintro rfl
  obtain hnone | ⟨v, hsome⟩ := h.stops
  · rw [hnone] at hentry
    cases hentry
  · rw [hsome] at hentry
    exact hne (congrArg Prod.fst (Option.some.inj hentry)).symm

/-- What is in a slot after a store. -/
theorem update_eq_some {j : Nat} {k' : K} {w : V}
    (hentry : Function.update slot i (some (k, v)) j = some (k', w)) :
    (j = i ∧ k' = k ∧ w = v) ∨ (j ≠ i ∧ slot j = some (k', w)) := by
  by_cases heq : j = i
  · subst heq
    rw [Function.update_self] at hentry
    obtain ⟨rfl, rfl⟩ := Prod.mk.inj (Option.some.inj hentry)
    exact .inl ⟨rfl, rfl, rfl⟩
  · rw [Function.update_of_ne heq] at hentry
    exact .inr ⟨heq, hentry⟩

/-- A store to the slot that was found keeps the table sound. -/
theorem Sound.store (hs : Sound cap home slot) (h : Finds cap home slot k i) (v : V) :
    Sound cap home (Function.update slot i (some (k, v))) := by
  -- No slot becomes empty.
  have hfull : ∀ j, slot j ≠ none → Function.update slot i (some (k, v)) j ≠ none := by
    intro j hj
    by_cases heq : j = i
    · subst heq
      rw [Function.update_self]
      exact Option.some_ne_none _
    · rwa [Function.update_of_ne heq]
  refine ⟨?_, ?_⟩
  · intro j hj j' hj' k' w w' hentry hentry'
    obtain ⟨rfl, rfl, -⟩ | ⟨-, hold⟩ := update_eq_some hentry
    · obtain ⟨rfl, -, -⟩ | ⟨-, hold'⟩ := update_eq_some hentry'
      · rfl
      · exact (h.eq hs hj' hold').symm
    · obtain ⟨rfl, rfl, -⟩ | ⟨-, hold'⟩ := update_eq_some hentry'
      · exact h.eq hs hj hold
      · exact hs.distinct j hj j' hj' k' w w' hold hold'
  · intro j hj k' w hentry
    have hreached : ∃ d < cap, walk cap home k' d = j ∧
        ∀ e < d, slot (walk cap home k' e) ≠ none := by
      obtain ⟨rfl, rfl, -⟩ | ⟨-, hold⟩ := update_eq_some hentry
      · exact h.reached
      · exact hs.reached j hj k' w hold
    obtain ⟨d, hd, hwalk, hrun⟩ := hreached
    exact ⟨d, hd, hwalk, fun e he => hfull _ (hrun e he)⟩

/-- A store to the slot that was found sets the value of the key and of no other. -/
theorem Represents.store [DecidableEq K] (hm : Represents cap slot m) (hs : Sound cap home slot)
    (h : Finds cap home slot k i) (v : V) :
    Represents cap (Function.update slot i (some (k, v))) (Function.update m k (some v)) := by
  intro k' w
  by_cases heq : k' = k
  · subst heq
    rw [Function.update_self]
    constructor
    · rintro ⟨⟩
      exact ⟨i, h.lt, Function.update_self ..⟩
    · rintro ⟨j, hj, hentry⟩
      obtain ⟨-, -, rfl⟩ | ⟨hne, hold⟩ := update_eq_some hentry
      · rfl
      · exact absurd (h.eq hs hj hold) hne
  · rw [Function.update_of_ne heq, hm]
    constructor
    · rintro ⟨j, hj, hold⟩
      exact ⟨j, hj, (Function.update_of_ne (h.ne heq hold) ..).trans hold⟩
    · rintro ⟨j, hj, hentry⟩
      obtain ⟨-, rfl, -⟩ | ⟨-, hold⟩ := update_eq_some hentry
      · exact absurd rfl heq
      · exact ⟨j, hj, hold⟩

end Probing
