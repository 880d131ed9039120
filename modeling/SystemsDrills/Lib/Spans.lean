import SystemsDrills.Lib.Search

/-!
# Sorted lists of disjoint spans

A span is anything with two ends `lo` and `hi` in a linear order, read as the
half-open interval `[lo, hi)`.  A `Chain` is a list of proper spans each of
which ends before the next one starts, so it is sorted and disjoint at once.

Three facts make such a list a good table.  A new span meets some span of the
chain if and only if it meets a neighbour of its insertion point
(`Chain.meets_iff`).  If it meets none, inserting it there keeps the chain
(`Chain.insert`).  A point is in a span of the chain if and only if it is in
the last span that starts at or before it (`Chain.contains_iff`).
-/

namespace Spans

open Search

variable {α : Type u} {β : Type v} [LinearOrder β] {lo hi : α → β}

/-- The half-open spans `a` and `b` share a point. -/
def Meets (lo hi : α → β) (a b : α) : Prop := lo a < hi b ∧ lo b < hi a

/-- The point `x` is in the half-open span `a`. -/
def Contains (lo hi : α → β) (a : α) (x : β) : Prop := lo a ≤ x ∧ x < hi a

theorem Meets.symm {a b : α} (h : Meets lo hi a b) : Meets lo hi b a := ⟨h.2, h.1⟩

/-- Proper spans, each of which ends before the next one starts. -/
structure Chain (lo hi : α → β) (l : List α) : Prop where
  proper : ∀ a ∈ l, lo a < hi a
  apart : l.Pairwise fun a b => hi a ≤ lo b

namespace Chain

variable {l : List α} {k : Nat}

theorem nil : Chain lo hi [] := ⟨by simp, .nil⟩

theorem sorted (h : Chain lo hi l) : l.Pairwise fun a b => lo a < lo b :=
  h.apart.imp_of_mem fun ha _ hab => (h.proper _ ha).trans_le hab

/-- Two spans of a chain that share a point are one. -/
theorem eq_of_contains (h : Chain lo hi l) {a b : α} {x : β} (ha : a ∈ l) (hb : b ∈ l)
    (hax : Contains lo hi a x) (hbx : Contains lo hi b x) : a = b := by
  obtain ⟨i, hi', rfl⟩ := List.mem_iff_getElem.mp ha
  obtain ⟨j, hj', rfl⟩ := List.mem_iff_getElem.mp hb
  have apart := List.pairwise_iff_getElem.mp h.apart
  rcases Nat.lt_trichotomy i j with hij | hij | hij
  · exact absurd ((hax.2.trans_le (apart i j hi' hj' hij)).trans_le hbx.1) (lt_irrefl x)
  · subst hij; rfl
  · exact absurd ((hbx.2.trans_le (apart j i hj' hi' hij)).trans_le hax.1) (lt_irrefl x)

/-- The spans of a chain that start before `x` are cut off from the others. -/
theorem exists_cut_lt (h : Chain lo hi l) (x : β) : ∃ k, IsCut (fun a => decide (lo a < x)) l k :=
  exists_isCut (h.sorted.imp fun hab hb => by
    simpa using hab.trans (by simpa using hb))

theorem exists_cut_le (h : Chain lo hi l) (x : β) : ∃ k, IsCut (fun a => decide (lo a ≤ x)) l k :=
  exists_isCut (h.sorted.imp fun hab hb => by
    simpa using hab.le.trans (by simpa using hb))

/-- Of the first `k` spans, only the last reaches beyond the start of the
last. -/
theorem eq_last (h : Chain lo hi l) {a : α} (hk : k ≤ l.length) (ha : a ∈ l.take k) {z : α}
    (hz : l[k - 1]? = some z) (haz : lo z < hi a) : a = z := by
  obtain ⟨i, hi', rfl⟩ := List.mem_take_iff_getElem.mp ha
  obtain ⟨hk', rfl⟩ := List.getElem?_eq_some_iff.mp hz
  by_cases hik : i = k - 1
  · subst hik; rfl
  · have := List.pairwise_iff_getElem.mp h.apart i (k - 1) (by omega) hk' (by omega)
    exact absurd haz (not_lt.mpr this)

/-- Of the spans from position `k` on, the first starts first. -/
theorem head_le (h : Chain lo hi l) {a b : α} (ha : a ∈ l.drop k) (hb : l[k]? = some b) :
    lo b ≤ lo a := by
  obtain ⟨i, hi', rfl⟩ := List.mem_drop_iff_getElem.mp ha
  obtain ⟨hk', rfl⟩ := List.getElem?_eq_some_iff.mp hb
  by_cases h0 : i = 0
  · subst h0; rfl
  · exact (List.pairwise_iff_getElem.mp h.sorted k (k + i) hk' (by omega) (by omega)).le

/-- Only the two neighbours of the insertion point can meet a new span. -/
theorem meets_iff (h : Chain lo hi l) {c : α} (hc : lo c < hi c)
    (hk : IsCut (fun a => decide (lo a < lo c)) l k) :
    (∃ a ∈ l, Meets lo hi a c) ↔
      (0 < k ∧ ∃ z, l[k - 1]? = some z ∧ lo c < hi z) ∨ ∃ b, l[k]? = some b ∧ lo b < hi c := by
  constructor
  · rintro ⟨a, ha, hac, hca⟩
    rw [← List.take_append_drop k l, List.mem_append] at ha
    rcases ha with ha | ha
    · have hpos : 0 < k := by
        rcases Nat.eq_zero_or_pos k with rfl | h0
        · simp at ha
        · exact h0
      have hlt : k - 1 < l.length := by have := hk.le; omega
      have hz : l[k - 1]? = some l[k - 1] := List.getElem?_eq_getElem hlt
      have hzc : lo l[k - 1] < lo c := by
        simpa using (hk.iff (k - 1) hlt).mpr (by omega)
      exact .inl ⟨hpos, _, hz, h.eq_last hk.le ha hz (hzc.trans hca) ▸ hca⟩
    · have hlt : k < l.length := by
        by_contra hge
        simp [List.drop_eq_nil_of_le (not_lt.mp hge)] at ha
      have hb : l[k]? = some l[k] := List.getElem?_eq_getElem hlt
      exact .inr ⟨_, hb, (h.head_le ha hb).trans_lt hac⟩
  · rintro (⟨hpos, z, hz, hcz⟩ | ⟨b, hb, hbc⟩)
    · obtain ⟨hlt, rfl⟩ := List.getElem?_eq_some_iff.mp hz
      have hzc : lo l[k - 1] < lo c := by
        simpa using (hk.iff (k - 1) hlt).mpr (by omega)
      exact ⟨_, List.getElem_mem hlt, hzc.trans hc, hcz⟩
    · obtain ⟨hlt, rfl⟩ := List.getElem?_eq_some_iff.mp hb
      have hcb : lo c ≤ lo l[k] := by
        simpa using (hk.iff k hlt).not.mpr (by omega)
      exact ⟨_, List.getElem_mem hlt, hbc, hcb.trans_lt (h.proper _ (List.getElem_mem hlt))⟩

/-- A span that meets none of the chain can be inserted in its place. -/
theorem insert (h : Chain lo hi l) {c : α} (hc : lo c < hi c)
    (hk : IsCut (fun a => decide (lo a < lo c)) l k) (hno : ∀ a ∈ l, ¬ Meets lo hi a c) :
    Chain lo hi (l.take k ++ c :: l.drop k) := by
  have before : ∀ a ∈ l.take k, hi a ≤ lo c := by
    intro a ha
    have hac : lo a < lo c := by simpa using hk.mem_take ha
    exact not_lt.mp fun hca => hno a (List.mem_of_mem_take ha) ⟨hac.trans hc, hca⟩
  have after : ∀ b ∈ l.drop k, hi c ≤ lo b := by
    intro b hb
    have hmem := List.mem_of_mem_drop hb
    have hcb : lo c ≤ lo b := by simpa using hk.mem_drop hb
    exact not_lt.mp fun hbc => hno b hmem ⟨hbc, hcb.trans_lt (h.proper b hmem)⟩
  refine ⟨?_, ?_⟩
  · intro a ha
    simp only [List.mem_append, List.mem_cons] at ha
    rcases ha with ha | rfl | ha
    · exact h.proper a (List.mem_of_mem_take ha)
    · exact hc
    · exact h.proper a (List.mem_of_mem_drop ha)
  · rw [List.pairwise_append, List.pairwise_cons]
    refine ⟨h.apart.sublist (List.take_sublist _ _),
      ⟨after, h.apart.sublist (List.drop_sublist _ _)⟩, ?_⟩
    intro a ha b hb
    rcases List.mem_cons.mp hb with rfl | hb
    · exact before a ha
    · exact (before a ha).trans (hc.le.trans (after b hb))

/-- A span of the chain that contains `x` is the last one that starts at or
before `x`. -/
theorem contains_iff (h : Chain lo hi l) {x : β}
    (hk : IsCut (fun a => decide (lo a ≤ x)) l k) {a : α} :
    (a ∈ l ∧ Contains lo hi a x) ↔ 0 < k ∧ l[k - 1]? = some a ∧ x < hi a := by
  constructor
  · rintro ⟨ha, hlo, hhi⟩
    have htake : a ∈ l.take k := by
      rw [← List.take_append_drop k l, List.mem_append] at ha
      refine ha.resolve_right fun hd => ?_
      simpa [hlo] using hk.mem_drop hd
    have hpos : 0 < k := by
      rcases Nat.eq_zero_or_pos k with rfl | h0
      · simp at htake
      · exact h0
    have hlt : k - 1 < l.length := by have := hk.le; omega
    have hz : l[k - 1]? = some l[k - 1] := List.getElem?_eq_getElem hlt
    have hzx : lo l[k - 1] ≤ x := by simpa using (hk.iff (k - 1) hlt).mpr (by omega)
    exact ⟨hpos, by rw [hz, h.eq_last hk.le htake hz (hzx.trans_lt hhi)], hhi⟩
  · rintro ⟨hpos, hz, hhi⟩
    obtain ⟨hlt, rfl⟩ := List.getElem?_eq_some_iff.mp hz
    exact ⟨List.getElem_mem hlt, by simpa using (hk.iff (k - 1) hlt).mpr (by omega), hhi⟩

end Chain

end Spans
