import SystemsDrills.Lib.Sweep
import Mathlib.Order.Bounds.Basic
import Mathlib.Logic.Relation

/-!
# The canonical cover of some intervals

Two closed intervals *share* a point or not, and intervals that are linked by a chain of shares
form a class.  The sweep of `Lib.Sweep` gives the hulls of the classes, in order.

`Cover` says what is needed of a list of intervals for this: they lie apart, each interval of the
input is inside one of them, and each of them goes from a first start to a last end among linked
intervals.  There is one such list for every finite set of proper intervals (`Cover.unique`), and
it is the cover of itself.
-/

namespace Sweep

variable {β : Type} [LinearOrder β] {l l' out out' : List (β × β)} {x y g g' : β × β}

/-- The point is in the closed interval. -/
def Has (x : β × β) (p : β) : Prop := x.1 ≤ p ∧ p ≤ x.2

/-- The two closed intervals share a point. -/
def Share (x y : β × β) : Prop := ∃ p, Has x p ∧ Has y p

/-- The transitive closure of `Share` on the intervals of a list. -/
def Linked (l : List (β × β)) : β × β → β × β → Prop :=
  Relation.TransGen fun x y => x ∈ l ∧ y ∈ l ∧ Share x y

/-- The interval from the least start to the greatest end in the class of `x`. -/
structure Hull (l : List (β × β)) (x g : β × β) : Prop where
  start : IsLeast {p | ∃ y, Linked l x y ∧ y.1 = p} g.1
  end_ : IsGreatest {p | ∃ y, Linked l x y ∧ y.2 = p} g.2

/-- The intervals are proper. -/
def Proper (l : List (β × β)) : Prop := ∀ x ∈ l, x.1 ≤ x.2

/-- The interval `x` is inside `g`. -/
def Inside (x g : β × β) : Prop := g.1 ≤ x.1 ∧ x.2 ≤ g.2

/-- The interval `g` goes from a first start to a last end among linked intervals. -/
structure Spans (l : List (β × β)) (g : β × β) : Prop where
  first : ∃ x ∈ l, x.1 = g.1 ∧ Inside x g
  last : ∃ y ∈ l, y.2 = g.2 ∧ Inside y g
  linked : ∀ x ∈ l, ∀ y ∈ l, Inside x g → Inside y g → Linked l x y

/-- The list `out` is the cover of `l`. -/
structure Cover (l out : List (β × β)) : Prop where
  apart : out.Pairwise fun g g' => g.2 < g'.1
  inside : ∀ x ∈ l, ∃ g ∈ out, Inside x g
  spans : ∀ g ∈ out, Spans l g

/-! ## Classes -/

theorem Share.symm (h : Share x y) : Share y x := by
  obtain ⟨p, hx, hy⟩ := h
  exact ⟨p, hy, hx⟩

theorem Linked.symm (h : Linked l x y) : Linked l y x := by
  induction h with
  | single hxy => exact .single ⟨hxy.2.1, hxy.1, hxy.2.2.symm⟩
  | tail _ hyz ih => exact .head ⟨hyz.2.1, hyz.1, hyz.2.2.symm⟩ ih

theorem linked_of_share (hx : x ∈ l) (hy : y ∈ l) (h : Share x y) : Linked l x y :=
  .single ⟨hx, hy, h⟩

theorem linked_self (hl : Proper l) (hx : x ∈ l) : Linked l x x :=
  linked_of_share hx hx ⟨x.1, ⟨le_rfl, hl x hx⟩, ⟨le_rfl, hl x hx⟩⟩

theorem Linked.mono (hsub : l ⊆ l') (h : Linked l x y) : Linked l' x y :=
  Relation.TransGen.mono (fun _ _ hxy => ⟨hsub hxy.1, hsub hxy.2.1, hxy.2.2⟩) x y h

/-- An interval spans its class if it is the only one inside. -/
theorem spans_self (hl : Proper l) (hx : x ∈ l) (heq : ∀ y ∈ l, Inside y x → y = x) :
    Spans l x := by
  refine ⟨⟨x, hx, rfl, le_rfl, le_rfl⟩, ⟨x, hx, rfl, le_rfl, le_rfl⟩, ?_⟩
  intro y hy z hz hiny hinz
  rw [heq y hy hiny, heq z hz hinz]
  exact linked_self hl hx

theorem Spans.proper (hl : Proper l) (h : Spans l g) : g.1 ≤ g.2 := by
  obtain ⟨x, hx, hstart, hin⟩ := h.first
  rw [← hstart]
  exact (hl x hx).trans hin.2

/-! ## What a cover tells -/

/-- Two intervals of the cover that share a point are the same. -/
theorem Cover.eq_of_has (h : Cover l out) {p : β} (hg : g ∈ out) (hg' : g' ∈ out) (hp : Has g p)
    (hp' : Has g' p) : g = g' := by
  by_contra hne
  have hsymm : Std.Symm fun a b : β × β => a.2 < b.1 ∨ b.2 < a.1 := ⟨fun _ _ => Or.symm⟩
  have hapart : out.Pairwise fun a b => a.2 < b.1 ∨ b.2 < a.1 := h.apart.imp .inl
  rcases hapart.forall hg hg' hne with hlt | hlt
  · exact absurd (hp'.1.trans hp.2) (not_le.mpr hlt)
  · exact absurd (hp.1.trans hp'.2) (not_le.mpr hlt)

theorem Cover.inside_of_linked (h : Cover l out) (hxy : Linked l x y) (hg : g ∈ out)
    (hx : Inside x g) : Inside y g := by
  have hstep : ∀ {a b}, a ∈ l ∧ b ∈ l ∧ Share a b → Inside a g → Inside b g := by
    rintro a b ⟨-, hb, p, hap, hbp⟩ ha
    obtain ⟨g', hg', hin⟩ := h.inside b hb
    have hp : Has g p := ⟨ha.1.trans hap.1, hap.2.trans ha.2⟩
    have hp' : Has g' p := ⟨hin.1.trans hbp.1, hbp.2.trans hin.2⟩
    rw [h.eq_of_has hg hg' hp hp']
    exact hin
  induction hxy with
  | single hab => exact hstep hab hx
  | tail _ hab ih => exact hstep hab ih

/-- The intervals of a cover are the hulls of the classes. -/
theorem Cover.mem_iff (h : Cover l out) : g ∈ out ↔ ∃ x ∈ l, Hull l x g := by
  have hull : ∀ g ∈ out, ∀ x ∈ l, Inside x g → Hull l x g := by
    intro g hg x hx hin
    have hspans := h.spans g hg
    obtain ⟨a, ha, hstart, hina⟩ := hspans.first
    obtain ⟨b, hb, hend, hinb⟩ := hspans.last
    refine ⟨⟨⟨a, hspans.linked x hx a ha hin hina, hstart⟩, ?_⟩,
      ⟨⟨b, hspans.linked x hx b hb hin hinb, hend⟩, ?_⟩⟩
    · rintro _ ⟨y, hxy, rfl⟩
      exact (h.inside_of_linked hxy hg hin).1
    · rintro _ ⟨y, hxy, rfl⟩
      exact (h.inside_of_linked hxy hg hin).2
  constructor
  · intro hg
    obtain ⟨x, hx, -, hin⟩ := (h.spans g hg).first
    exact ⟨x, hx, hull g hg x hx hin⟩
  · rintro ⟨x, hx, hg⟩
    obtain ⟨g', hg', hin⟩ := h.inside x hx
    have hg'' := hull g' hg' x hx hin
    have heq : g = g' :=
      Prod.ext (hg.start.unique hg''.start) (hg.end_.unique hg''.end_)
    rwa [heq]

/-- A cover has the points of the intervals that it covers. -/
theorem Cover.has_iff (h : Cover l out) (p : β) : (∃ g ∈ out, Has g p) ↔ ∃ x ∈ l, Has x p := by
  constructor
  · rintro ⟨g, hg, hp⟩
    by_contra hno
    push Not at hno
    obtain ⟨a, ha, hstart, hina⟩ := (h.spans g hg).first
    obtain ⟨b, hb, hend, hinb⟩ := (h.spans g hg).last
    have hbefore : ∀ {c}, c ∈ l → c.1 ≤ p → c.2 < p := fun hc hle =>
      not_le.mp fun hge => hno _ hc ⟨hle, hge⟩
    -- A chain from the first interval stays before the point.
    have hchain : ∀ {c}, Linked l a c → c.2 < p := by
      intro c hac
      have hnext : ∀ {c d}, c ∈ l ∧ d ∈ l ∧ Share c d → c.2 < p → d.2 < p := by
        rintro c d ⟨-, hd, q, hc, hdq⟩ hlt
        exact hbefore hd (hdq.1.trans (hc.2.trans hlt.le))
      induction hac with
      | single hac => exact hnext hac (hbefore ha (hstart ▸ hp.1))
      | tail _ hcd ih => exact hnext hcd ih
    have hlt := hchain ((h.spans g hg).linked a ha b hb hina hinb)
    rw [hend] at hlt
    exact absurd hp.2 (not_le.mpr hlt)
  · rintro ⟨x, hx, hp⟩
    obtain ⟨g, hg, hin⟩ := h.inside x hx
    exact ⟨g, hg, hin.1.trans hp.1, hp.2.trans hin.2⟩

theorem Cover.proper (h : Cover l out) (hl : Proper l) : Proper out := fun g hg =>
  (h.spans g hg).proper hl

/-- A cover covers itself. -/
theorem Cover.self (h : Cover l out) (hl : Proper l) : Cover out out := by
  have hout := h.proper hl
  refine ⟨h.apart, fun g hg => ⟨g, hg, le_rfl, le_rfl⟩, fun g hg => ?_⟩
  refine spans_self hout hg fun a ha hin => ?_
  exact h.eq_of_has ha hg ⟨le_rfl, hout a ha⟩ ⟨hin.1, (hout a ha).trans hin.2⟩

/-- The order of the intervals does not matter. -/
theorem Cover.congr (h : Cover l out) (hset : ∀ x, x ∈ l ↔ x ∈ l') : Cover l' out := by
  have hlink : ∀ {x y}, Linked l x y → Linked l' x y := Linked.mono fun z hz => (hset z).mp hz
  refine ⟨h.apart, fun x hx => h.inside x ((hset x).mpr hx), fun g hg => ?_⟩
  obtain ⟨a, ha, hstart⟩ := (h.spans g hg).first
  obtain ⟨b, hb, hend⟩ := (h.spans g hg).last
  refine ⟨⟨a, (hset a).mp ha, hstart⟩, ⟨b, (hset b).mp hb, hend⟩, fun x hx y hy hinx hiny => ?_⟩
  exact hlink ((h.spans g hg).linked x ((hset x).mpr hx) y ((hset y).mpr hy) hinx hiny)

/-- There is one cover. -/
theorem Cover.unique (h : Cover l out) (h' : Cover l out') (hl : Proper l) : out = out' := by
  have hmem : ∀ g, g ∈ out ↔ g ∈ out' := fun g => h.mem_iff.trans h'.mem_iff.symm
  have hsorted : out.Pairwise fun a b => a.1 < b.1 :=
    h.apart.imp_of_mem fun ha _ hab => (h.proper hl _ ha).trans_lt hab
  have hsorted' : out'.Pairwise fun a b => a.1 < b.1 :=
    h'.apart.imp_of_mem fun ha _ hab => (h'.proper hl _ ha).trans_lt hab
  have hne : ∀ {a b : β × β}, a.1 < b.1 → a ≠ b := by
    rintro a _ hlt rfl
    exact lt_irrefl _ hlt
  have hperm : out.Perm out' :=
    (List.perm_ext_iff_of_nodup (hsorted.imp hne) (hsorted'.imp hne)).mpr hmem
  exact hperm.eq_of_pairwise (fun a b _ _ hab hba => absurd hab (lt_asymm hba)) hsorted hsorted'

/-! ## The sweep gives the cover -/

/-- An old interval of the cover has no new interval inside, so it still spans its class. -/
theorem Spans.append (h : Spans l g) (hout : ¬ Inside x g) : Spans (l ++ [x]) g := by
  have hsub : l ⊆ l ++ [x] := List.subset_append_left l [x]
  have hold : ∀ a ∈ l ++ [x], Inside a g → a ∈ l := by
    intro a ha hin
    rcases List.mem_append.mp ha with ha | ha
    · exact ha
    · rw [List.mem_singleton.mp ha] at hin
      exact absurd hin hout
  obtain ⟨a, ha, hstart⟩ := h.first
  obtain ⟨b, hb, hend⟩ := h.last
  exact ⟨⟨a, hsub ha, hstart⟩, ⟨b, hsub hb, hend⟩, fun a ha b hb hina hinb =>
    (h.linked a (hold a ha hina) b (hold b hb hinb) hina hinb).mono hsub⟩

section

variable {closed : List (β × β)} {cur : β × β} (h : Cover l (closed ++ [cur]))
  (hl : Proper (l ++ [x])) (hx : ∀ y ∈ l, y.1 ≤ x.1)

include h hl hx

/-- The open interval starts before the next one, and all closed ones end before it. -/
theorem Cover.open_le : cur.1 ≤ x.1 ∧ cur.1 ≤ cur.2 ∧ ∀ g ∈ closed, g.2 < cur.1 := by
  have hspans := h.spans cur (List.mem_append_right closed List.mem_cons_self)
  obtain ⟨a, ha, hstart, -⟩ := hspans.first
  have hproper : Proper l := fun y hy => hl y (List.mem_append_left [x] hy)
  refine ⟨hstart ▸ hx a ha, hspans.proper hproper, fun g hg => ?_⟩
  exact (List.pairwise_append.mp h.apart).2.2 g hg cur List.mem_cons_self

/-- The next interval joins the open one. -/
theorem Cover.join (hjoin : x.1 ≤ cur.2) :
    Cover (l ++ [x]) (closed ++ [(cur.1, max cur.2 x.2)]) := by
  obtain ⟨hcur, hproper, hclosed⟩ := h.open_le hl hx
  have hxx : x.1 ≤ x.2 := hl x (List.mem_append_right l List.mem_cons_self)
  have hsub : l ⊆ l ++ [x] := List.subset_append_left l [x]
  have hspans := h.spans cur (List.mem_append_right closed List.mem_cons_self)
  obtain ⟨hapart, -, -⟩ := List.pairwise_append.mp h.apart
  obtain ⟨a, ha, hstart, hina⟩ := hspans.first
  obtain ⟨b, hb, hend, hinb⟩ := hspans.last
  have hgrow : ∀ y, Inside y cur → Inside y (cur.1, max cur.2 x.2) := fun y hin =>
    ⟨hin.1, hin.2.trans (le_max_left _ _)⟩
  -- The new interval shares its start with the one that reaches furthest.
  have hlink : Linked (l ++ [x]) b x := by
    have hshare : Share b x := ⟨x.1, ⟨hx b hb, hend ▸ hjoin⟩, le_rfl, hxx⟩
    exact linked_of_share (hsub hb) (List.mem_append_right l List.mem_cons_self) hshare
  have hlinked : ∀ y ∈ l ++ [x], Inside y (cur.1, max cur.2 x.2) → Linked (l ++ [x]) b y := by
    intro y hy hin
    rcases List.mem_append.mp hy with hy | hy
    · obtain ⟨g, hg, hing⟩ := h.inside y hy
      rcases List.mem_append.mp hg with hg | hg
      · -- It would lie before the open interval.
        have hlt : y.2 < y.1 := (hing.2.trans_lt (hclosed g hg)).trans_le hin.1
        exact absurd (hl y (hsub hy)) (not_le.mpr hlt)
      · rw [List.mem_singleton.mp hg] at hing
        exact (hspans.linked b hb y hy hinb hing).mono hsub
    · rw [List.mem_singleton.mp hy]
      exact hlink
  refine ⟨?_, fun y hy => ?_, fun g hg => ?_⟩
  · refine List.pairwise_append.mpr ⟨hapart, List.pairwise_singleton .., fun g hg g' hg' => ?_⟩
    rw [List.mem_singleton.mp hg']
    exact hclosed g hg
  · rcases List.mem_append.mp hy with hy | hy
    · obtain ⟨g, hg, hin⟩ := h.inside y hy
      rcases List.mem_append.mp hg with hg | hg
      · exact ⟨g, List.mem_append_left _ hg, hin⟩
      · rw [List.mem_singleton.mp hg] at hin
        exact ⟨_, List.mem_append_right closed List.mem_cons_self, hgrow y hin⟩
    · rw [List.mem_singleton.mp hy]
      exact ⟨_, List.mem_append_right closed List.mem_cons_self, hcur, le_max_right _ _⟩
  · rcases List.mem_append.mp hg with hg | hg
    · refine (h.spans g (List.mem_append_left _ hg)).append fun hin => ?_
      exact absurd (hxx.trans hin.2) (not_le.mpr ((hclosed g hg).trans_le hcur))
    · rw [List.mem_singleton.mp hg]
      refine ⟨⟨a, hsub ha, hstart, hgrow a hina⟩, ?_, fun y hy z hz hiny hinz =>
        (hlinked y hy hiny).symm.trans (hlinked z hz hinz)⟩
      rcases max_choice cur.2 x.2 with hmax | hmax
      · exact ⟨b, hsub hb, hend.trans hmax.symm, hgrow b hinb⟩
      · exact ⟨x, List.mem_append_right l List.mem_cons_self, hmax.symm, hcur, le_max_right _ _⟩

/-- The next interval lies behind the open one. -/
theorem Cover.behind (hlt : cur.2 < x.1) : Cover (l ++ [x]) ((closed ++ [cur]) ++ [x]) := by
  obtain ⟨-, hproper, hclosed⟩ := h.open_le hl hx
  have hmem : x ∈ l ++ [x] := List.mem_append_right l List.mem_cons_self
  have hbefore : ∀ g ∈ closed ++ [cur], g.2 < x.1 := by
    intro g hg
    rcases List.mem_append.mp hg with hg | hg
    · exact ((hclosed g hg).trans_le hproper).trans hlt
    · rw [List.mem_singleton.mp hg]
      exact hlt
  refine ⟨?_, fun y hy => ?_, fun g hg => ?_⟩
  · refine List.pairwise_append.mpr ⟨h.apart, List.pairwise_singleton .., fun g hg g' hg' => ?_⟩
    rw [List.mem_singleton.mp hg']
    exact hbefore g hg
  · rcases List.mem_append.mp hy with hy | hy
    · obtain ⟨g, hg, hin⟩ := h.inside y hy
      exact ⟨g, List.mem_append_left _ hg, hin⟩
    · rw [List.mem_singleton.mp hy]
      exact ⟨x, List.mem_append_right _ List.mem_cons_self, le_rfl, le_rfl⟩
  · rcases List.mem_append.mp hg with hg | hg
    · refine (h.spans g hg).append fun hin => ?_
      exact absurd ((hl x hmem).trans hin.2) (not_le.mpr (hbefore g hg))
    · rw [List.mem_singleton.mp hg]
      refine spans_self hl hmem fun y hy hin => ?_
      rcases List.mem_append.mp hy with hy' | hy'
      · obtain ⟨g, hg, hing⟩ := h.inside y hy'
        have hlt : y.2 < y.1 := (hing.2.trans_lt (hbefore g hg)).trans_le hin.1
        exact absurd (hl y hy) (not_le.mpr hlt)
      · exact List.mem_singleton.mp hy'

end

/-- The sweep over proper intervals, sorted by their starts, gives their cover. -/
theorem sweep_cover {l : List (β × β)} (hl : Proper l) (hsorted : l.Pairwise fun x y => x.1 ≤ y.1) :
    Cover l (sweep l) := by
  induction l using List.reverseRecOn with
  | nil => exact ⟨List.Pairwise.nil, nofun, nofun⟩
  | append_singleton l x ih =>
      obtain ⟨hsorted, -, hx⟩ := List.pairwise_append.mp hsorted
      have hproper : Proper l := fun y hy => hl y (List.mem_append_left [x] hy)
      have hx : ∀ y ∈ l, y.1 ≤ x.1 := fun y hy => hx y hy x List.mem_cons_self
      have h := ih hproper hsorted
      rw [sweep] at h
      rw [sweep, List.foldl_append, List.foldl_cons, List.foldl_nil]
      cases hfold : l.foldl step none with
      | none =>
          -- Nothing is open, so this is the first interval.
          rw [hfold] at h
          have hnil : l = [] := List.eq_nil_iff_forall_not_mem.mpr fun y hy => by
            obtain ⟨g, hg, -⟩ := h.inside y hy
            exact absurd hg List.not_mem_nil
          subst hnil
          refine ⟨List.pairwise_singleton .., fun y hy => ⟨y, hy, le_rfl, le_rfl⟩, fun g hg => ?_⟩
          rw [List.mem_singleton.mp hg]
          exact spans_self hl List.mem_cons_self fun y hy _ => List.mem_singleton.mp hy
      | some s =>
          obtain ⟨closed, cur⟩ := s
          rw [hfold, close] at h
          rw [step]
          split
          · next hjoin => exact h.join hl hx hjoin
          · next hlt => exact h.behind hl hx (not_le.mp hlt)

end Sweep
