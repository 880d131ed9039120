import SystemsDrills.Lib.Brackets

/-!
# Valid parentheses

`check_paren` of `Interview/leetcode/02-valid-parentheses.c`.  The string is the list of the
characters before its end.  The array of the stack holds anything at first; a store past its
end has no result, and neither has the difference of two pointers of which one is `NULL`.

The array below `head` is the stack of `Brackets.step`, so the code accepts what the grammar
derives.
-/

namespace Parens

/-! ## The code -/

/-- `starting`. -/
def starting : List Char := ['(', '{', '[']

/-- `ending`. -/
def ending : List Char := [')', '}', ']']

/-- `strchr`: the index of the first occurrence. -/
def strchr (s : List Char) (c : Char) : Option Nat := s.findIdx? (· == c)

/-- `struct stack`. -/
structure Stack where
  s : Vector Char 10001
  head : Nat
  tail : Nat

/-- `stk.s[stk.head++] = c`. -/
def Stack.push (stk : Stack) (c : Char) : Option Stack :=
  if stk.head < 10001 then
    some { stk with s := stk.s.setIfInBounds stk.head c, head := stk.head + 1 }
  else
    none

/-- The loop of `check_paren` and its return.  The list has the value of `stk.head` at each test
of the loop. -/
def checkLoop : Stack → List Char → Option (Bool × List Nat)
  | stk, [] => some (stk.head = stk.tail, [stk.head])
  | stk, c :: cs =>
    if (strchr starting c).isSome then do
      let stk' ← stk.push c
      let (ret, heads) ← checkLoop stk' cs
      return (ret, stk.head :: heads)
    else do
      let ind ← strchr ending c
      let pair ← starting[ind]?
      if stk.head = stk.tail ∨ stk.s[stk.head - 1]? ≠ some pair then
        return (false, [stk.head])
      else
        let (ret, heads) ← checkLoop { stk with head := stk.head - 1 } cs
        return (ret, stk.head :: heads)

/-- `check_paren`.  `s` is what the array holds at first. -/
def checkParen (s : Vector Char 10001) (input : List Char) : Option (Bool × List Nat) :=
  checkLoop ⟨s, 0, 0⟩ input

/-! ## The language -/

/-- The six characters. -/
def brackets : List Char := ['(', ')', '{', '}', '[', ']']

/-- `S → ε | (S)S | {S}S | [S]S`. -/
inductive Balanced : List Char → Prop where
  | nil : Balanced []
  | round : Balanced u → Balanced v → Balanced ('(' :: (u ++ ')' :: v))
  | curly : Balanced u → Balanced v → Balanced ('{' :: (u ++ '}' :: v))
  | square : Balanced u → Balanced v → Balanced ('[' :: (u ++ ']' :: v))

/-- The bracket that a character closes. -/
def opener (c : Char) : Option Char := (strchr ending c).bind (starting[·]?)

/-- The rules are those of the brackets in `starting` and `ending`. -/
theorem opener_eq_some {o c : Char} :
    opener c = some o ↔ (o, c) ∈ [('(', ')'), ('{', '}'), ('[', ']')] := by
  constructor
  · intro h
    obtain ⟨i, hi, hget⟩ := Option.bind_eq_some_iff.mp h
    obtain ⟨hlt, hc, -⟩ := List.findIdx?_eq_some_iff_getElem.mp hi
    simp only [beq_iff_eq] at hc
    subst hc
    match i, hlt with
    | 0, _ =>
        cases hget
        simp [ending]
    | 1, _ =>
        cases hget
        simp [ending]
    | 2, _ =>
        cases hget
        simp [ending]
  · intro h
    fin_cases h <;> rfl

theorem balanced_iff {w : List Char} : Brackets.Balanced opener w ↔ Balanced w := by
  constructor
  · intro h
    induction h with
    | nil => exact .nil
    | pair _ hc _ _ ihu ihv =>
        have hpair := opener_eq_some.mp hc
        simp only [List.mem_cons, Prod.mk.injEq, List.not_mem_nil, or_false] at hpair
        obtain ⟨rfl, rfl⟩ | ⟨rfl, rfl⟩ | ⟨rfl, rfl⟩ := hpair
        · exact .round ihu ihv
        · exact .curly ihu ihv
        · exact .square ihu ihv
  · intro h
    induction h with
    | nil => exact .nil
    | round _ _ ihu ihv => exact .pair rfl rfl ihu ihv
    | curly _ _ ihu ihv => exact .pair rfl rfl ihu ihv
    | square _ _ ihu ihv => exact .pair rfl rfl ihu ihv

/-! ## The stack -/

/-- The array below `head` has the brackets that are open, the last one on top. -/
structure Stack.Holds (stk : Stack) (st : List Char) : Prop where
  tail : stk.tail = 0
  head : stk.head = st.length
  get : ∀ i < stk.head, stk.s[i]? = st.reverse[i]?

variable {stk : Stack} {st : List Char} {c : Char}

theorem Stack.Holds.push (h : stk.Holds st) (hlt : stk.head < 10001) (c : Char) :
    ∃ stk', stk.push c = some stk' ∧ stk'.Holds (c :: st) := by
  refine ⟨_, if_pos hlt, h.tail, by simp [h.head], fun i hi => ?_⟩
  show (stk.s.setIfInBounds stk.head c)[i]? = _
  rw [List.reverse_cons]
  rcases (Nat.lt_succ_iff.mp hi).lt_or_eq with hlt' | rfl
  · rw [Vector.getElem?_setIfInBounds_ne hlt'.ne', h.get i hlt',
      List.getElem?_append_left (by simpa [← h.head] using hlt')]
  · rw [Vector.getElem?_setIfInBounds_self_of_lt hlt, h.head, List.getElem?_append_right (by simp)]
    simp

theorem Stack.Holds.pop (h : stk.Holds (c :: st)) :
    { stk with head := stk.head - 1 }.Holds st := by
  have hhead : stk.head - 1 = st.length := by
    rw [h.head]
    rfl
  refine ⟨h.tail, hhead, fun i hi => ?_⟩
  replace hi : i < stk.head - 1 := hi
  rw [h.get i (by omega), List.reverse_cons,
    List.getElem?_append_left (by rw [List.length_reverse]; omega)]

/-- What is on top. -/
theorem Stack.Holds.top (h : stk.Holds (c :: st)) : stk.s[stk.head - 1]? = some c := by
  have hhead : stk.head = st.length + 1 := h.head
  rw [h.get _ (by omega), List.reverse_cons, hhead, Nat.add_sub_cancel,
    List.getElem?_append_right (by simp)]
  simp

theorem Stack.Holds.empty_iff (h : stk.Holds st) : stk.head = stk.tail ↔ st = [] := by
  rw [h.tail, h.head, List.length_eq_zero_iff]

/-! ## The loop -/

/-- The character is one of the brackets that open. -/
theorem opener_eq_none {c : Char} (hc : c ∈ brackets) :
    (strchr starting c).isSome ↔ opener c = none := by
  fin_cases hc <;> decide

/-- The loop is the machine with the stack, and `head` stays in the array. -/
theorem Stack.Holds.checkLoop {cs : List Char} (h : stk.Holds st) (hcs : ∀ c ∈ cs, c ∈ brackets)
    (hlen : st.length + cs.length ≤ 10000) :
    ∃ ret heads, checkLoop stk cs = some (ret, heads) ∧
      (ret = true ↔ cs.foldlM (Brackets.step opener) st = some []) ∧ ∀ x ∈ heads, x ≤ 10000 := by
  have hhead := h.head
  induction cs generalizing stk st with
  | nil =>
      refine ⟨_, _, rfl, ?_, by simp; omega⟩
      rw [decide_eq_true_iff, h.empty_iff]
      simp
  | cons c cs ih =>
      obtain ⟨hc, hcs⟩ := List.forall_mem_cons.mp hcs
      rw [List.length_cons] at hlen
      rw [Parens.checkLoop, List.foldlM_cons]
      split
      · next hopen =>
          -- An opening bracket is pushed.
          obtain ⟨stk', hpush, hholds⟩ := h.push (by omega) c
          obtain ⟨ret, heads, hloop, hret, hheads⟩ :=
            ih hholds hcs (by rw [List.length_cons]; omega) hholds.head
          refine ⟨ret, stk.head :: heads, ?_, ?_, List.forall_mem_cons.mpr ⟨by omega, hheads⟩⟩
          · rw [hpush]
            simp only [Option.bind_eq_bind, Option.bind_some, hloop]
            rfl
          · rw [hret, Brackets.step_open ((opener_eq_none hc).mp hopen), Option.bind_eq_bind,
              Option.bind_some]
      · next hclose =>
          obtain ⟨o, ho⟩ := Option.ne_none_iff_exists'.mp ((opener_eq_none hc).not.mp hclose)
          obtain ⟨ind, hind, hpair⟩ := Option.bind_eq_some_iff.mp ho
          simp only [hind, hpair, Option.bind_eq_bind, Option.bind_some]
          cases st with
          | nil =>
              -- Nothing is open.
              rw [if_pos (.inl (h.empty_iff.mpr rfl))]
              refine ⟨_, _, rfl, ?_, by simp; omega⟩
              simp [Brackets.step, ho]
          | cons o' st =>
              have hne : ¬ stk.head = stk.tail := fun heq => by cases h.empty_iff.mp heq
              by_cases heq : o' = o
              · subst heq
                rw [if_neg (not_or.mpr ⟨hne, not_not.mpr h.top⟩)]
                obtain ⟨ret, heads, hloop, hret, hheads⟩ :=
                  ih h.pop hcs (by rw [List.length_cons] at hlen; omega) h.pop.head
                refine ⟨ret, stk.head :: heads, ?_, ?_,
                  List.forall_mem_cons.mpr ⟨by omega, hheads⟩⟩
                · simp only [hloop, Option.bind_some]
                  rfl
                · rw [hret, Brackets.step_close ho, Option.bind_some]
              · rw [if_pos (.inr (by rw [h.top]; simpa using heq))]
                refine ⟨_, _, rfl, ?_, by simp; omega⟩
                simp [Brackets.step, ho, heq]

/-- `check_paren` accepts the balanced words.  On every string of at most 10000 of the six
characters it returns true exactly if the grammar derives the string, and the index of its stack
stays within `0..10000`. -/
theorem check_paren_exact (s : Vector Char 10001) {input : List Char}
    (hchars : ∀ c ∈ input, c ∈ brackets) (hlen : input.length ≤ 10000) :
    ∃ ret heads, checkParen s input = some (ret, heads) ∧ (ret = true ↔ Balanced input) ∧
      ∀ x ∈ heads, x ≤ 10000 := by
  have h0 : Stack.Holds ⟨s, 0, 0⟩ [] := ⟨rfl, rfl, fun _ hi => absurd hi (Nat.not_lt_zero _)⟩
  obtain ⟨ret, heads, hloop, hret, hheads⟩ := h0.checkLoop hchars (by simpa using hlen)
  refine ⟨ret, heads, hloop, ?_, hheads⟩
  rw [hret, Brackets.balanced_iff, balanced_iff]

/-- Brackets that are closed in the wrong order. -/
theorem check_paren_exact_crossed :
    ∃ ret heads, checkParen (Vector.replicate 10001 'x') ['(', '[', ')', ']'] = some (ret, heads) ∧
      (ret = true ↔ Balanced ['(', '[', ')', ']']) ∧ ∀ x ∈ heads, x ≤ 10000 := by
  have hchars : ∀ c ∈ ['(', '[', ')', ']'], c ∈ brackets := by simp [brackets]
  exact check_paren_exact _ hchars (by simp)

end Parens
