import Mathlib.Tactic

/-!
# Streams of self-delimiting items

A `Format` writes each item as a non-empty block that a decoder can cut off the
front of a stream.  The two directions of the round trip make the cut unique: a
stream has a longest part in front that is a sequence of items
(`Format.exists_longest`), and every other such part is the start of it
(`Format.prefix_of_longest`).
-/

universe u v

/-- Items `α` in a stream of symbols `β`. -/
structure Format (α : Type u) (β : Type v) where
  encode : α → List β
  /-- Cuts an item off the front. -/
  decode : List β → Option (α × List β)
  encode_ne_nil : ∀ a, encode a ≠ []
  decode_encode : ∀ a bs, decode (encode a ++ bs) = some (a, bs)
  encode_of_decode : ∀ {bs a rest}, decode bs = some (a, rest) → bs = encode a ++ rest

namespace Format

variable {α : Type u} {β : Type v} (f : Format α β)

/-- A sequence of items. -/
def encodeAll (as : List α) : List β := as.flatMap f.encode

@[simp] theorem encodeAll_nil : f.encodeAll [] = [] := rfl

@[simp] theorem encodeAll_cons (a : α) (as : List α) :
    f.encodeAll (a :: as) = f.encode a ++ f.encodeAll as :=
  rfl

/-- A stream is a sequence of items and a rest that no item starts. -/
theorem exists_longest (bs : List β) :
    ∃ as rest, bs = f.encodeAll as ++ rest ∧ f.decode rest = none := by
  induction hn : bs.length using Nat.strong_induction_on generalizing bs with
  | _ n ih =>
      cases hd : f.decode bs with
      | none => exact ⟨[], bs, rfl, hd⟩
      | some p =>
          obtain ⟨a, rest⟩ := p
          have hbs := f.encode_of_decode hd
          have hlt : rest.length < n := by
            have := List.length_pos_iff.mpr (f.encode_ne_nil a)
            rw [← hn, hbs, List.length_append]
            omega
          obtain ⟨as, rest', hrest, hnone⟩ := ih _ hlt rest rfl
          exact ⟨a :: as, rest', by simp [hbs, hrest], hnone⟩

variable {f}

/-- There is no longer sequence of items, and every shorter one is the start of
this one. -/
theorem prefix_of_longest {as as' : List α} {rest : List β} (hnone : f.decode rest = none)
    (h : f.encodeAll as' <+: f.encodeAll as ++ rest) : as' <+: as := by
  induction as' generalizing as with
  | nil => exact List.nil_prefix
  | cons a' as' ih =>
      obtain ⟨bs, hbs⟩ := h
      rw [encodeAll_cons, List.append_assoc] at hbs
      have hd := f.decode_encode a' (f.encodeAll as' ++ bs)
      rw [hbs] at hd
      cases as with
      | nil =>
          rw [encodeAll_nil, List.nil_append, hnone] at hd
          cases hd
      | cons a as =>
          rw [encodeAll_cons, List.append_assoc, f.decode_encode] at hd
          obtain ⟨rfl, hrest⟩ := Prod.mk.inj (Option.some.inj hd)
          exact List.cons_prefix_cons.mpr ⟨rfl, ih ⟨bs, hrest.symm⟩⟩

end Format
