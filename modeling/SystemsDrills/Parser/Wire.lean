import SystemsDrills.Lib.Framing

/-!
# The wire format of guest messages

What `Interview/mock4.c` parses.  A message is a little-endian 16-bit type in
`{1, 2, 3}`, a little-endian 16-bit length and that many bytes of payload.
`Wire.format` states it as a `Format`.
-/

namespace Wire

/-- `enum Type`: `CHAR`, `INT` and `FLOAT`. -/
def Known (type : UInt16) : Prop := type = 1 ∨ type = 2 ∨ type = 3

instance : DecidablePred Known := fun type =>
  inferInstanceAs (Decidable (type = 1 ∨ type = 2 ∨ type = 3))

@[ext] structure Msg where
  type : UInt16
  payload : List UInt8
  known : Known type
  fits : payload.length < 2 ^ 16

/-! ## Little-endian words -/

/-- The word with the bytes `lo` and `hi`. -/
def word (lo hi : UInt8) : UInt16 := (hi.toUInt16 <<< 8) + lo.toUInt16

def lowByte (x : UInt16) : UInt8 := x.toUInt8

def highByte (x : UInt16) : UInt8 := (x >>> 8).toUInt8

theorem toNat_word (lo hi : UInt8) : (word lo hi).toNat = hi.toNat * 256 + lo.toNat := by
  have h := hi.toNat_lt
  have l := lo.toNat_lt
  simp only [word, UInt16.toNat_add, UInt16.toNat_shiftLeft, UInt8.toNat_toUInt16,
    Nat.shiftLeft_eq, show (8 : UInt16).toNat % 16 = 8 from rfl]
  omega

theorem toNat_highByte (x : UInt16) : (highByte x).toNat = x.toNat / 256 := by
  have h := x.toNat_lt
  simp only [highByte, UInt16.toNat_toUInt8, UInt16.toNat_shiftRight,
    Nat.shiftRight_eq_div_pow, show (8 : UInt16).toNat % 16 = 8 from rfl]
  omega

theorem word_bytes (x : UInt16) : word (lowByte x) (highByte x) = x := by
  refine UInt16.toNat_inj.mp ?_
  rw [toNat_word, toNat_highByte, lowByte, UInt16.toNat_toUInt8]
  omega

theorem lowByte_word (lo hi : UInt8) : lowByte (word lo hi) = lo := by
  have l := lo.toNat_lt
  refine UInt8.toNat_inj.mp ?_
  rw [lowByte, UInt16.toNat_toUInt8, toNat_word]
  omega

theorem highByte_word (lo hi : UInt8) : highByte (word lo hi) = hi := by
  have l := lo.toNat_lt
  refine UInt8.toNat_inj.mp ?_
  rw [toNat_highByte, toNat_word]
  omega

/-! ## Messages -/

/-- The length field. -/
def Msg.len (m : Msg) : UInt16 := UInt16.ofNat m.payload.length

@[simp] theorem Msg.toNat_len (m : Msg) : m.len.toNat = m.payload.length :=
  UInt16.toNat_ofNat_of_lt' m.fits

def Msg.encode (m : Msg) : List UInt8 :=
  lowByte m.type :: highByte m.type :: lowByte m.len :: highByte m.len :: m.payload

theorem Msg.length_encode (m : Msg) : m.encode.length = m.payload.length + 4 := rfl

theorem length_take_lt (len : UInt16) (bs : List UInt8) : (bs.take len.toNat).length < 2 ^ 16 :=
  (List.length_take_le _ _).trans_lt len.toNat_lt

/-- The message at the front of `bs`, and what follows it. -/
def decode : List UInt8 → Option (Msg × List UInt8)
  | t0 :: t1 :: l0 :: l1 :: bs =>
    if h : Known (word t0 t1) ∧ (word l0 l1).toNat ≤ bs.length then
      some (⟨word t0 t1, bs.take (word l0 l1).toNat, h.1, length_take_lt _ _⟩,
        bs.drop (word l0 l1).toNat)
    else
      none
  | _ => none

theorem decode_encode (m : Msg) (bs : List UInt8) : decode (m.encode ++ bs) = some (m, bs) := by
  have h : Known (word (lowByte m.type) (highByte m.type)) ∧
      (word (lowByte m.len) (highByte m.len)).toNat ≤ (m.payload ++ bs).length := by
    rw [word_bytes, word_bytes, Msg.toNat_len, List.length_append]
    exact ⟨m.known, Nat.le_add_right _ _⟩
  simp only [Msg.encode, List.cons_append, decode, dif_pos h, Option.some.injEq, Prod.mk.injEq]
  refine ⟨Msg.ext (word_bytes m.type) ?_, ?_⟩
  · show (m.payload ++ bs).take _ = m.payload
    rw [word_bytes, Msg.toNat_len, List.take_left]
  · rw [word_bytes, Msg.toNat_len, List.drop_left]

theorem encode_of_decode {bs rest : List UInt8} {m : Msg} (h : decode bs = some (m, rest)) :
    bs = m.encode ++ rest := by
  unfold decode at h
  split at h
  · rename_i t0 t1 l0 l1 bs
    split at h
    · rename_i hc
      simp only [Option.some.injEq, Prod.mk.injEq] at h
      obtain ⟨rfl, rfl⟩ := h
      have hlen : UInt16.ofNat (bs.take (word l0 l1).toNat).length = word l0 l1 := by
        rw [List.length_take, Nat.min_eq_left hc.2, UInt16.ofNat_toNat]
      simp only [Msg.encode, Msg.len, hlen, lowByte_word, highByte_word, List.cons_append,
        List.take_append_drop]
    · cases h
  · cases h

/-- The wire format. -/
def format : Format Msg UInt8 where
  encode := Msg.encode
  decode := decode
  encode_ne_nil _ := List.cons_ne_nil _ _
  decode_encode := decode_encode
  encode_of_decode := encode_of_decode

end Wire
