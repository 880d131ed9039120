import SystemsDrills.Parser.Wire

/-!
# `parse_msgs`

`parse_msgs` of `Interview/mock4.c`, on a buffer that the guest wrote.  The model
records every read of the buffer and every call of `handle_msg`.  Offsets are
64-bit and wrap.  On a buffer near the top of the address space the sum `i + len + 4`
could wrap and the loop could go on for ever, hence the fuel.

The loop follows `Wire.format`: a round that comes to its end consumes exactly the
message that `decode` finds at `i`, and a round in which `decode` finds none
returns -1.
-/

namespace Wire

/-! ## The code -/

/-- What `parse_msgs` does to the world. -/
inductive Event where
  /-- A read of `buf[i]`. -/
  | read (i : UInt64)
  /-- A call of `handle_msg`.  The payload is the offset in `buf`. -/
  | handleMsg (type : UInt16) (payload : UInt64) (len : UInt16)
deriving DecidableEq, Repr

/-- `buf[i]`. -/
def byteAt (buf : List UInt8) (i : UInt64) : UInt8 := buf[i.toNat]?.getD 0

/-- The loop from offset `i`, with the events and the value returned. -/
def parseFrom (buf : List UInt8) (size : UInt64) :
    Nat → UInt64 → UInt16 → Option (List Event × Int)
  | 0, _, _ => none
  | fuel + 1, i, counter =>
    if i < size then
      if i + 4 > size then
        some ([], -1)
      else
        let type := ((byteAt buf (i + 1)).toUInt16 <<< 8) + (byteAt buf i).toUInt16
        let reads := [.read (i + 1), .read i]
        if type ≠ 1 ∧ type ≠ 2 ∧ type ≠ 3 then
          some (reads, -1)
        else
          let len := ((byteAt buf (i + 3)).toUInt16 <<< 8) + (byteAt buf (i + 2)).toUInt16
          let reads := reads ++ [.read (i + 3), .read (i + 2)]
          if i + len.toUInt64 + 4 > size then
            some (reads, -1)
          else
            (parseFrom buf size fuel (i + len.toUInt64 + 4) (counter + 1)).map
              fun (events, ret) => (reads ++ .handleMsg type (i + 4) len :: events, ret)
    else
      some ([], counter.toNat)

/-- `parse_msgs`. -/
def parseMsgs (fuel : Nat) (buf : List UInt8) (size : UInt64) : Option (List Event × Int) :=
  parseFrom buf size fuel 0 0

/-- The globals that `handle_msg` writes. -/
structure Globals where
  lastType : UInt16
  lastLen : UInt16
  calls : UInt16
  lastPayload : UInt64
deriving DecidableEq, Repr

def handleMsg (g : Globals) (type : UInt16) (payload : UInt64) (len : UInt16) : Globals :=
  { g with lastPayload := payload, calls := g.calls + 1, lastType := type, lastLen := len }

/-- The globals after a run of `parse_msgs`. -/
def Globals.after (g : Globals) (events : List Event) : Globals :=
  events.foldl
    (fun g e => match e with
      | .read _ => g
      | .handleMsg type payload len => handleMsg g type payload len) g

/-! ## What is expected -/

/-- A call of `handle_msg`. -/
structure Call where
  type : UInt16
  payload : Nat
  len : UInt16
deriving DecidableEq, Repr

def Event.call : Event → Option Call
  | .read _ => none
  | .handleMsg type payload len => some ⟨type, payload.toNat, len⟩

/-- One call for each message, when the first message is at offset `off`. -/
def callsAt (off : Nat) : List Msg → List Call
  | [] => []
  | m :: ms => ⟨m.type, off + 4, m.len⟩ :: callsAt (off + m.encode.length) ms

/-- The bytes a call is given. -/
def Call.slice (buf : List UInt8) (c : Call) : List UInt8 := (buf.drop c.payload).take c.len.toNat

/-- The stub counts its calls, modulo `2 ^ 16`. -/
theorem Globals.calls_after (g : Globals) (events : List Event) :
    (g.after events).calls = g.calls + UInt16.ofNat (events.filterMap Event.call).length := by
  induction events generalizing g with
  | nil => exact (UInt16.add_zero _).symm
  | cons e events ih =>
      cases e with
      | read i => exact ih g
      | handleMsg type payload len =>
          show ((handleMsg g type payload len).after events).calls =
            g.calls + UInt16.ofNat ((events.filterMap Event.call).length + 1)
          rw [ih, UInt16.ofNat_add, UInt16.add_comm (UInt16.ofNat _), ← UInt16.add_assoc]
          rfl

/-! ## One round of the loop -/

section Round

variable {buf bs rest : List UInt8} {size i : UInt64} {m : Msg} {fuel : Nat} {counter : UInt16}

/-- The bytes from `i` on. -/
theorem byteAt_eq (hlt : buf.length < 2 ^ 63) (hdrop : buf.drop i.toNat = bs) {k : UInt64} {b : UInt8}
    (hk : k.toNat < 2 ^ 16) (hb : bs[k.toNat]? = some b) : byteAt buf (i + k) = b ∧
      (i + k).toNat < buf.length := by
  subst hdrop
  rw [List.getElem?_drop] at hb
  have hin := (List.getElem?_eq_some_iff.mp hb).1
  have hsum : (i + k).toNat = i.toNat + k.toNat := by
    rw [UInt64.toNat_add]
    omega
  rw [byteAt, hsum, hb]
  exact ⟨rfl, hin⟩

/-- The header read at `i`. -/
theorem header_eq {t0 t1 l0 l1 : UInt8} (hlt : buf.length < 2 ^ 63)
    (hdrop : buf.drop i.toNat = t0 :: t1 :: l0 :: l1 :: bs) :
    ((byteAt buf (i + 1)).toUInt16 <<< 8) + (byteAt buf i).toUInt16 = word t0 t1 ∧
    ((byteAt buf (i + 3)).toUInt16 <<< 8) + (byteAt buf (i + 2)).toUInt16 = word l0 l1 ∧
    ∀ j, Event.read j ∈ [.read (i + 1), .read i, .read (i + 3), .read (i + 2)] →
      j.toNat < buf.length := by
  have h0 := byteAt_eq (k := 0) (b := t0) hlt hdrop (by decide) rfl
  have h1 := byteAt_eq (k := 1) (b := t1) hlt hdrop (by decide) rfl
  have h2 := byteAt_eq (k := 2) (b := l0) hlt hdrop (by decide) rfl
  have h3 := byteAt_eq (k := 3) (b := l1) hlt hdrop (by decide) rfl
  rw [UInt64.add_zero] at h0
  refine ⟨by rw [h0.1, h1.1]; rfl, by rw [h2.1, h3.1]; rfl, fun j hj => ?_⟩
  simp only [List.mem_cons, Event.read.injEq, List.not_mem_nil, or_false] at hj
  rcases hj with rfl | rfl | rfl | rfl
  · exact h1.2
  · exact h0.2
  · exact h3.2
  · exact h2.2

theorem not_known_iff {type : UInt16} : ¬ Known type ↔ type ≠ 1 ∧ type ≠ 2 ∧ type ≠ 3 := by
  rw [Known, not_or, not_or]

theorem exists_header (h : 4 ≤ bs.length) :
    ∃ t0 t1 l0 l1 bs', bs = t0 :: t1 :: l0 :: l1 :: bs' := by
  rcases bs with _ | ⟨t0, _ | ⟨t1, _ | ⟨l0, _ | ⟨l1, bs⟩⟩⟩⟩
  · simp at h
  · simp at h
  · simp at h
  · simp at h
  · exact ⟨t0, t1, l0, l1, bs, rfl⟩

/-- The reads of a header. -/
def headerReads (i : UInt64) : List Event := [.read (i + 1), .read i, .read (i + 3), .read (i + 2)]

/-- Sums of offsets do not wrap. -/
theorem toNat_next (hlt : buf.length < 2 ^ 63) (hi : i.toNat ≤ buf.length) (len : UInt16) :
    (i + len.toUInt64 + 4).toNat = i.toNat + len.toNat + 4 := by
  have hl := len.toNat_lt
  simp only [UInt64.toNat_add, UInt16.toNat_toUInt64, show (4 : UInt64).toNat = 4 from rfl]
  omega

theorem toNat_add_four (hlt : buf.length < 2 ^ 63) (hi : i.toNat ≤ buf.length) :
    (i + 4).toNat = i.toNat + 4 := by
  simp only [UInt64.toNat_add, show (4 : UInt64).toNat = 4 from rfl]
  omega

variable (hsize : size.toNat = buf.length) (hlt : buf.length < 2 ^ 63)

include hsize hlt

/-- A round that finds a message. -/
theorem parseFrom_of_decode (hdec : decode (buf.drop i.toNat) = some (m, rest)) :
    parseFrom buf size (fuel + 1) i counter =
      (parseFrom buf size fuel (i + m.len.toUInt64 + 4) (counter + 1)).map
        fun (events, ret) => (headerReads i ++ .handleMsg m.type (i + 4) m.len :: events, ret) := by
  have henc := encode_of_decode hdec
  have hlen := congrArg List.length henc
  rw [List.length_drop, List.length_append, Msg.length_encode] at hlen
  have hi : i.toNat ≤ buf.length := by omega
  obtain ⟨htype, hlen', -⟩ := header_eq hlt henc
  rw [word_bytes] at htype hlen'
  have h1 : i < size := UInt64.lt_iff_toNat_lt.mpr (by omega)
  have h2 : ¬ i + 4 > size := by
    rw [gt_iff_lt, UInt64.lt_iff_toNat_lt, toNat_add_four hlt hi]
    omega
  have h3 : ¬ (m.type ≠ 1 ∧ m.type ≠ 2 ∧ m.type ≠ 3) := fun h => not_known_iff.mpr h m.known
  have h4 : ¬ i + m.len.toUInt64 + 4 > size := by
    rw [gt_iff_lt, UInt64.lt_iff_toNat_lt, toNat_next hlt hi, Msg.toNat_len]
    omega
  simp only [parseFrom, if_pos h1, if_neg h2, htype, hlen', if_neg h3, if_neg h4]
  rfl

/-- A round that finds none. -/
theorem parseFrom_of_decode_none (hdec : decode (buf.drop i.toNat) = none)
    (hi : i.toNat < buf.length) :
    ∃ events, parseFrom buf size (fuel + 1) i counter = some (events, -1) ∧
      (∀ j, .read j ∈ events → j.toNat < buf.length) ∧ events.filterMap Event.call = [] := by
  have h1 : i < size := UInt64.lt_iff_toNat_lt.mpr (by omega)
  simp only [parseFrom, if_pos h1]
  split
  · exact ⟨[], rfl, by simp, rfl⟩
  · rename_i h2
    rw [gt_iff_lt, UInt64.lt_iff_toNat_lt, toNat_add_four hlt hi.le] at h2
    -- There are four bytes.
    obtain ⟨t0, t1, l0, l1, bs, hdrop⟩ : ∃ t0 t1 l0 l1 bs,
        buf.drop i.toNat = t0 :: t1 :: l0 :: l1 :: bs := by
      refine exists_header ?_
      rw [List.length_drop]
      omega
    obtain ⟨htype, hlen, hreads⟩ := header_eq hlt hdrop
    rw [htype, hlen]
    split
    · exact ⟨_, rfl, fun j hj => hreads j (List.mem_append_left _ hj), rfl⟩
    · rename_i h3
      have hknown : Known (word t0 t1) := not_not.mp fun hk => h3 (not_known_iff.mp hk)
      rw [hdrop, decode] at hdec
      have hlong : bs.length < (word l0 l1).toNat := by
        by_contra hle
        rw [dif_pos ⟨hknown, Nat.le_of_not_lt hle⟩] at hdec
        cases hdec
      have h4 : i + (word l0 l1).toUInt64 + 4 > size := by
        have hl := congrArg List.length hdrop
        simp only [List.length_drop, List.length_cons] at hl
        rw [gt_iff_lt, UInt64.lt_iff_toNat_lt, toNat_next hlt hi.le]
        omega
      rw [if_pos h4]
      exact ⟨_, rfl, hreads, rfl⟩

/-- The last round, at the end of the buffer or at bytes that start no message. -/
theorem parseFrom_rest (counter : UInt16) (hi : i.toNat ≤ buf.length)
    (hdrop : buf.drop i.toNat = rest) (hnone : decode rest = none) :
    ∃ events, parseFrom buf size (fuel + 1) i counter =
        some (events, if rest = [] then (counter.toNat : Int) else -1) ∧
      (∀ j, .read j ∈ events → j.toNat < buf.length) ∧ events.filterMap Event.call = [] := by
  rcases Nat.lt_or_eq_of_le hi with hlt' | heq
  · have hne : rest ≠ [] := by
      rw [← hdrop]
      exact List.ne_nil_of_length_pos (by rw [List.length_drop]; omega)
    rw [if_neg hne]
    exact parseFrom_of_decode_none hsize hlt (hdrop ▸ hnone) hlt'
  · have hrest : rest = [] := by
      rw [← hdrop, List.drop_eq_nil_iff]
      exact heq.ge
    have h1 : ¬ i < size := by
      rw [UInt64.lt_iff_toNat_lt]
      omega
    rw [if_pos hrest]
    exact ⟨[], by simp [parseFrom, h1], by simp, rfl⟩

/-- The loop from `i` on, when the bytes from `i` on are the messages `ms` and a
rest that starts none. -/
theorem parseFrom_eq {ms : List Msg} (counter : UInt16) (hi : i.toNat ≤ buf.length)
    (hdrop : buf.drop i.toNat = format.encodeAll ms ++ rest) (hnone : decode rest = none)
    (hfuel : ms.length < fuel) :
    ∃ events, parseFrom buf size fuel i counter =
        some (events, if rest = [] then ((counter + UInt16.ofNat ms.length).toNat : Int) else -1) ∧
      (∀ j, .read j ∈ events → j.toNat < buf.length) ∧
      events.filterMap Event.call = callsAt i.toNat ms := by
  induction ms generalizing i counter fuel with
  | nil =>
      rw [Format.encodeAll_nil, List.nil_append] at hdrop
      obtain ⟨fuel, rfl⟩ := Nat.exists_eq_succ_of_ne_zero (Nat.ne_of_gt hfuel)
      rw [List.length_nil, show UInt16.ofNat 0 = 0 from rfl, UInt16.add_zero]
      exact parseFrom_rest hsize hlt counter hi hdrop hnone
  | cons m ms ih =>
      rw [Format.encodeAll_cons, List.append_assoc] at hdrop
      obtain ⟨fuel, rfl⟩ := Nat.exists_eq_succ_of_ne_zero (Nat.ne_of_gt (Nat.zero_lt_of_lt hfuel))
      have hdec : decode (buf.drop i.toNat) = some (m, format.encodeAll ms ++ rest) := by
        rw [hdrop]
        exact decode_encode m _
      have hlen := congrArg List.length hdrop
      rw [List.length_drop, List.length_append, show (format.encode m).length = _ from
        Msg.length_encode m] at hlen
      have hnext : (i + m.len.toUInt64 + 4).toNat = i.toNat + m.encode.length := by
        rw [toNat_next hlt hi, Msg.toNat_len, Msg.length_encode, Nat.add_assoc]
      obtain ⟨events, heq, hreads, hcalls⟩ := ih (i := i + m.len.toUInt64 + 4)
        (counter + 1)
        (by rw [hnext, Msg.length_encode]; omega)
        (by rw [hnext, ← List.drop_drop, hdrop]; exact List.drop_left)
        (Nat.lt_of_succ_lt_succ hfuel)
      obtain ⟨-, -, hhead⟩ := header_eq hlt (encode_of_decode hdec)
      rw [parseFrom_of_decode hsize hlt hdec, heq]
      refine ⟨headerReads i ++ .handleMsg m.type (i + 4) m.len :: events, ?_, ?_, ?_⟩
      · rw [List.length_cons, UInt16.ofNat_add, UInt16.add_comm (UInt16.ofNat ms.length),
          ← UInt16.add_assoc]
        rfl
      · intro j hj
        simp only [List.mem_append, List.mem_cons, reduceCtorEq, false_or] at hj
        rcases hj with hj | hj
        · exact hhead j hj
        · exact hreads j hj
      · show ⟨m.type, (i + 4).toNat, m.len⟩ :: events.filterMap Event.call = _
        rw [hcalls, hnext, toNat_add_four hlt hi, callsAt]

end Round

/-! ## The whole buffer -/

/-- More fuel does not change the result. -/
theorem parseFrom_mono {buf : List UInt8} {size : UInt64} {fuel fuel' : Nat} {i : UInt64}
    {counter : UInt16} {res : List Event × Int} (hle : fuel ≤ fuel')
    (h : parseFrom buf size fuel i counter = some res) :
    parseFrom buf size fuel' i counter = some res := by
  induction fuel generalizing fuel' i counter res with
  | zero => cases h
  | succ fuel ih =>
      obtain ⟨fuel', rfl⟩ := Nat.exists_eq_succ_of_ne_zero (Nat.ne_of_gt (Nat.zero_lt_of_lt hle))
      unfold parseFrom at h ⊢
      split
      · rw [if_pos ‹_›] at h
        split
        · rwa [if_pos ‹_›] at h
        · rw [if_neg ‹_›] at h
          dsimp only at h ⊢
          split
          · rwa [if_pos ‹_›] at h
          · rw [if_neg ‹_›] at h
            split
            · rwa [if_pos ‹_›] at h
            · rw [if_neg ‹_›] at h
              obtain ⟨r, hr, rfl⟩ := Option.map_eq_some_iff.mp h
              rw [ih (Nat.le_of_succ_le_succ hle) hr]
              rfl
      · rwa [if_neg ‹_›] at h

theorem length_le_encodeAll (ms : List Msg) : ms.length ≤ (format.encodeAll ms).length := by
  induction ms with
  | nil => exact Nat.zero_le _
  | cons m ms ih =>
      have hm : (format.encode m).length = m.payload.length + 4 := m.length_encode
      rw [Format.encodeAll_cons, List.length_append, List.length_cons, hm]
      omega

/-- The calls give the payloads of the messages, all within the buffer. -/
theorem callsAt_slice {buf rest : List UInt8} {off : Nat} {ms : List Msg}
    (h : buf.drop off = format.encodeAll ms ++ rest) (hoff : off ≤ buf.length) :
    (∀ c ∈ callsAt off ms, c.payload + c.len.toNat ≤ buf.length) ∧
    (callsAt off ms).map (Call.slice buf) = ms.map Msg.payload := by
  induction ms generalizing off with
  | nil => exact ⟨by simp [callsAt], rfl⟩
  | cons m ms ih =>
      rw [Format.encodeAll_cons, List.append_assoc] at h
      have hlen := congrArg List.length h
      have hm : (format.encode m).length = m.payload.length + 4 := m.length_encode
      rw [List.length_drop, List.length_append, hm] at hlen
      obtain ⟨hin, hslices⟩ := ih
        (show buf.drop (off + m.encode.length) = _ by rw [← List.drop_drop, h]; exact List.drop_left)
        (by rw [Msg.length_encode]; omega)
      have hslice : Call.slice buf ⟨m.type, off + 4, m.len⟩ = m.payload := by
        rw [Call.slice, ← List.drop_drop, h, Msg.toNat_len]
        exact List.take_left
      refine ⟨?_, ?_⟩
      · intro c hc
        rcases List.mem_cons.mp hc with rfl | hc
        · simp only [Msg.toNat_len]
          omega
        · exact hin c hc
      · rw [callsAt, List.map_cons, List.map_cons, hslice, hslices]

/-- `parse_msgs` decodes its format exactly.  It returns, reads only inside the
buffer, and calls `handle_msg` once for each message of the longest part of the
buffer that is a sequence of messages, in order, with the type, the length and the
payload of the message, and not otherwise.  It returns -1 if and only if bytes
remain. -/
theorem parse_msgs_exact {buf : List UInt8} (h : buf.length < 2 ^ 63) :
    ∃ ms rest events ret,
      buf = format.encodeAll ms ++ rest ∧
      (∀ ms', format.encodeAll ms' <+: buf → ms' <+: ms) ∧
      (∀ fuel, buf.length < fuel →
        parseMsgs fuel buf (UInt64.ofNat buf.length) = some (events, ret)) ∧
      (∀ i, Event.read i ∈ events → i.toNat < buf.length) ∧
      events.filterMap Event.call = callsAt 0 ms ∧
      (∀ c ∈ callsAt 0 ms, c.payload + c.len.toNat ≤ buf.length) ∧
      (callsAt 0 ms).map (Call.slice buf) = ms.map Msg.payload ∧
      (ret = -1 ↔ rest ≠ []) := by
  obtain ⟨ms, rest, hbuf, hnone⟩ := format.exists_longest buf
  have hsize : (UInt64.ofNat buf.length).toNat = buf.length :=
    UInt64.toNat_ofNat_of_lt' (h.trans (by norm_num))
  have hfuel : ms.length < buf.length + 1 := by
    have := length_le_encodeAll ms
    rw [hbuf, List.length_append]
    omega
  obtain ⟨events, hparse, hreads, hcalls⟩ := parseFrom_eq (i := 0) hsize h
    0 (Nat.zero_le _) hbuf hnone hfuel
  obtain ⟨hin, hslices⟩ := callsAt_slice (show buf.drop 0 = _ from hbuf) (Nat.zero_le _)
  refine ⟨ms, rest, events, _, hbuf, fun ms' hms' => ?_, fun fuel hf => parseFrom_mono hf hparse,
    hreads, hcalls, hin, hslices, ?_⟩
  · rw [hbuf] at hms'
    exact Format.prefix_of_longest hnone hms'
  · split
    · rename_i hrest
      simp only [hrest, ne_eq, not_true_eq_false, iff_false]
      omega
    · rename_i hrest
      simp [hrest]

/-- Two messages, the second one empty, and a header that is cut off. -/
theorem parse_msgs_exact_cut :
    ∃ ms rest events ret,
      ([1, 0, 3, 0, 97, 98, 99, 2, 0, 0, 0, 1, 0] : List UInt8) = format.encodeAll ms ++ rest ∧
      parseMsgs 14 [1, 0, 3, 0, 97, 98, 99, 2, 0, 0, 0, 1, 0] 13 = some (events, ret) ∧
      (ret = -1 ↔ rest ≠ []) := by
  obtain ⟨ms, rest, events, ret, hbuf, -, hparse, -, -, -, -, hret⟩ :=
    parse_msgs_exact
      (show ([1, 0, 3, 0, 97, 98, 99, 2, 0, 0, 0, 1, 0] : List UInt8).length < 2 ^ 63 by decide)
  exact ⟨ms, rest, events, ret, hbuf, hparse 14 (by decide), hret⟩

/-! ## The returned count -/

/-- `counter` goes up with each call. -/
theorem ret_of_parseFrom {buf : List UInt8} {size : UInt64} {fuel : Nat} {i : UInt64}
    {counter : UInt16} {events : List Event} {ret : Int}
    (h : parseFrom buf size fuel i counter = some (events, ret)) (hret : ret ≠ -1) :
    ret = (counter + UInt16.ofNat (events.filterMap Event.call).length).toNat := by
  induction fuel generalizing i counter events with
  | zero => cases h
  | succ fuel ih =>
      rw [parseFrom] at h
      split at h
      · split at h
        · cases h
          exact absurd rfl hret
        · dsimp only at h
          split at h
          · cases h
            exact absurd rfl hret
          · split at h
            · cases h
              exact absurd rfl hret
            · obtain ⟨⟨events', ret'⟩, hrest, heq⟩ := Option.map_eq_some_iff.mp h
              cases heq
              rw [ih hrest, UInt16.add_assoc]
              congr 2
              show _ = counter + UInt16.ofNat ((events'.filterMap Event.call).length + 1)
              rw [UInt16.ofNat_add, UInt16.add_comm 1]
              rfl
      · cases h
        exact congrArg (fun c : UInt16 => (c.toNat : Int)) (UInt16.add_zero counter).symm

/-- The stub, which counts in the same width, and `parse_msgs` agree on the number of messages, on
any buffer that is parsed to its end, also where both have wrapped. -/
theorem parse_msgs_calls {g : Globals} {fuel : Nat} {buf : List UInt8} {size : UInt64}
    {events : List Event} {ret : Int} (hg : g.calls = 0)
    (h : parseMsgs fuel buf size = some (events, ret)) (hret : ret ≠ -1) :
    ret = (g.after events).calls.toNat := by
  rw [ret_of_parseFrom h hret, Globals.calls_after, hg]

theorem length_callsAt (off : Nat) (ms : List Msg) : (callsAt off ms).length = ms.length := by
  induction ms generalizing off with
  | nil => rfl
  | cons m ms ih => rw [callsAt, List.length_cons, ih, List.length_cons]

/-- On messages and nothing else, `parse_msgs` returns their number modulo `2 ^ 16`. -/
theorem parseMsgs_messages {ms : List Msg} (h : (format.encodeAll ms).length < 2 ^ 63) :
    ∃ events,
      (∀ fuel, (format.encodeAll ms).length < fuel →
        parseMsgs fuel (format.encodeAll ms) (UInt64.ofNat (format.encodeAll ms).length) =
          some (events, ((ms.length % 2 ^ 16 : Nat) : Int))) ∧
      (events.filterMap Event.call).length = ms.length := by
  have hsize : (UInt64.ofNat (format.encodeAll ms).length).toNat = (format.encodeAll ms).length :=
    UInt64.toNat_ofNat_of_lt' (h.trans (by norm_num))
  have hfuel := Nat.lt_succ_of_le (length_le_encodeAll ms)
  have hnone : decode [] = none := rfl
  obtain ⟨events, hparse, -, hcalls⟩ := parseFrom_eq (i := 0) hsize h
    0 (Nat.zero_le _) (List.append_nil _).symm hnone hfuel
  rw [if_pos rfl, UInt16.zero_add, UInt16.toNat_ofNat'] at hparse
  refine ⟨events, fun fuel hf => parseFrom_mono hf hparse, ?_⟩
  rw [hcalls, length_callsAt]

/-- The count is right as long as it fits its 16-bit variable.  On every buffer that is a
sequence of messages, `parse_msgs` returns the number of its calls of `handle_msg` exactly
if there are fewer than `2 ^ 16` messages. -/
theorem parse_msgs_count_iff {ms : List Msg} (h : (format.encodeAll ms).length < 2 ^ 63) :
    ∃ events ret,
      (∀ fuel, (format.encodeAll ms).length < fuel →
        parseMsgs fuel (format.encodeAll ms) (UInt64.ofNat (format.encodeAll ms).length) =
          some (events, ret)) ∧
      (ret = ((events.filterMap Event.call).length : Int) ↔ ms.length < 2 ^ 16) := by
  obtain ⟨events, hparse, hcalls⟩ := parseMsgs_messages h
  refine ⟨events, _, hparse, ?_⟩
  rw [hcalls, Nat.cast_inj, Nat.mod_eq_iff_lt (by decide)]

/-- A message of type `CHAR` with no payload. -/
def emptyMsg : Msg := ⟨1, [], .inl rfl, by decide⟩

/-- Two messages. -/
theorem parse_msgs_count_iff_two :
    ∃ events ret, parseMsgs 9 [1, 0, 0, 0, 1, 0, 0, 0] 8 = some (events, ret) ∧
      ret = ((events.filterMap Event.call).length : Int) := by
  have hbytes : format.encodeAll [emptyMsg, emptyMsg] = [1, 0, 0, 0, 1, 0, 0, 0] := rfl
  obtain ⟨events, ret, hparse, hiff⟩ := parse_msgs_count_iff
    (show (format.encodeAll [emptyMsg, emptyMsg]).length < 2 ^ 63 by decide)
  exact ⟨events, ret, hbytes ▸ hparse 9 (by decide), hiff.mpr (by decide)⟩

/-- After `2 ^ 16` messages the count is 0 again. -/
theorem parse_msgs_count_wraps :
    ∃ events ret,
      parseMsgs (2 ^ 18 + 1) (format.encodeAll (List.replicate (2 ^ 16) emptyMsg)) 262144 =
        some (events, ret) ∧
      ret ≠ ((events.filterMap Event.call).length : Int) := by
  have hlen : (format.encodeAll (List.replicate (2 ^ 16) emptyMsg)).length = 2 ^ 18 := by
    have hone : (format.encode emptyMsg).length = 4 := rfl
    rw [Format.encodeAll, List.length_flatMap, List.map_replicate, hone, List.sum_replicate]
    norm_num
  obtain ⟨events, hparse, hcalls⟩ := parseMsgs_messages
    (show (format.encodeAll (List.replicate (2 ^ 16) emptyMsg)).length < 2 ^ 63 by
      rw [hlen]; norm_num)
  rw [hlen] at hparse
  refine ⟨events, _, hparse _ (Nat.lt_succ_self _), ?_⟩
  rw [hcalls, List.length_replicate]
  decide

end Wire
