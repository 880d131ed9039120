import SystemsDrills.Queue.BoundedBuffer

/-!
# What the bounded buffer delivers

Any threads call `bq_put` and `bq_get`.  In the order of the critical sections, the values
that were got are the first of those that were put, and the buffer holds the others
(`Delivers`).
-/

namespace BoundedBuffer

open Transition Cyclic Monitor

variable {T : Type}

/-- The value an operation put. -/
def putValue : T × Op × Option Int32 → Option Int32
  | (_, .put v, _) => some v
  | (_, .get, _) => none

/-- The value an operation got. -/
def gotValue : T × Op × Option Int32 → Option Int32
  | (_, .put _, _) => none
  | (_, .get, r) => r

/-- The values that were put. -/
def puts (h : List (T × Op × Option Int32)) : List Int32 := h.filterMap putValue

/-- The values that were got. -/
def gets (h : List (T × Op × Option Int32)) : List Int32 := h.filterMap gotValue

@[simp] theorem puts_append (h h' : List (T × Op × Option Int32)) :
    puts (h ++ h') = puts h ++ puts h' := List.filterMap_append

@[simp] theorem gets_append (h h' : List (T × Op × Option Int32)) :
    gets (h ++ h') = gets h ++ gets h' := List.filterMap_append

@[simp] theorem puts_put (t : T) (v : Int32) (r : Option Int32) : puts [(t, .put v, r)] = [v] := rfl

@[simp] theorem gets_put (t : T) (v : Int32) (r : Option Int32) : gets [(t, .put v, r)] = [] := rfl

@[simp] theorem puts_get (t : T) (r : Option Int32) : puts [(t, .get, r)] = [] := rfl

@[simp] theorem gets_get (t : T) (r : Option Int32) : gets [(t, .get, r)] = r.toList := by
  cases r with
  | none => rfl
  | some v => rfl

/-- The queue after the sections `h`: what was put is what was got and what the queue
holds. -/
structure Delivers (cap : UInt64) (q : Bq) (h : List (T × Op × Option Int32)) : Prop where
  cap_eq : q.cap = cap
  holds : ∃ vs, q.Holds vs ∧ puts h = gets h ++ vs
  before : ∀ h', h' <+: h → gets h' <+: puts h'
  got : ∀ e ∈ h, e.2.1 = .get → e.2.2.isSome

/-- A get that is not blocked gets a value. -/
theorem Delivers.load {cap : UInt64} {q : Bq} {h : List (T × Op × Option Int32)}
    (hd : Delivers cap q h) (hb : q.count ≠ 0) : q.load.isSome := by
  obtain ⟨vs, hvs, -⟩ := hd.holds
  cases vs with
  | nil => exact absurd (hvs.blocked_get_iff.mpr rfl) hb
  | cons v vs =>
      rw [hvs.get.2]
      rfl

theorem Delivers.next {cap : UInt64} {q : Bq} {h : List (T × Op × Option Int32)} {t : T} {op : Op}
    (hb : ¬ operations.blocked op q) (hd : Delivers cap q h) :
    Delivers cap (operations.apply op q).1 (h ++ [(t, op, (operations.apply op q).2)]) := by
  obtain ⟨vs, hvs, hputs⟩ := hd.holds
  have hnew : ∃ vs', (operations.apply op q).1.Holds vs' ∧
      puts (h ++ [(t, op, (operations.apply op q).2)]) =
        gets (h ++ [(t, op, (operations.apply op q).2)]) ++ vs' := by
    cases op with
    | put v => exact ⟨vs ++ [v], hvs.put hb v, by simp [hputs]⟩
    | get =>
        cases vs with
        | nil => exact absurd (hvs.blocked_get_iff.mpr rfl) hb
        | cons v vs =>
            obtain ⟨hvs', hload⟩ := hvs.get
            exact ⟨vs, hvs', by simp [hload, hputs]⟩
  refine ⟨?_, hnew, fun h' hh' => ?_, fun e he hget => ?_⟩
  · cases op with
    | put v => exact hd.cap_eq
    | get => exact hd.cap_eq
  · rcases List.prefix_concat_iff.mp hh' with rfl | hh'
    · obtain ⟨vs', -, hputs'⟩ := hnew
      exact ⟨vs', hputs'.symm⟩
    · exact hd.before h' hh'
  · rcases List.mem_append.mp he with he | he
    · exact hd.got e he hget
    · obtain rfl := List.mem_singleton.mp he
      obtain rfl : op = .get := hget
      exact hd.load hb

theorem delivers_init {malloc : UInt64 → Option (List Int32)} {cap : UInt64} {q : Bq}
    (hq : bqInit malloc cap = some q) (hbuf : q.buf.length = cap.toNat) :
    Delivers (T := T) cap q [] := by
  obtain ⟨hpos, -, heq⟩ := bqInit_eq_some hq
  refine ⟨by rw [heq], ⟨[], ?_, rfl⟩, fun h' hh' => ?_, by simp⟩
  · rw [heq]
    exact holds_init hpos hbuf
  · rw [List.prefix_nil.mp hh']
    exact List.prefix_rfl

section Runs

variable [DecidableEq T] {malloc : UInt64 → Option (List Int32)} {cap : UInt64} {q : Bq}
  (hq : bqInit malloc cap = some q) (hbuf : q.buf.length = cap.toNat) {n : Nat}
  (r : Run (machine (T := T) operations q) n)
include hq hbuf

/-- What the queue holds when the mutex is free. -/
theorem delivers_of_free {k : Nat} (hk : k ≤ n) (hfree : (r.st k).mutex = none) :
    Delivers cap (r.st k).data (served r k) :=
  serve_of_free (delivers_init hq hbuf) (fun _ _ _ _ hb hd => hd.next hb) r hk hfree

/-- What was got is a prefix of what was put, at every moment. -/
theorem gets_prefix_puts {k : Nat} (hk : k ≤ n) : gets (served r k) <+: puts (served r k) :=
  (serve_run (delivers_init hq hbuf) (fun _ _ _ _ hb hd => hd.next hb) r hk).before _
    (List.prefix_append _ _)

end Runs

end BoundedBuffer
