import Mathlib

/-!
# The two-wire bus

A trace of the levels of a clock and a data line, the latest first, and its decoding by the bus rules: an
edge of SDA while SCL is high is a START or a STOP, and a bit is what SDA shows through a high phase of SCL
without an edge. Nine bits make a byte with its acknowledge. A slave is a function of the bus history that
keeps SDA stable while SCL is high.
-/

namespace TwoWire

structure Level where
  scl : Bool
  sda : Bool
deriving DecidableEq, Repr

inductive Event
  | start
  | stop
  | bit (b : Bool)
deriving DecidableEq, Repr

/-- What the decoder keeps of a trace: the last level, whether a high phase without an edge is going on, and
the events so far. -/
structure Monitor where
  level : Level
  steady : Bool
  events : List Event

namespace Monitor

/-- The bus is free: both lines are pulled up. -/
def idle : Monitor := ⟨⟨true, true⟩, false, []⟩

def step (m : Monitor) (l : Level) : Monitor :=
  match m.level.scl, l.scl with
  | true, true =>
    if m.level.sda = l.sda then { m with level := l }
    else ⟨l, false, m.events ++ [if l.sda then .stop else .start]⟩
  | true, false => ⟨l, false, if m.steady then m.events ++ [.bit m.level.sda] else m.events⟩
  | false, true => { m with level := l, steady := true }
  | false, false => { m with level := l }

/-- Levels that do not change are no event. -/
theorem step_of_high {m : Monitor} {v : Bool} (h : m.level = ⟨true, v⟩) : m.step ⟨true, v⟩ = m := by
  obtain ⟨level, steady, events⟩ := m
  dsimp only at h
  subst h
  exact if_pos rfl

end Monitor

/-- The decoder behind a trace, the latest level first. -/
def decode : List Level → Monitor
  | [] => .idle
  | l :: t => (decode t).step l

@[simp] theorem decode_cons {l : Level} {t : List Level} : decode (l :: t) = (decode t).step l := rfl

/-! ### Bytes -/

/-- The first `n` bits of a byte, the most significant first. -/
def bitsFrom : Nat → UInt8 → List Bool
  | 0, _ => []
  | n + 1, v => (v &&& 0x80 != 0) :: bitsFrom n (v <<< 1)

def byteBits (v : UInt8) : List Bool := bitsFrom 8 v

/-- Shifts a bit in from the right. -/
def shiftIn (v : UInt8) (b : Bool) : UInt8 := if b then v <<< 1 + 1 else v <<< 1

def ofBits (l : List Bool) : UInt8 := l.foldl shiftIn 0

/-- The events of a byte and its acknowledge, which is a low bit. -/
def byteEvents (v : UInt8) (ack : Bool) : List Event := (byteBits v).map .bit ++ [.bit !ack]

inductive Token
  | start
  | stop
  | byte (v : UInt8) (ack : Bool)
  /-- Bits that make no whole byte. -/
  | broken (l : List Bool)
deriving DecidableEq, Repr

/-- Splits the events into conditions and bytes; `acc` are the bits of the byte that has begun. -/
def tokens : List Bool → List Event → List Token
  | acc, [] => if acc = [] then [] else [.broken acc]
  | acc, .start :: es => (if acc = [] then [] else [.broken acc]) ++ .start :: tokens [] es
  | acc, .stop :: es => (if acc = [] then [] else [.broken acc]) ++ .stop :: tokens [] es
  | acc, .bit b :: es => if acc.length = 8 then .byte (ofBits acc) (!b) :: tokens [] es else tokens (acc ++ [b]) es

theorem length_bitsFrom {n : Nat} {v : UInt8} : (bitsFrom n v).length = n := by
  induction n generalizing v with
  | zero => rfl
  | succ n ih => rw [bitsFrom, List.length_cons, ih]

/-- A fact about bytes, from its 256 cases. -/
theorem forall_byte {P : UInt8 → Prop} (h : ∀ n < 256, P (UInt8.ofNat n)) (v : UInt8) : P v :=
  UInt8.ofNat_toNat (x := v) ▸ h _ v.toNat_lt

theorem ofBits_byteBits (v : UInt8) : ofBits (byteBits v) = v :=
  forall_byte (P := fun v => ofBits (byteBits v) = v) (by decide +kernel) v

theorem tokens_bits {acc l : List Bool} {es : List Event} (h : acc.length + l.length ≤ 8) :
    tokens acc (l.map .bit ++ es) = tokens (acc ++ l) es := by
  induction l generalizing acc with
  | nil => rw [List.map_nil, List.nil_append, List.append_nil]
  | cons b l ih =>
    rw [List.length_cons] at h
    rw [List.map_cons, List.cons_append, tokens, if_neg (by omega), ih (by rw [List.length_append]; simp; omega),
      List.append_assoc]; rfl

@[simp] theorem tokens_byteEvents {v : UInt8} {ack : Bool} {es : List Event} :
    tokens [] (byteEvents v ack ++ es) = .byte v ack :: tokens [] es := by
  rw [byteEvents, List.append_assoc, tokens_bits (by rw [byteBits, length_bitsFrom]; decide), List.nil_append,
    List.singleton_append, tokens, if_pos (by rw [byteBits, length_bitsFrom]), ofBits_byteBits, Bool.not_not]

@[simp] theorem tokens_start {es : List Event} : tokens [] (.start :: es) = .start :: tokens [] es := rfl

@[simp] theorem tokens_stop {es : List Event} : tokens [] (.stop :: es) = .stop :: tokens [] es := rfl

theorem byteBits_ofBits {l : List Bool} (h : l.length = 8) : byteBits (ofBits l) = l := by
  have hall : ∀ b0 b1 b2 b3 b4 b5 b6 b7,
      byteBits (ofBits [b0, b1, b2, b3, b4, b5, b6, b7]) = [b0, b1, b2, b3, b4, b5, b6, b7] := by decide +kernel
  match l, h with
  | [b0, b1, b2, b3, b4, b5, b6, b7], _ => exact hall b0 b1 b2 b3 b4 b5 b6 b7

/-- The bytes of a read: the master acknowledges each but the last. -/
def readTokens : List UInt8 → List Token
  | [] => []
  | [v] => [.byte v false]
  | v :: l => .byte v true :: readTokens l

/-! ### The place in a transaction -/

/-- The bits since the last START, and the direction bit of the address byte. -/
structure Slot where
  bits : Nat
  reading : Bool
deriving DecidableEq, Repr

def Slot.step (s : Slot) : Event → Slot
  | .bit b => ⟨s.bits + 1, if s.bits = 7 then b else s.reading⟩
  | _ => ⟨0, false⟩

def slot (es : List Event) : Slot := es.foldl Slot.step ⟨0, false⟩

/-- The next bit is the acknowledge of the slave for a byte of the master. -/
def Slot.acks (s : Slot) : Bool := s.bits == 8 || (s.bits % 9 == 8 && !s.reading)

/-- What the slave puts on SDA when the master has released it: `high` through a high phase of SCL, a function
of the events so far, and anything while SCL is low. -/
structure Slave where
  high : List Event → Bool
  low : List Level → Bool

namespace Slave

/-- The slave acknowledges every byte that the master sends. -/
def Acks (d : Slave) : Prop := ∀ es, (slot es).acks = true → d.high es = false

/-- The next `n` bits that the slave puts on SDA, clocked by the master. -/
def bits (d : Slave) : Nat → List Event → List Bool
  | 0, _ => []
  | n + 1, es => d.high es :: d.bits n (es ++ [.bit (d.high es)])

/-- The next byte of the slave. -/
def byte (d : Slave) (es : List Event) : UInt8 := ofBits (d.bits 8 es)

/-- The next bytes of the slave when the master acknowledges each of them. -/
def bytes (d : Slave) : Nat → List Event → List UInt8
  | 0, _ => []
  | n + 1, es => d.byte es :: d.bytes n (es ++ byteEvents (d.byte es) true)

end Slave

theorem Slave.length_bits {d : Slave} {n : Nat} {es : List Event} : (d.bits n es).length = n := by
  induction n generalizing es with
  | zero => rfl
  | succ n ih => rw [bits, List.length_cons, ih]

theorem Slave.byteBits_byte {d : Slave} {es : List Event} : byteBits (d.byte es) = d.bits 8 es :=
  byteBits_ofBits length_bits

/-! ### Slots of the master's bytes -/

/-- The next byte is sent by the master: the address byte, or data behind an address with a low direction bit. -/
def Slot.sends (s : Slot) : Prop := s.bits = 0 ∨ s.bits % 9 = 0 ∧ s.reading = false

theorem slot_append {es es' : List Event} : slot (es ++ es') = es'.foldl Slot.step (slot es) := List.foldl_append

theorem slot_start {es : List Event} : slot (es ++ [.start]) = ⟨0, false⟩ := slot_append

theorem foldl_bits {s : Slot} {l : List Bool} : ((l.map Event.bit).foldl Slot.step s).bits = s.bits + l.length := by
  induction l generalizing s with
  | nil => rfl
  | cons b l ih => rw [List.map_cons, List.foldl_cons, ih, Slot.step, List.length_cons]; dsimp only; omega

/-- Bits that do not cover the direction bit leave the direction. -/
theorem foldl_reading {s : Slot} {l : List Bool} (h : 7 < s.bits ∨ s.bits + l.length ≤ 7) :
    ((l.map Event.bit).foldl Slot.step s).reading = s.reading := by
  induction l generalizing s with
  | nil => rfl
  | cons b l ih =>
    rw [List.length_cons] at h
    rw [List.map_cons, List.foldl_cons, ih (by rw [Slot.step]; dsimp only; omega), Slot.step]
    exact if_neg (by omega)

theorem foldl_byteBits (v : UInt8) (r : Bool) :
    ((byteBits v).map Event.bit).foldl Slot.step ⟨0, r⟩ = ⟨8, v &&& 1 != 0⟩ :=
  forall_byte (P := fun v => ∀ r, ((byteBits v).map Event.bit).foldl Slot.step ⟨0, r⟩ = ⟨8, v &&& 1 != 0⟩)
    (by decide +kernel) v r

variable {es : List Event} {v : UInt8} {ack : Bool}

theorem length_byteBits : (byteBits v).length = 8 := length_bitsFrom

/-- Behind the eight bits of a byte of the master the slave acknowledges. -/
theorem Slot.sends.acks (h : (slot es).sends) : (slot (es ++ (byteBits v).map .bit)).acks = true := by
  have hb := foldl_bits (s := slot es) (l := byteBits v)
  rw [length_byteBits] at hb
  rw [slot_append, Slot.acks, Bool.or_eq_true, Bool.and_eq_true, beq_iff_eq, beq_iff_eq, Bool.not_eq_true', hb]
  by_cases h0 : (slot es).bits = 0
  · exact .inl (by omega)
  · obtain ⟨hn, hr⟩ := h.resolve_left h0
    refine .inr ⟨by omega, ?_⟩
    rw [foldl_reading (.inl (by omega))]
    exact hr

/-- A byte of the master is followed by another one, unless it is the address of a read. -/
theorem Slot.sends.byte (h : (slot es).sends) (hv : (slot es).bits = 0 → v &&& 1 = 0) :
    (slot (es ++ byteEvents v ack)).sends := by
  have hb := foldl_bits (s := slot es) (l := byteBits v)
  rw [length_byteBits] at hb
  rw [byteEvents, ← List.append_assoc, slot_append, slot_append, List.foldl_cons, List.foldl_nil, Slot.step,
    Slot.sends]
  dsimp only
  rw [hb]
  by_cases h0 : (slot es).bits = 0
  · have hs : slot es = ⟨0, (slot es).reading⟩ := by rw [← h0]
    refine .inr ⟨by omega, ?_⟩
    rw [if_neg (by omega), hs, foldl_byteBits, hv h0]; rfl
  · obtain ⟨hn, hr⟩ := h.resolve_left h0
    refine .inr ⟨by omega, ?_⟩
    rw [if_neg (by omega), foldl_reading (.inl (by omega))]
    exact hr

theorem sends_start : (slot (es ++ [.start])).sends := .inl (by rw [slot_start])

theorem bits_byteEvents : (slot (es ++ byteEvents v ack)).bits ≠ 0 := by
  rw [slot_append, byteEvents, List.foldl_append, List.foldl_cons, List.foldl_nil, Slot.step]
  exact Nat.succ_ne_zero _

end TwoWire
