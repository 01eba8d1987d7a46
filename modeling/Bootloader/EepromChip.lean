import Bootloader.Eeprom
import Bootloader.I2cAbort

/-!
# The EEPROM on the bus

The AT24C64 as a slave: an automaton over the events of the bus. Bytes go to the cells when a STOP follows a write
whose bytes were all acknowledged. Which bytes the chip refuses is an arbitrary function of what it has seen, so
that a write cycle in progress is one case among others.
-/

namespace Bootloader
open TwoWire Bus

/-- What the chip takes the next byte for; behind the address of a write the bytes to store are kept. -/
inductive ChipPhase
  | off
  | device
  | high
  | low
  | data (l : List UInt8)
  | send

/-- The cells, the address counter, and the bits of the byte that has begun. -/
structure At24c64 where
  cells : Mem
  addr : Nat
  phase : ChipPhase
  bits : List Bool

namespace At24c64

/-- Stores the bytes of a write; the address counter of a write stays within a page of 32 bytes. -/
def store (m : Mem) (addr : Nat) : List UInt8 → Mem
  | [] => m
  | v :: l => store (m.write (addr % eepromSize) [v]) (addr / 32 * 32 + (addr + 1) % 32) l

/-- Behind the acknowledge of a byte. -/
def acked (c : At24c64) (v : UInt8) : At24c64 :=
  match c.phase with
  | .off => { c with bits := [] }
  | .device => { c with phase := if v = 0xA0 then .high else if v = 0xA1 then .send else .off, bits := [] }
  | .high => { c with addr := 256 * v.toNat, phase := .low, bits := [] }
  | .low => { c with addr := c.addr + v.toNat, phase := .data [], bits := [] }
  | .data l => { c with phase := .data (l ++ [v]), bits := [] }
  | .send => { c with addr := c.addr + 1, bits := [] }

def stop (c : At24c64) : At24c64 :=
  let cells := match c.phase with
    | .data l => if c.bits = [] then store c.cells c.addr l else c.cells
    | _ => c.cells
  { c with cells := cells, phase := .off, bits := [] }

def step (c : At24c64) : Event → At24c64
  | .start => { c with phase := .device, bits := [] }
  | .stop => c.stop
  | .bit b =>
    if c.bits.length < 8 then { c with bits := c.bits ++ [b] }
    else if b then { c with phase := .off, bits := [] }
    else c.acked (ofBits c.bits)

/-- The level of SDA in the next high phase of SCL, low where the chip pulls it; `refused` is whether it would refuse
a byte. -/
def drives (c : At24c64) (refused : Bool) : Bool :=
  if c.bits.length < 8 then
    match c.phase with
    | .send => (byteBits (c.cells (c.addr % eepromSize)))[c.bits.length]?.getD true
    | _ => true
  else
    match c.phase with
    | .off | .send => true
    | .device => refused || !(ofBits c.bits == 0xA0 || ofBits c.bits == 0xA1)
    | .high | .low | .data _ => refused

/-- The chip behind the events `es`. -/
def after (c : At24c64) (es : List Event) : At24c64 := es.foldl step c

def slave (c : At24c64) (refuses : List Event → Bool) (low : List Level → Bool) : Slave :=
  ⟨fun es => (c.after es).drives (refuses es), low⟩

variable {c : At24c64} {es : List Event} {v : UInt8} {l : List Bool} {refuses : List Event → Bool}
  {low : List Level → Bool} {ps : List Part} {r : Refusal}

theorem after_append {es' : List Event} : c.after (es ++ es') = (c.after es).after es' := List.foldl_append

theorem after_cons {e : Event} : c.after (e :: es) = (c.step e).after es := rfl

theorem after_nil : c.after [] = c := rfl

/-! ### Bytes -/

theorem after_bits (h : c.bits.length + l.length ≤ 8) : c.after (l.map .bit) = { c with bits := c.bits ++ l } := by
  induction l generalizing c with
  | nil => rw [List.map_nil, after_nil, List.append_nil]
  | cons b l ih =>
    rw [List.length_cons] at h
    rw [List.map_cons, after_cons, step, if_pos (by omega), ih (by simp; omega), List.append_assoc]; rfl

theorem after_byteBits (h : c.bits = []) : c.after ((byteBits v).map .bit) = { c with bits := byteBits v } := by
  rw [after_bits (by rw [h, length_byteBits]; decide), h, List.nil_append]

theorem after_acked (h : c.bits = []) : c.after (byteEvents v true) = c.acked v := by
  rw [byteEvents, after_append, after_byteBits h, after_cons, after_nil, Bool.not_true, step,
    if_neg (by rw [length_byteBits]; decide), if_neg Bool.false_ne_true, ofBits_byteBits]
  obtain ⟨cells, addr, phase, bits⟩ := c
  cases phase <;> rfl

/-- Behind a byte that nobody acknowledges the chip waits for a START. -/
theorem after_nacked (h : c.bits = []) :
    c.after (byteEvents v false) = { c with phase := .off, bits := [] } := by
  rw [byteEvents, after_append, after_byteBits h, after_cons, after_nil, Bool.not_false, step,
    if_neg (by rw [length_byteBits]; decide), if_pos rfl]

@[simp] theorem acked_bits : (c.acked v).bits = [] := by
  unfold acked
  split <;> rfl

@[simp] theorem acked_cells : (c.acked v).cells = c.cells := by
  unfold acked
  split <;> rfl

/-! ### Transfers -/

/-- The transfers of the driver use device addresses of 8 bits and register addresses of 16. -/
def eepromCfg : I2cmCfg := ⟨8, 16, true⟩

theorem addr_bytes (a : UInt16) : 256 * (a >>> 8).toUInt8.toNat + a.toUInt8.toNat = a.toNat := by
  have ha := a.toNat_lt
  rw [UInt16.toNat_toUInt8, UInt16.toNat_toUInt8, UInt16.toNat_shiftRight]
  have h8 : (8 : UInt16).toNat % 16 = 8 := rfl
  rw [h8, Nat.shiftRight_eq_div_pow]
  omega

theorem address_write : addressByte eepromCfg 0xA0 false = 0xA0 := by decide

theorem address_read : addressByte eepromCfg 0xA0 true = 0xA1 := by decide

theorem events_start : c.after (Part.events .start) = { c with phase := .device, bits := [] } := rfl

theorem events_byte {err : I2cmError} (h : c.bits = []) : c.after (Part.events (.byte err v)) = c.acked v :=
  after_acked h

theorem flatMap_cons {p : Part} : c.after ((p :: ps).flatMap Part.events) =
    (c.after p.events).after (ps.flatMap Part.events) := by rw [List.flatMap_cons, after_append]

theorem after_head (a : UInt16) (c : At24c64) :
    c.after ((Part.start :: .byte .wdevAckErr (addressByte eepromCfg 0xA0 false) ::
      regParts eepromCfg a).flatMap Part.events) = ⟨c.cells, a.toNat, .data [], []⟩ := by
  have hreg : regParts eepromCfg a = [.byte .reghAckErr (a >>> 8).toUInt8, .byte .reglAckErr a.toUInt8] := rfl
  have hdev : ({ c with phase := .device, bits := [] } : At24c64).bits = [] := rfl
  rw [← addr_bytes a, address_write, hreg, flatMap_cons, flatMap_cons, flatMap_cons, flatMap_cons, events_start,
    events_byte hdev, events_byte acked_bits, events_byte acked_bits]; rfl

/-- A write of one byte that is acknowledged throughout, with its STOP. -/
theorem after_write (a : UInt16) (v : UInt8) (c : At24c64) :
    (c.after ((writeParts eepromCfg 0xA0 a [v]).flatMap Part.events ++ [.stop])).cells =
      c.cells.write (a.toNat % eepromSize) [v] := by
  have hsplit : writeParts eepromCfg 0xA0 a [v] = (.start :: .byte .wdevAckErr (addressByte eepromCfg 0xA0 false) ::
      regParts eepromCfg a) ++ [.byte .wdataAckErr v] := rfl
  rw [hsplit, List.flatMap_append, after_append, after_append, after_head, flatMap_cons, events_byte rfl]; rfl

theorem after_readParts (a : UInt16) (c : At24c64) :
    c.after ((readParts eepromCfg 0xA0 a).flatMap Part.events) = ⟨c.cells, a.toNat, .send, []⟩ := by
  rw [readParts, if_neg (by decide), List.flatMap_append, after_append, after_head, address_read, flatMap_cons,
    flatMap_cons, events_start, events_byte rfl]; rfl

/-- The bits that the chip sends, from the place in the byte on. -/
theorem bits_send {n : Nat} (h : (c.after es).phase = .send) (hn : (c.after es).bits.length + n = 8) :
    (c.slave refuses low).bits n es =
      (byteBits ((c.after es).cells ((c.after es).addr % eepromSize))).drop (c.after es).bits.length := by
  induction n generalizing es with
  | zero => rw [Slave.bits, List.drop_eq_nil_of_le (by rw [length_byteBits]; omega)]
  | succ n ih =>
    have hlen : (c.after es).bits.length <
        (byteBits ((c.after es).cells ((c.after es).addr % eepromSize))).length := by rw [length_byteBits]; omega
    have hhigh : (c.slave refuses low).high es =
        (byteBits ((c.after es).cells ((c.after es).addr % eepromSize)))[(c.after es).bits.length] := by
      show (c.after es).drives (refuses es) = _
      rw [drives, if_pos (by omega), h]
      dsimp only
      rw [List.getElem?_eq_getElem hlen, Option.getD_some]
    have hnext : c.after (es ++ [.bit ((c.slave refuses low).high es)]) =
        { c.after es with bits := (c.after es).bits ++ [(c.slave refuses low).high es] } := by
      rw [after_append, after_cons, after_nil, step, if_pos (by omega)]
    have ih' := @ih (es ++ [.bit ((c.slave refuses low).high es)])
    rw [hnext] at ih'
    rw [Slave.bits, ih' h (by simp; omega), List.drop_eq_getElem_cons hlen, hhigh, List.length_append]; rfl

/-- The byte that the chip sends is the cell at its address counter. -/
theorem byte_send (h : (c.after es).phase = .send) (hb : (c.after es).bits = []) :
    (c.slave refuses low).byte es = (c.after es).cells ((c.after es).addr % eepromSize) := by
  rw [Slave.byte, bits_send h (by rw [hb]; rfl), hb, List.length_nil, List.drop_zero, ofBits_byteBits]

/-- Up to a refused byte the cells stay, and eight bits of a byte have been taken. -/
theorem after_refused {d : Slave} (hr : firstRefused d es ps = some r) (hb : (c.after es).bits = []) :
    (c.after r.events).cells = (c.after es).cells ∧ (c.after r.events).bits.length = 8 := by
  induction ps generalizing es with
  | nil => cases hr
  | cons p ps ih =>
    cases p with
    | start =>
      obtain ⟨hcells, hbits⟩ := ih hr (by rw [after_append]; rfl)
      exact ⟨hcells.trans (by rw [after_append]; rfl), hbits⟩
    | byte err v =>
      rw [firstRefused] at hr
      split at hr
      · cases hr
        dsimp only
        rw [after_append, after_byteBits hb]
        exact ⟨rfl, length_byteBits⟩
      · have hacked : c.after (es ++ byteEvents v true) = (c.after es).acked v := by rw [after_append, after_acked hb]
        obtain ⟨hcells, hbits⟩ := ih hr (by rw [hacked, acked_bits])
        exact ⟨hcells.trans (by rw [hacked, acked_cells]), hbits⟩

/-- A refused transfer changes no cell, whichever byte it is and whatever the abort shows. -/
theorem after_abort {d : Slave} {last : Bool} (hr : firstRefused d es (.start :: ps) = some r) :
    (c.after (r.events ++ abortEvents last)).cells = (c.after es).cells := by
  obtain ⟨hcells, hbits⟩ := @after_refused c (es ++ [.start]) ps r d hr (by rw [after_append]; rfl)
  have hstart : (c.after (es ++ [.start])).cells = (c.after es).cells := by rw [after_append]; rfl
  rw [after_append, ← hstart, ← hcells, abortEvents]
  cases last with
  | true => rw [if_pos rfl, after_cons, step, if_neg (by omega), if_pos rfl]; rfl
  | false => rw [if_neg Bool.false_ne_true]; rfl

end At24c64

end Bootloader
