import Bootloader.I2cMaster

/-!
# The transfers of the I2C master

The trace of `I2CM_Write` and `I2CM_Read`, decoded by the bus rules. SCL is low between the parts of a
transfer (`At`), so that what the pins do there decodes to nothing; each part then adds its own events.
-/

namespace Bootloader.Bus
open TwoWire

/-- SCL is low behind the events `es`. -/
structure At (b : Bus) (es : List Event) : Prop where
  scl : b.scl = false
  level : (decode b.trace).level.scl = false
  events : (decode b.trace).events = es

/-- A high phase of SCL in which SDA has been `v` so far. -/
structure High (b : Bus) (es : List Event) (v : Bool) : Prop where
  scl : b.scl = true
  level : (decode b.trace).level = ⟨true, v⟩
  steady : (decode b.trace).steady = true
  events : (decode b.trace).events = es

/-- Both lines are high, driven by the pins. -/
structure Idle (b : Bus) : Prop where
  scl : b.scl = true
  odr : b.odr = true
  out : b.out = true
  level : (decode b.trace).level = ⟨true, true⟩

variable {cfg : I2cmCfg} {d : Slave} {b b' : Bus} {es : List Event} {v : Bool} {n : Nat} {txd : UInt8}

@[simp] theorem scl1_out : (b.scl1 d).out = b.out := rfl
@[simp] theorem scl0_out : (b.scl0 d).out = b.out := rfl

/-! ### Edges -/

/-- What the pins do to SDA while SCL is low is no event. -/
theorem At.emit (h : At b es) (hs : b'.scl = false) (ht : b'.trace = b.trace) : At (b'.emit d) es := by
  have hstep : decode (b'.emit d).trace = { decode b.trace with level := ⟨false, b'.sda d⟩ } := by
    rw [Bus.emit, decode_cons, ht, Monitor.step, h.level, hs]
  exact ⟨hs, by rw [hstep], by rw [hstep]; exact h.events⟩

theorem At.scl1 (h : At b es) : High (b.scl1 d) es (if b.out then b.odr else d.high es) := by
  have hsda : ({ b with scl := true } : Bus).sda d = if b.out then b.odr else d.high es := by
    rw [sda, if_pos rfl, h.events]
  have hstep : decode (b.scl1 d).trace =
      { decode b.trace with level := ⟨true, if b.out then b.odr else d.high es⟩, steady := true } := by
    rw [Bus.scl1, Bus.emit, decode_cons, hsda, Monitor.step, h.level]
  exact ⟨rfl, by rw [hstep], by rw [hstep], by rw [hstep]; exact h.events⟩

theorem High.scl0 (h : High b es v) : At (b.scl0 d) (es ++ [.bit v]) := by
  have hstep : decode (b.scl0 d).trace = ⟨⟨false, ({ b with scl := false } : Bus).sda d⟩, false, es ++ [.bit v]⟩ := by
    rw [Bus.scl0, Bus.emit, decode_cons, Monitor.step, h.level, h.steady, h.events]; rfl
  exact ⟨rfl, by rw [hstep], by rw [hstep]⟩

theorem At.scl0 (h : At b es) : At (b.scl0 d) es := h.emit rfl rfl
theorem At.sda1 (h : At b es) : At (b.sda1 d) es := h.emit h.scl rfl
theorem At.sda0 (h : At b es) : At (b.sda0 d) es := h.emit h.scl rfl
theorem At.sdaIn (h : At b es) : At (b.sdaIn d) es := h.emit h.scl rfl
theorem At.sdaOut (h : At b es) : At (b.sdaOut d) es := h.emit h.scl rfl

/-- A clock pulse by the pins: SDA is driven. -/
theorem At.pulse (h : At b es) (ho : b.out = true) : At ((b.scl1 d).scl0 d) (es ++ [.bit b.odr]) := by
  have hr := h.scl1 (d := d)
  rw [if_pos ho] at hr
  exact hr.scl0

/-- Both lines high and driven: pulling SDA is a START. -/
theorem start_of_high (hs : b.scl = true) (ho : b.out = true)
    (hl : (decode b.trace).level = ⟨true, true⟩) :
    At ((b.sda0 d).scl0 d) ((decode b.trace).events ++ [.start]) := by
  have hstep : decode (b.sda0 d).trace = ⟨⟨true, false⟩, false, (decode b.trace).events ++ [.start]⟩ := by
    rw [Bus.sda0, Bus.emit, decode_cons, sda, Monitor.step, hl, hs, ho]; rfl
  have hstep' : decode ((b.sda0 d).scl0 d).trace =
      ⟨⟨false, ({ b.sda0 d with scl := false } : Bus).sda d⟩, false, (decode b.trace).events ++ [.start]⟩ := by
    rw [Bus.scl0, Bus.emit, decode_cons, hstep, Monitor.step]; rfl
  exact ⟨rfl, by rw [hstep'], by rw [hstep']⟩

theorem At.start (h : At b es) : At (b.start d) (es ++ [.start]) := by
  have hr := (h.sdaOut (d := d)).sda1 (d := d) |>.scl1 (d := d)
  rw [← hr.events]
  exact start_of_high hr.scl rfl hr.level

theorem Idle.start (h : Idle b) : At (b.start d) ((decode b.trace).events ++ [.start]) := by
  have hkeep : ∀ b' : Bus, b'.scl = true → b'.odr = true → b'.out = true → (decode b'.trace).level = ⟨true, true⟩ →
      decode (b'.emit d).trace = decode b'.trace := fun b' h1 h2 h3 h4 => by
    rw [Bus.emit, decode_cons, sda, h1, if_pos h3, h2, Monitor.step_of_high h4]
  have h1 := hkeep { b with out := true } h.scl h.odr rfl h.level
  have h2 := hkeep { b.sdaOut d with odr := true } h.scl rfl rfl (h1 ▸ h.level)
  have h3 := hkeep { (b.sdaOut d).sda1 d with scl := true } rfl rfl rfl (h2 ▸ h1 ▸ h.level)
  have hall : decode (((b.sdaOut d).sda1 d).scl1 d).trace = decode b.trace := h3.trans (h2.trans h1)
  rw [← hall]
  exact start_of_high rfl rfl (hall ▸ h.level)

/-- The end of `I2CM_Stop`, with SCL low and SDA driven. -/
theorem At.stopTail (h : At b es) (ho : b.out = true) : Idle (((b.sda0 d).scl1 d).sda1 d) ∧
    (decode (((b.sda0 d).scl1 d).sda1 d).trace).events = es ++ [.stop] := by
  have hr := (h.sda0 (d := d)).scl1 (d := d)
  have hv : (if (b.sda0 d).out then (b.sda0 d).odr else d.high es) = false := if_pos ho
  rw [hv] at hr
  have hsda : ({ (b.sda0 d).scl1 d with odr := true } : Bus).sda d = true := if_pos ho
  have hstep : decode (((b.sda0 d).scl1 d).sda1 d).trace = ⟨⟨true, true⟩, false, es ++ [.stop]⟩ := by
    rw [Bus.sda1, Bus.emit, decode_cons, hsda, Monitor.step, hr.level, ← hr.events]; rfl
  exact ⟨⟨rfl, rfl, ho, by rw [hstep]⟩, by rw [hstep]⟩

theorem At.stop (h : At b es) : Idle (b.stop d) ∧ (decode (b.stop d).trace).events = es ++ [.stop] :=
  h.sdaOut.scl0.stopTail rfl

/-! ### Bytes -/

theorem At.sendBits (h : At b es) (ho : b.out = true) :
    At (b.sendBits d n txd) (es ++ (bitsFrom n txd).map .bit) := by
  induction n generalizing b es txd with
  | zero => rw [bitsFrom, List.map_nil, List.append_nil]; exact h
  | succ n ih =>
    have hb : ∀ v, v = (txd &&& 0x80 != 0) → ∀ b', At b' es → b'.out = true → b'.odr = v →
        At (((b'.scl1 d).scl0 d).sendBits d n (txd <<< 1)) (es ++ (bitsFrom (n + 1) txd).map .bit) :=
      fun v hv b' h' ho' hodr => by
        have hp : At (((b'.scl1 d).scl0 d).sendBits d n (txd <<< 1)) _ := ih (h'.pulse (d := d) ho') ho'
        rwa [hodr, hv, List.append_assoc, List.singleton_append, ← List.map_cons, ← bitsFrom] at hp
    rw [Bus.sendBits]
    split
    · next hv => exact hb true hv.symm _ h.sda1 ho rfl
    · next hv => exact hb false (Bool.not_eq_true _ ▸ hv).symm _ h.sda0 ho rfl

theorem At.sendByte (h : At b es) : At (b.sendByte d txd) (es ++ (byteBits txd).map .bit) :=
  h.sdaOut.sendBits rfl

/-- The slave pulls SDA: no error. -/
theorem At.waitAck (cfg : I2cmCfg) (h : At b es) (ha : d.high es = false) :
    (b.waitAck cfg d).1 = .eok ∧ At (b.waitAck cfg d).2 (es ++ [.bit false]) := by
  have hr := h.sdaIn (d := d) |>.scl1 (d := d)
  have hv : (if (b.sdaIn d).out then (b.sdaIn d).odr else d.high es) = false := ha
  rw [hv] at hr
  have hsda : ((b.sdaIn d).scl1 d).sda d = false := by
    rw [sda, if_neg (by rintro ⟨⟩), if_pos hr.scl, hr.events, ha]
  have hm : ((b.sdaIn d).scl1 d).ackMissing d 21 = false := by
    rw [ackMissing, hsda]; rfl
  have heq : b.waitAck cfg d = (.eok, ((b.sdaIn d).scl1 d).scl0 d) := by
    rw [Bus.waitAck, hm, Bool.and_false]; rfl
  rw [heq]
  exact ⟨rfl, hr.scl0⟩

theorem At.sendAck (cfg : I2cmCfg) (err : I2cmError) (h : At b es)
    (ha : d.high (es ++ (byteBits txd).map .bit) = false) :
    ∃ b', b.sendAck cfg d err txd = .ok b' ∧ At b' (es ++ byteEvents txd true) := by
  have hbyte : At (b.sendByte d txd) (es ++ (byteBits txd).map .bit) := h.sendByte
  obtain ⟨he, hat⟩ := hbyte.waitAck cfg ha
  rw [List.append_assoc] at hat
  refine ⟨_, ?_, hat⟩
  rw [Bus.sendAck]
  generalize (b.sendByte d txd).waitAck cfg d = r at he
  obtain ⟨e, b'⟩ := r
  dsimp only at he
  subst he; rfl

theorem At.ack (h : At b es) : At (b.ack d) (es ++ [.bit false]) := h.sdaOut.scl0.sda0.pulse rfl

theorem At.nack (h : At b es) : At (b.nack d) (es ++ [.bit true]) := h.sdaOut.scl0.sda1.pulse rfl

/-- The bits that the slave sends; SCL is low before each of them. -/
theorem At.readBits (receive : UInt8) (h : At (b.scl0 d) es) (ho : b.out = false) :
    (b.readBits d n receive).1 = (d.bits n es).foldl shiftIn receive ∧
      At ((b.readBits d n receive).2.scl0 d) (es ++ (d.bits n es).map .bit) := by
  induction n generalizing b es receive with
  | zero => exact ⟨rfl, by rw [Slave.bits, List.map_nil, List.append_nil]; exact h⟩
  | succ n ih =>
    have hr := h.scl1 (d := d)
    rw [if_neg (by rw [scl0_out, ho]; decide)] at hr
    have hsda : ((b.scl0 d).scl1 d).sda d = d.high es := by
      rw [sda, if_neg (by rw [scl1_out, scl0_out, ho]; decide), if_pos hr.scl, hr.events]
    obtain ⟨h1, h2⟩ := ih (shiftIn receive (d.high es)) hr.scl0 ho
    rw [Bus.readBits, hsda]
    refine ⟨h1, ?_⟩
    rwa [List.append_assoc] at h2

theorem At.readByte (acks : Bool) (h : At b es) : (b.readByte d acks).1 = d.byte es ∧
    At (b.readByte d acks).2 (es ++ byteEvents (d.byte es) acks) := by
  obtain ⟨h1, h2⟩ := (h.sdaIn (d := d)).scl0.readBits 0 (n := 8) rfl
  rw [byteEvents, Slave.byteBits_byte, ← List.append_assoc]
  refine ⟨h1, ?_⟩
  cases acks with
  | true => exact h2.ack
  | false => exact h2.nack

/-! ### Transfers -/

/-- The events of a read of `n + 1` bytes. -/
def readEvents (d : Slave) : Nat → List Event → List Event
  | 0, es => byteEvents (d.byte es) false
  | n + 1, es => byteEvents (d.byte es) true ++ readEvents d n (es ++ byteEvents (d.byte es) true)

theorem tokens_readEvents {es' : List Event} :
    tokens [] (readEvents d n es ++ es') = readTokens (d.bytes (n + 1) es) ++ tokens [] es' := by
  induction n generalizing es with
  | zero => rw [readEvents, tokens_byteEvents]; rfl
  | succ n ih =>
    rw [readEvents, List.append_assoc, tokens_byteEvents, ih]; rfl

theorem At.readData (h : At b es) :
    (b.readData d n).1 = d.bytes (n + 1) es ∧ At (b.readData d n).2 (es ++ readEvents d n es) := by
  induction n generalizing b es with
  | zero =>
    obtain ⟨h1, h2⟩ := h.readByte false (d := d)
    exact ⟨congrArg (fun v => [v]) h1, h2⟩
  | succ n ih =>
    obtain ⟨h1, h2⟩ := h.readByte true (d := d)
    obtain ⟨h3, h4⟩ := ih h2
    rw [List.append_assoc] at h4
    exact ⟨congrArg₂ List.cons h1 h3, h4⟩

/-- The bytes of a register address, the high byte first. -/
def regBytes (cfg : I2cmCfg) (iRegAddr : UInt16) : List UInt8 :=
  if cfg.regAddrBits = 0 then []
  else if cfg.regAddrBits ≤ 8 then [iRegAddr.toUInt8]
  else [(iRegAddr >>> 8).toUInt8, iRegAddr.toUInt8]

/-- The address byte of a device with a direction bit. -/
def addressByte (cfg : I2cmCfg) (iDevAddr : UInt8) (reading : Bool) : UInt8 :=
  (if cfg.devAddrBits = 7 then iDevAddr <<< 1 else iDevAddr &&& 0xFE) ||| if reading then 1 else 0

theorem addressJudge_eq {iDevAddr : UInt8} : addressJudge cfg iDevAddr = addressByte cfg iDevAddr false := by
  unfold addressJudge addressByte
  split
  · exact forall_byte (P := fun v => (v <<< 1) &&& (0xFE : UInt8) = v <<< 1 ||| (0 : UInt8)) (by decide +kernel) _
  · exact (UInt8.or_zero).symm

theorem addressJudge_succ {iDevAddr : UInt8} : addressJudge cfg iDevAddr + 1 = addressByte cfg iDevAddr true := by
  unfold addressJudge addressByte
  split
  · exact forall_byte (P := fun v => (v <<< 1 &&& (0xFE : UInt8)) + (1 : UInt8) = v <<< 1 ||| (1 : UInt8))
      (by decide +kernel) _
  · exact forall_byte (P := fun v => (v &&& (0xFE : UInt8)) + (1 : UInt8) = v &&& (0xFE : UInt8) ||| (1 : UInt8))
      (by decide +kernel) _

/-- The address byte of a write has a low direction bit. -/
theorem addressByte_low {iDevAddr : UInt8} : addressByte cfg iDevAddr false &&& 1 = 0 := by
  rw [← addressJudge_eq, addressJudge]
  split <;> exact forall_byte (P := fun v => v &&& (0xFE : UInt8) &&& (1 : UInt8) = 0) (by decide +kernel) _

theorem regHigh_eq {r : UInt16} : ((r &&& 0xFF00) >>> 8).toUInt8 = (r >>> 8).toUInt8 := by
  apply UInt8.toBitVec_inj.1
  apply BitVec.eq_of_getLsbD_eq
  intro i hi
  simp only [UInt16.toBitVec_toUInt8, UInt16.toBitVec_shiftRight, UInt16.toBitVec_and, BitVec.getLsbD_setWidth]
  interval_cases i <;> simp

theorem regLow_eq {r : UInt16} : (r &&& 0x00FF).toUInt8 = r.toUInt8 := by
  apply UInt8.toNat_inj.1
  rw [UInt16.toNat_toUInt8, UInt16.toNat_toUInt8, UInt16.toNat_and]
  show (r.toNat &&& (2 ^ 8 - 1)) % 2 ^ 8 = _
  rw [Nat.and_two_pow_sub_one_eq_mod, Nat.mod_mod]

/-! ### Parts of a transfer -/

/-- What a transfer sends in front of the data of a read: a START, or a byte with the error that is returned when
the slave refuses it. -/
inductive Part
  | start
  | byte (err : I2cmError) (v : UInt8)

/-- The events of a part that is not refused. -/
def Part.events : Part → List Event
  | start => [.start]
  | byte _ v => byteEvents v true

def Part.token : Part → Token
  | start => .start
  | byte _ v => .byte v true

def runParts (cfg : I2cmCfg) (d : Slave) : List Part → Bus → Except (I2cmError × Bus) Bus
  | [], b => pure b
  | .start :: ps, b => runParts cfg d ps (b.start d)
  | .byte err v :: ps, b => do
    let b ← b.sendAck cfg d err v
    runParts cfg d ps b

/-- A byte that is not acknowledged: its error, the byte, and the events up to its last bit. -/
structure Refusal where
  err : I2cmError
  byte : UInt8
  events : List Event

/-- The first byte at which the slave leaves SDA high for the acknowledge. -/
def firstRefused (d : Slave) : List Event → List Part → Option Refusal
  | _, [] => none
  | es, .start :: ps => firstRefused d (es ++ [.start]) ps
  | es, .byte err v :: ps =>
    if d.high (es ++ (byteBits v).map .bit) then some ⟨err, v, es ++ (byteBits v).map .bit⟩
    else firstRefused d (es ++ byteEvents v true) ps

/-- The parts of the register address. -/
def regParts (cfg : I2cmCfg) (iRegAddr : UInt16) : List Part :=
  if cfg.regAddrBits = 0 then []
  else if cfg.regAddrBits ≤ 8 then [.byte .reglAckErr iRegAddr.toUInt8]
  else [.byte .reghAckErr (iRegAddr >>> 8).toUInt8, .byte .reglAckErr iRegAddr.toUInt8]

/-- The parts of `I2CM_Write`. -/
def writeParts (cfg : I2cmCfg) (iDevAddr : UInt8) (iRegAddr : UInt16) (pWrite : List UInt8) : List Part :=
  .start :: .byte .wdevAckErr (addressByte cfg iDevAddr false) ::
    (regParts cfg iRegAddr ++ pWrite.map (.byte .wdataAckErr))

/-- The parts of `I2CM_Read`, up to the address with the direction of a read. -/
def readParts (cfg : I2cmCfg) (iDevAddr : UInt8) (iRegAddr : UInt16) : List Part :=
  (if cfg.regAddrBits = 0 then []
    else .start :: .byte .wdevAckErr (addressByte cfg iDevAddr false) :: regParts cfg iRegAddr) ++
    [.start, .byte .rdevAckErr (addressByte cfg iDevAddr true)]

variable {ps qs : List Part}

theorem runParts_append : b.runParts cfg d (ps ++ qs) = b.runParts cfg d ps >>= runParts cfg d qs := by
  induction ps generalizing b with
  | nil => rfl
  | cons p ps ih =>
    cases p with
    | start => exact ih
    | byte err v =>
      rw [List.cons_append, runParts, runParts]
      cases b.sendAck cfg d err v with
      | error e => rfl
      | ok b' => exact ih

theorem firstRefused_append : firstRefused d es (ps ++ qs) =
    (firstRefused d es ps).or (firstRefused d (es ++ ps.flatMap Part.events) qs) := by
  induction ps generalizing es with
  | nil => rw [List.flatMap_nil, List.append_nil]; rfl
  | cons p ps ih =>
    rw [List.flatMap_cons, ← List.append_assoc]
    cases p with
    | start => exact ih
    | byte err v =>
      rw [List.cons_append, firstRefused, firstRefused]
      split
      · rfl
      · exact ih

theorem tokens_parts {es' : List Event} :
    tokens [] (ps.flatMap Part.events ++ es') = ps.map Part.token ++ tokens [] es' := by
  induction ps with
  | nil => rfl
  | cons p ps ih =>
    rw [List.flatMap_cons, List.append_assoc]
    cases p with
    | start => rw [Part.events, List.singleton_append, tokens_start, ih]; rfl
    | byte err v => rw [Part.events, tokens_byteEvents, ih]; rfl

theorem sendRegAddr_eq {iRegAddr : UInt16} :
    b.sendRegAddr cfg d iRegAddr = b.runParts cfg d (regParts cfg iRegAddr) := by
  rw [Bus.sendRegAddr, regParts, regHigh_eq, regLow_eq]
  by_cases hz : cfg.regAddrBits = 0
  · rw [if_neg (by omega), if_pos hz]; rfl
  · have hone : ∀ b : Bus, b.sendAck cfg d .reglAckErr iRegAddr.toUInt8 =
        b.runParts cfg d [.byte .reglAckErr iRegAddr.toUInt8] := fun b => by
      rw [runParts]
      cases b.sendAck cfg d .reglAckErr iRegAddr.toUInt8 <;> rfl
    rw [if_pos (by omega), if_neg hz]
    by_cases h8 : cfg.regAddrBits ≤ 8
    · rw [if_neg (by omega), if_pos h8]
      exact hone b
    · rw [if_pos (by omega), if_neg h8, runParts]
      exact congrArg _ (funext hone)

theorem sendData_eq {pWrite : List UInt8} :
    b.sendData cfg d pWrite = b.runParts cfg d (pWrite.map (.byte .wdataAckErr)) := by
  induction pWrite generalizing b with
  | nil => rfl
  | cons v pWrite ih =>
    rw [Bus.sendData, List.map_cons, runParts]
    exact congrArg _ (funext fun b => ih)

theorem i2cmWrite_eq {iDevAddr : UInt8} {iRegAddr : UInt16} {pWrite : List UInt8} :
    b.i2cmWrite cfg d iDevAddr iRegAddr pWrite =
      match b.runParts cfg d (writeParts cfg iDevAddr iRegAddr pWrite) with
      | .ok b => (.eok, b.stop d)
      | .error e => e := by
  have htail : ∀ b : Bus, (b.sendRegAddr cfg d iRegAddr >>= fun b => b.sendData cfg d pWrite) =
      b.runParts cfg d (regParts cfg iRegAddr ++ pWrite.map (.byte .wdataAckErr)) := fun b => by
    rw [runParts_append, sendRegAddr_eq]
    exact congrArg _ (funext fun b => sendData_eq)
  have hall : ((b.start d).sendAck cfg d .wdevAckErr (addressJudge cfg iDevAddr) >>= fun b =>
      b.sendRegAddr cfg d iRegAddr >>= fun b => b.sendData cfg d pWrite) =
      b.runParts cfg d (writeParts cfg iDevAddr iRegAddr pWrite) := by
    rw [writeParts, runParts, runParts, addressJudge_eq]
    exact congrArg _ (funext htail)
  rw [← hall]; rfl

theorem i2cmRead_eq {iDevAddr : UInt8} {iRegAddr : UInt16} :
    b.i2cmRead cfg d iDevAddr iRegAddr n =
      match b.runParts cfg d (readParts cfg iDevAddr iRegAddr) with
      | .ok b => (.eok, (b.readData d (n - 1)).1, (b.readData d (n - 1)).2.stop d)
      | .error (err, b) => (err, [], b) := by
  have hlast : ∀ b : Bus, (b.start d).sendAck cfg d .rdevAckErr (addressByte cfg iDevAddr true) =
      b.runParts cfg d [.start, .byte .rdevAckErr (addressByte cfg iDevAddr true)] := fun b => by
    rw [runParts, runParts]
    cases (b.start d).sendAck cfg d .rdevAckErr (addressByte cfg iDevAddr true) <;> rfl
  have hhead : b.sendHead cfg d (addressJudge cfg iDevAddr) iRegAddr = b.runParts cfg d
      (if cfg.regAddrBits = 0 then []
        else .start :: .byte .wdevAckErr (addressByte cfg iDevAddr false) :: regParts cfg iRegAddr) := by
    rw [Bus.sendHead, addressJudge_eq]
    by_cases hz : cfg.regAddrBits = 0
    · rw [if_neg (by omega), if_pos hz]; rfl
    · rw [if_pos (by omega), if_neg hz, runParts, runParts]
      exact congrArg _ (funext fun b => sendRegAddr_eq)
  have hall : (b.sendHead cfg d (addressJudge cfg iDevAddr) iRegAddr >>= fun b =>
      (b.start d).sendAck cfg d .rdevAckErr (addressJudge cfg iDevAddr + 1)) =
      b.runParts cfg d (readParts cfg iDevAddr iRegAddr) := by
    rw [readParts, runParts_append, ← hhead, addressJudge_succ]
    exact congrArg _ (funext hlast)
  rw [← hall]; rfl

theorem At.runParts (cfg : I2cmCfg) (h : At b es) (hn : firstRefused d es ps = none) :
    ∃ b', b.runParts cfg d ps = .ok b' ∧ At b' (es ++ ps.flatMap Part.events) := by
  induction ps generalizing b es with
  | nil => exact ⟨b, rfl, by rwa [List.flatMap_nil, List.append_nil]⟩
  | cons p ps ih =>
    rw [List.flatMap_cons, ← List.append_assoc]
    cases p with
    | start => exact ih h.start hn
    | byte err v =>
      rw [firstRefused] at hn
      split at hn
      · cases hn
      · next ha =>
        obtain ⟨b₁, hb₁, hat⟩ := h.sendAck cfg err (Bool.not_eq_true _ ▸ ha)
        rw [Bus.runParts, hb₁]
        exact ih hat hn

/-- The bytes behind an address byte are not refused by a slave that acknowledges every byte. -/
theorem firstRefused_bytes (hd : d.Acks) (hs : (slot es).sends) (h0 : (slot es).bits ≠ 0)
    (hps : ∀ p ∈ ps, p ≠ .start) : firstRefused d es ps = none := by
  induction ps generalizing es with
  | nil => rfl
  | cons p ps ih =>
    cases p with
    | start => exact absurd rfl (hps _ List.mem_cons_self)
    | byte err v =>
      rw [firstRefused, hd _ hs.acks, if_neg Bool.false_ne_true]
      exact ih (hs.byte fun hc => absurd hc h0) bits_byteEvents fun p hp => hps p (List.mem_cons_of_mem _ hp)

theorem firstRefused_address {err : I2cmError} (hd : d.Acks) (hv : txd &&& 1 = 0) (hps : ∀ p ∈ ps, p ≠ .start) :
    firstRefused d es (.start :: .byte err txd :: ps) = none := by
  rw [firstRefused, firstRefused, hd _ sends_start.acks, if_neg Bool.false_ne_true]
  exact firstRefused_bytes hd (sends_start.byte fun _ => hv) bits_byteEvents hps

theorem regParts_bytes {iRegAddr : UInt16} : ∀ p ∈ regParts cfg iRegAddr, p ≠ .start := by
  unfold regParts
  split
  · exact fun p hp => absurd hp List.not_mem_nil
  · split <;> simp

theorem firstRefused_write {iDevAddr : UInt8} {iRegAddr : UInt16} {pWrite : List UInt8} (hd : d.Acks) :
    firstRefused d es (writeParts cfg iDevAddr iRegAddr pWrite) = none := by
  refine firstRefused_address hd addressByte_low fun p hp => ?_
  rcases List.mem_append.1 hp with hp | hp
  · exact regParts_bytes p hp
  · obtain ⟨v, -, rfl⟩ := List.mem_map.1 hp
    exact Part.noConfusion

theorem firstRefused_read {iDevAddr : UInt8} {iRegAddr : UInt16} (hd : d.Acks) :
    firstRefused d es (readParts cfg iDevAddr iRegAddr) = none := by
  have hlast : ∀ es, firstRefused d es [.start, .byte .rdevAckErr (addressByte cfg iDevAddr true)] = none :=
    fun es => by rw [firstRefused, firstRefused, hd _ sends_start.acks, if_neg Bool.false_ne_true, firstRefused]
  rw [readParts, firstRefused_append, hlast, Option.or_none]
  split
  · rfl
  · exact firstRefused_address hd addressByte_low regParts_bytes

/-! ### Transfers -/

theorem readParts_start {iDevAddr : UInt8} {iRegAddr : UInt16} :
    ∃ ps, readParts cfg iDevAddr iRegAddr = .start :: ps := by
  unfold readParts
  split
  · exact ⟨_, rfl⟩
  · exact ⟨_, rfl⟩

theorem Idle.runParts (cfg : I2cmCfg) (h : Idle b)
    (hn : firstRefused d (decode b.trace).events (.start :: ps) = none) :
    ∃ b', b.runParts cfg d (.start :: ps) = .ok b' ∧
      At b' ((decode b.trace).events ++ (Part.start :: ps).flatMap Part.events) := by
  rw [List.flatMap_cons, ← List.append_assoc]
  exact h.start.runParts cfg hn

theorem i2cmWrite_ok {iDevAddr : UInt8} {iRegAddr : UInt16} {pWrite : List UInt8} (h : Idle b)
    (hn : firstRefused d (decode b.trace).events (writeParts cfg iDevAddr iRegAddr pWrite) = none) :
    (b.i2cmWrite cfg d iDevAddr iRegAddr pWrite).1 = .eok ∧ Idle (b.i2cmWrite cfg d iDevAddr iRegAddr pWrite).2 ∧
    (decode (b.i2cmWrite cfg d iDevAddr iRegAddr pWrite).2.trace).events = (decode b.trace).events ++
      ((writeParts cfg iDevAddr iRegAddr pWrite).flatMap Part.events ++ [.stop]) := by
  obtain ⟨b', hb', hat⟩ := h.runParts cfg hn
  obtain ⟨hidle, hev⟩ := hat.stop (d := d)
  rw [i2cmWrite_eq, writeParts, hb', ← List.append_assoc]
  exact ⟨rfl, hidle, hev⟩

theorem i2cmRead_ok {iDevAddr : UInt8} {iRegAddr : UInt16} (hn : 0 < n) (h : Idle b)
    (hr : firstRefused d (decode b.trace).events (readParts cfg iDevAddr iRegAddr) = none) :
    (b.i2cmRead cfg d iDevAddr iRegAddr n).1 = .eok ∧ Idle (b.i2cmRead cfg d iDevAddr iRegAddr n).2.2 ∧
    ∃ es, es = (decode b.trace).events ++ (readParts cfg iDevAddr iRegAddr).flatMap Part.events ∧
      (b.i2cmRead cfg d iDevAddr iRegAddr n).2.1 = d.bytes n es ∧
      (decode (b.i2cmRead cfg d iDevAddr iRegAddr n).2.2.trace).events =
        es ++ (readEvents d (n - 1) es ++ [.stop]) := by
  obtain ⟨n, rfl⟩ := Nat.exists_eq_succ_of_ne_zero (Nat.ne_of_gt hn)
  obtain ⟨ps, hps⟩ : ∃ ps, readParts cfg iDevAddr iRegAddr = .start :: ps := readParts_start
  rw [hps] at hr ⊢
  obtain ⟨b', hb', hat⟩ := h.runParts cfg hr
  obtain ⟨hdata, hat'⟩ := hat.readData (d := d) (n := n)
  obtain ⟨hidle, hev⟩ := hat'.stop (d := d)
  rw [List.append_assoc] at hev
  rw [i2cmRead_eq, hps, hb']
  exact ⟨rfl, hidle, _, rfl, hdata, hev⟩

/-- The transaction of a write. -/
def writeTokens (cfg : I2cmCfg) (iDevAddr : UInt8) (iRegAddr : UInt16) (l : List UInt8) : List Token :=
  .start :: (addressByte cfg iDevAddr false :: (regBytes cfg iRegAddr ++ l)).map (fun v => .byte v true) ++ [.stop]

/-- The first part of a read, which sends the register address. -/
def readHead (cfg : I2cmCfg) (iDevAddr : UInt8) (iRegAddr : UInt16) : List Token :=
  if cfg.regAddrBits = 0 then []
  else .start :: (addressByte cfg iDevAddr false :: regBytes cfg iRegAddr).map fun v => .byte v true

/-- The transaction of a read, up to the acknowledged address of the read and as a whole. -/
def readStart (cfg : I2cmCfg) (iDevAddr : UInt8) (iRegAddr : UInt16) : List Token :=
  readHead cfg iDevAddr iRegAddr ++ [.start, .byte (addressByte cfg iDevAddr true) true]

theorem regParts_tokens {iRegAddr : UInt16} :
    (regParts cfg iRegAddr).map Part.token = (regBytes cfg iRegAddr).map fun v => .byte v true := by
  unfold regParts regBytes
  split
  · rfl
  · split <;> rfl

theorem writeParts_tokens {iDevAddr : UInt8} {iRegAddr : UInt16} {l : List UInt8} :
    (writeParts cfg iDevAddr iRegAddr l).map Part.token ++ [.stop] = writeTokens cfg iDevAddr iRegAddr l := by
  rw [writeParts, writeTokens, List.map_cons, List.map_cons, List.map_append, regParts_tokens, List.map_map,
    List.map_cons, List.map_append]; rfl

theorem readParts_tokens {iDevAddr : UInt8} {iRegAddr : UInt16} :
    (readParts cfg iDevAddr iRegAddr).map Part.token = readStart cfg iDevAddr iRegAddr := by
  rw [readParts, readStart, readHead, List.map_append]
  split
  · rfl
  · rw [List.map_cons, List.map_cons, regParts_tokens]; rfl

theorem write_decode {iDevAddr : UInt8} {iRegAddr : UInt16} {pWrite : List UInt8} (hd : d.Acks) (h : Idle b) :
    (b.i2cmWrite cfg d iDevAddr iRegAddr pWrite).1 = .eok ∧ Idle (b.i2cmWrite cfg d iDevAddr iRegAddr pWrite).2 ∧
    ∃ es, (decode (b.i2cmWrite cfg d iDevAddr iRegAddr pWrite).2.trace).events = (decode b.trace).events ++ es ∧
      tokens [] es = writeTokens cfg iDevAddr iRegAddr pWrite := by
  obtain ⟨hok, hidle, hev⟩ := i2cmWrite_ok h (firstRefused_write hd)
  refine ⟨hok, hidle, _, hev, ?_⟩
  rw [tokens_parts, tokens_stop, ← writeParts_tokens]; rfl

theorem read_decode {iDevAddr : UInt8} {iRegAddr : UInt16} (hn : 0 < n) (hd : d.Acks) (h : Idle b) :
    (b.i2cmRead cfg d iDevAddr iRegAddr n).1 = .eok ∧ Idle (b.i2cmRead cfg d iDevAddr iRegAddr n).2.2 ∧
    ∃ es es', (decode (b.i2cmRead cfg d iDevAddr iRegAddr n).2.2.trace).events =
        (decode b.trace).events ++ es ++ es' ∧
      tokens [] es = readStart cfg iDevAddr iRegAddr ∧
      (b.i2cmRead cfg d iDevAddr iRegAddr n).2.1 = d.bytes n ((decode b.trace).events ++ es) ∧
      tokens [] (es ++ es') = readStart cfg iDevAddr iRegAddr ++
        readTokens (b.i2cmRead cfg d iDevAddr iRegAddr n).2.1 ++ [.stop] := by
  obtain ⟨hok, hidle, es, rfl, hdata, hev⟩ := i2cmRead_ok hn h (firstRefused_read hd)
  have hone : n - 1 + 1 = n := Nat.sub_add_cancel hn
  refine ⟨hok, hidle, _, _, hev, ?_, hdata, ?_⟩
  · rw [← readParts_tokens, ← List.append_nil ((readParts cfg iDevAddr iRegAddr).flatMap Part.events), tokens_parts,
      tokens, if_pos rfl, List.append_nil]
  · rw [tokens_parts, readParts_tokens, tokens_readEvents, tokens_stop, hone, hdata,
      List.append_assoc]; rfl

/-- A slave that acknowledges every byte and otherwise releases SDA. -/
def ackingSlave : Slave := ⟨fun es => !(slot es).acks, fun _ => true⟩

/-- The bus as `I2CM_Init` leaves it. -/
def idleBus : Bus := ⟨true, true, true, []⟩

/-- Both transfers, from the idle bus with a slave that acknowledges every byte: the trace decodes to the
transaction, and a read gives the bytes of the slave. -/
theorem transfers_decode {iDevAddr : UInt8} {iRegAddr : UInt16} {pWrite : List UInt8} (hn : 0 < n) (hd : d.Acks)
    (h : Idle b) :
    ((b.i2cmWrite cfg d iDevAddr iRegAddr pWrite).1 = .eok ∧ Idle (b.i2cmWrite cfg d iDevAddr iRegAddr pWrite).2 ∧
      ∃ es, (decode (b.i2cmWrite cfg d iDevAddr iRegAddr pWrite).2.trace).events = (decode b.trace).events ++ es ∧
        tokens [] es = writeTokens cfg iDevAddr iRegAddr pWrite) ∧
    (b.i2cmRead cfg d iDevAddr iRegAddr n).1 = .eok ∧ Idle (b.i2cmRead cfg d iDevAddr iRegAddr n).2.2 ∧
      ∃ es es', (decode (b.i2cmRead cfg d iDevAddr iRegAddr n).2.2.trace).events =
          (decode b.trace).events ++ es ++ es' ∧
        tokens [] es = readStart cfg iDevAddr iRegAddr ∧
        (b.i2cmRead cfg d iDevAddr iRegAddr n).2.1 = d.bytes n ((decode b.trace).events ++ es) ∧
        tokens [] (es ++ es') = readStart cfg iDevAddr iRegAddr ++
          readTokens (b.i2cmRead cfg d iDevAddr iRegAddr n).2.1 ++ [.stop] :=
  ⟨write_decode hd h, read_decode hn hd h⟩

/-- A byte to the cell 0x12 of an EEPROM, and a byte from it. -/
theorem transfers_decode_eeprom :
    (idleBus.i2cmWrite ⟨8, 16, true⟩ ackingSlave 0xA0 0x12 [7]).1 = .eok ∧
    (∃ es, (decode (idleBus.i2cmWrite ⟨8, 16, true⟩ ackingSlave 0xA0 0x12 [7]).2.trace).events = [] ++ es ∧
      tokens [] es = [.start, .byte 0xA0 true, .byte 0 true, .byte 0x12 true, .byte 7 true, .stop]) ∧
    ∃ es es', (decode (idleBus.i2cmRead ⟨8, 16, true⟩ ackingSlave 0xA0 0x12 1).2.2.trace).events = [] ++ es ++ es' ∧
      tokens [] es = [.start, .byte 0xA0 true, .byte 0 true, .byte 0x12 true, .start, .byte 0xA1 true] := by
  obtain ⟨⟨h1, -, hw⟩, -, -, es, es', h2, h3, -⟩ :=
    @transfers_decode ⟨8, 16, true⟩ ackingSlave idleBus 1 0xA0 0x12 [7] (by decide)
      (fun es hes => show (!(slot es).acks) = false by rw [hes]; rfl) ⟨rfl, rfl, rfl, rfl⟩
  exact ⟨h1, hw, es, es', h2, h3⟩

end Bootloader.Bus
