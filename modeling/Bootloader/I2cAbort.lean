import Bootloader.I2cTransfer

/-!
# Transfers that the slave refuses

`I2CM_Wait_Ack` gives up with SCL high and SDA released, and calls `I2CM_Stop`, which makes SDA an output before it
pulls SCL down. SDA then shows the last bit that `I2CM_SendByte` has put out: a low bit is an edge under a high
clock, a START to every slave on the bus.
-/

namespace Bootloader.Bus
open TwoWire

variable {cfg : I2cmCfg} {d : Slave} {b : Bus} {es : List Event} {n : Nat} {txd : UInt8} {ps : List Part}
  {r : Refusal}

/-- What the bus shows from the missing acknowledge on, with the last bit of the refused byte. -/
def abortEvents (last : Bool) : List Event := if last then [.bit true, .stop] else [.start, .stop]

/-! ### The last bit of a byte -/

theorem sendBits_odr : (b.sendBits d n txd).odr = (bitsFrom n txd).getLastD b.odr := by
  induction n generalizing b txd with
  | zero => rfl
  | succ n ih =>
    rw [Bus.sendBits, ih, bitsFrom, List.getLastD_cons]
    congr 1
    split
    · next h => exact h.symm
    · next h => exact (Bool.not_eq_true _ ▸ h).symm

theorem sendByte_odr : (b.sendByte d txd).odr = (txd &&& 1 != 0) := by
  rw [Bus.sendByte, sendBits_odr]
  exact forall_byte (P := fun v => ∀ o, (bitsFrom 8 v).getLastD o = (v &&& 1 != 0)) (by decide +kernel) txd _

/-! ### The abort -/

/-- `I2CM_Stop` behind a released SDA and a high SCL. -/
theorem High.stop (h : High b es true) :
    Idle (b.stop d) ∧ (decode (b.stop d).trace).events = es ++ abortEvents b.odr := by
  have hat : At ((b.sdaOut d).scl0 d) (es ++ if b.odr then [.bit true] else [.start]) := by
    have hsda : ({ b with out := true } : Bus).sda d = b.odr := if_pos rfl
    cases ho : b.odr with
    | true =>
      have hstep : decode (b.sdaOut d).trace = decode b.trace := by
        rw [Bus.sdaOut, Bus.emit, decode_cons, hsda, ho, h.scl, Monitor.step_of_high h.level]
      exact High.scl0 (b := b.sdaOut d) ⟨h.scl, hstep ▸ h.level, hstep ▸ h.steady, hstep ▸ h.events⟩
    | false =>
      have hstep : decode (b.sdaOut d).trace = ⟨⟨true, false⟩, false, es ++ [.start]⟩ := by
        rw [Bus.sdaOut, Bus.emit, decode_cons, hsda, ho, Monitor.step, h.level, h.scl, h.events]; rfl
      have hstep' : decode ((b.sdaOut d).scl0 d).trace =
          ⟨⟨false, ({ b.sdaOut d with scl := false } : Bus).sda d⟩, false, es ++ [.start]⟩ := by
        rw [Bus.scl0, Bus.emit, decode_cons, hstep, Monitor.step]; rfl
      exact ⟨rfl, by rw [hstep'], by rw [hstep']; rfl⟩
  obtain ⟨hidle, hev⟩ := hat.stopTail (d := d) rfl
  refine ⟨hidle, hev.trans ?_⟩
  rw [List.append_assoc, abortEvents]
  cases b.odr <;> rfl

theorem ackMissing_of_high (h : b.sda d = true) : b.ackMissing d n = true := by
  induction n with
  | zero => rfl
  | succ n ih => rw [ackMissing, h, if_pos rfl, ih]

theorem At.waitAck_refused (hc : cfg.ackFlag = true) (h : At b es) (ha : d.high es = true) :
    (b.waitAck cfg d).1 = .ackError ∧ Idle (b.waitAck cfg d).2 ∧
      (decode (b.waitAck cfg d).2.trace).events = es ++ abortEvents b.odr := by
  have hr := h.sdaIn (d := d) |>.scl1 (d := d)
  have hv : (if (b.sdaIn d).out then (b.sdaIn d).odr else d.high es) = true := ha
  rw [hv] at hr
  have hsda : ((b.sdaIn d).scl1 d).sda d = true := by
    rw [sda, if_neg (by rintro ⟨⟩), if_pos hr.scl, hr.events, ha]
  have heq : b.waitAck cfg d = (.ackError, ((b.sdaIn d).scl1 d).stop d) := by
    rw [Bus.waitAck, hc, ackMissing_of_high hsda]; rfl
  rw [heq]
  exact ⟨rfl, hr.stop⟩

theorem At.sendAck_refused (err : I2cmError) (hc : cfg.ackFlag = true) (h : At b es)
    (ha : d.high (es ++ (byteBits txd).map .bit) = true) :
    ∃ b', b.sendAck cfg d err txd = .error (err, b') ∧ Idle b' ∧
      (decode b'.trace).events = es ++ (byteBits txd).map .bit ++ abortEvents (txd &&& 1 != 0) := by
  have hbyte : At (b.sendByte d txd) (es ++ (byteBits txd).map .bit) := h.sendByte
  obtain ⟨he, hidle, hev⟩ := hbyte.waitAck_refused hc ha
  rw [sendByte_odr] at hev
  refine ⟨_, ?_, hidle, hev⟩
  rw [Bus.sendAck]
  generalize (b.sendByte d txd).waitAck cfg d = w at he
  obtain ⟨e, b'⟩ := w
  dsimp only at he
  subst he; rfl

theorem At.runParts_refused (hc : cfg.ackFlag = true) (h : At b es) (hr : firstRefused d es ps = some r) :
    ∃ b', b.runParts cfg d ps = .error (r.err, b') ∧ Idle b' ∧
      (decode b'.trace).events = r.events ++ abortEvents (r.byte &&& 1 != 0) := by
  induction ps generalizing b es with
  | nil => cases hr
  | cons p ps ih =>
    cases p with
    | start => exact ih h.start hr
    | byte err v =>
      rw [firstRefused] at hr
      rw [Bus.runParts]
      split at hr
      · next ha =>
        cases hr
        obtain ⟨b', hb', hat⟩ := h.sendAck_refused err hc ha
        exact ⟨b', by rw [hb']; rfl, hat⟩
      · next ha =>
        obtain ⟨b₁, hb₁, hat⟩ := h.sendAck cfg err (Bool.not_eq_true _ ▸ ha)
        rw [hb₁]
        exact ih hat hr

/-! ### Transfers -/

section
variable {iDevAddr : UInt8} {iRegAddr : UInt16} {pWrite : List UInt8}

theorem i2cmWrite_refused (hc : cfg.ackFlag = true) (h : Idle b)
    (hr : firstRefused d (decode b.trace).events (writeParts cfg iDevAddr iRegAddr pWrite) = some r) :
    (b.i2cmWrite cfg d iDevAddr iRegAddr pWrite).1 = r.err ∧ Idle (b.i2cmWrite cfg d iDevAddr iRegAddr pWrite).2 ∧
    (decode (b.i2cmWrite cfg d iDevAddr iRegAddr pWrite).2.trace).events =
      r.events ++ abortEvents (r.byte &&& 1 != 0) := by
  obtain ⟨b', hb', hidle, hev⟩ := h.start.runParts_refused hc hr
  rw [i2cmWrite_eq, writeParts, runParts, hb']
  exact ⟨rfl, hidle, hev⟩

theorem i2cmRead_refused (hc : cfg.ackFlag = true) (h : Idle b)
    (hr : firstRefused d (decode b.trace).events (readParts cfg iDevAddr iRegAddr) = some r) :
    (b.i2cmRead cfg d iDevAddr iRegAddr n).1 = r.err ∧ Idle (b.i2cmRead cfg d iDevAddr iRegAddr n).2.2 ∧
    (decode (b.i2cmRead cfg d iDevAddr iRegAddr n).2.2.trace).events =
      r.events ++ abortEvents (r.byte &&& 1 != 0) := by
  obtain ⟨ps, hps⟩ : ∃ ps, readParts cfg iDevAddr iRegAddr = .start :: ps := readParts_start
  rw [hps] at hr
  obtain ⟨b', hb', hidle, hev⟩ := h.start.runParts_refused hc hr
  rw [i2cmRead_eq, hps, runParts, hb']
  exact ⟨rfl, hidle, hev⟩

end

/-! ### Clean aborts -/

/-- The transfer has returned the error of the refused byte; what the bus shows from there on has no START and ends
with its only STOP, and both lines are high. -/
structure CleanAbort (r : Refusal) (err : I2cmError) (b' : Bus) : Prop where
  err : err = r.err
  events : ∃ es, (decode b'.trace).events = r.events ++ es ∧ .start ∉ es ∧ es.count .stop = 1 ∧
    es.getLast? = some .stop
  level : (decode b'.trace).level = ⟨true, true⟩

theorem cleanAbort_iff_odd {err : I2cmError} {b' : Bus} (he : err = r.err) (hb : Idle b')
    (hev : (decode b'.trace).events = r.events ++ abortEvents (r.byte &&& 1 != 0)) :
    CleanAbort r err b' ↔ r.byte &&& 1 ≠ 0 := by
  constructor
  · rintro ⟨-, ⟨es, hes, hstart, -, -⟩, -⟩ heven
    rw [← List.append_cancel_left (hev.symm.trans hes), heven] at hstart
    exact hstart List.mem_cons_self
  · intro hodd
    rw [bne_iff_ne.2 hodd] at hev
    exact ⟨he, ⟨_, hev, by decide, by decide, by decide⟩, hb.level⟩

/-- Without the wait for acknowledges no byte is refused. -/
theorem sendAck_of_noWait (err : I2cmError) (txd : UInt8) (b : Bus) (hc : cfg.ackFlag = false) :
    ∃ b', b.sendAck cfg d err txd = .ok b' := by
  rw [Bus.sendAck, Bus.waitAck, hc]
  exact ⟨_, rfl⟩

theorem runParts_of_noWait (ps : List Part) (b : Bus) (hc : cfg.ackFlag = false) :
    ∃ b', b.runParts cfg d ps = .ok b' := by
  induction ps generalizing b with
  | nil => exact ⟨b, rfl⟩
  | cons p ps ih =>
    cases p with
    | start => exact ih _
    | byte err v =>
      obtain ⟨b₁, hb₁⟩ := sendAck_of_noWait (d := d) err v b hc
      rw [runParts, hb₁]
      exact ih _

theorem firstRefused_mem (hr : firstRefused d es ps = some r) : .byte r.err r.byte ∈ ps := by
  induction ps generalizing es with
  | nil => cases hr
  | cons p ps ih =>
    cases p with
    | start => exact List.mem_cons_of_mem _ (ih hr)
    | byte err v =>
      rw [firstRefused] at hr
      split at hr
      · cases hr
        exact List.mem_cons_self
      · exact List.mem_cons_of_mem _ (ih hr)

section
variable {iDevAddr : UInt8} {iRegAddr : UInt16} {pWrite : List UInt8} {err : I2cmError} {v : UInt8}

theorem regParts_err (h : .byte err v ∈ regParts cfg iRegAddr) : err ≠ .eok := by
  unfold regParts at h
  rintro rfl
  split at h
  · cases h
  · split at h <;> simp at h

theorem writeParts_err (h : .byte err v ∈ writeParts cfg iDevAddr iRegAddr pWrite) : err ≠ .eok := by
  rcases List.mem_cons.1 ((List.mem_cons.1 h).resolve_left Part.noConfusion) with h | h
  · cases h
    exact I2cmError.noConfusion
  · rcases List.mem_append.1 h with h | h
    · exact regParts_err h
    · obtain ⟨w, -, hw⟩ := List.mem_map.1 h
      cases hw
      exact I2cmError.noConfusion

theorem readParts_err (h : .byte err v ∈ readParts cfg iDevAddr iRegAddr) : err ≠ .eok := by
  rcases List.mem_append.1 h with h | h
  · split at h
    · cases h
    · rcases List.mem_cons.1 ((List.mem_cons.1 h).resolve_left Part.noConfusion) with h | h
      · cases h
        exact I2cmError.noConfusion
      · exact regParts_err h
  · cases List.mem_singleton.1 ((List.mem_cons.1 h).resolve_left Part.noConfusion)
    exact I2cmError.noConfusion

theorem write_cleanAbort_iff (h : Idle b)
    (hr : firstRefused d (decode b.trace).events (writeParts cfg iDevAddr iRegAddr pWrite) = some r) :
    CleanAbort r (b.i2cmWrite cfg d iDevAddr iRegAddr pWrite).1 (b.i2cmWrite cfg d iDevAddr iRegAddr pWrite).2 ↔
      cfg.ackFlag = true ∧ r.byte &&& 1 ≠ 0 := by
  cases hc : cfg.ackFlag with
  | false =>
    obtain ⟨b', hb'⟩ := runParts_of_noWait (d := d) (writeParts cfg iDevAddr iRegAddr pWrite) b hc
    refine iff_of_false (fun hclean => writeParts_err (firstRefused_mem hr) ?_) fun h => nomatch h.1
    rw [← hclean.err, i2cmWrite_eq, hb']
  | true =>
    obtain ⟨he, hidle, hev⟩ := i2cmWrite_refused hc h hr
    rw [cleanAbort_iff_odd he hidle hev, and_iff_right rfl]

theorem read_cleanAbort_iff (h : Idle b)
    (hr : firstRefused d (decode b.trace).events (readParts cfg iDevAddr iRegAddr) = some r) :
    CleanAbort r (b.i2cmRead cfg d iDevAddr iRegAddr n).1 (b.i2cmRead cfg d iDevAddr iRegAddr n).2.2 ↔
      cfg.ackFlag = true ∧ r.byte &&& 1 ≠ 0 := by
  cases hc : cfg.ackFlag with
  | false =>
    obtain ⟨b', hb'⟩ := runParts_of_noWait (d := d) (readParts cfg iDevAddr iRegAddr) b hc
    refine iff_of_false (fun hclean => readParts_err (firstRefused_mem hr) ?_) fun h => nomatch h.1
    rw [← hclean.err, i2cmRead_eq, hb']
  | true =>
    obtain ⟨he, hidle, hev⟩ := i2cmRead_refused (n := n) hc h hr
    rw [cleanAbort_iff_odd he hidle hev, and_iff_right rfl]

end

/-- Every refusal of either transfer: the abort is clean if and only if the master waits for acknowledges and the
low bit of the refused byte is set. -/
theorem cleanAbort_iff {iDevAddr : UInt8} {iRegAddr : UInt16} {pWrite : List UInt8} (h : Idle b) :
    (∀ r, firstRefused d (decode b.trace).events (writeParts cfg iDevAddr iRegAddr pWrite) = some r →
      (CleanAbort r (b.i2cmWrite cfg d iDevAddr iRegAddr pWrite).1 (b.i2cmWrite cfg d iDevAddr iRegAddr pWrite).2 ↔
        cfg.ackFlag = true ∧ r.byte &&& 1 ≠ 0)) ∧
    ∀ r, firstRefused d (decode b.trace).events (readParts cfg iDevAddr iRegAddr) = some r →
      (CleanAbort r (b.i2cmRead cfg d iDevAddr iRegAddr n).1 (b.i2cmRead cfg d iDevAddr iRegAddr n).2.2 ↔
        cfg.ackFlag = true ∧ r.byte &&& 1 ≠ 0) :=
  ⟨fun _ hr => write_cleanAbort_iff h hr, fun _ hr => read_cleanAbort_iff h hr⟩

/-- A slave that refuses byte `k` behind a START and acknowledges the others. -/
def refusingSlave (k : Nat) : Slave := ⟨fun es => !(slot es).acks || (slot es).bits == 9 * k + 8, fun _ => true⟩

/-- The low byte of the register address 0x13 is refused. -/
theorem cleanAbort_iff_low : ∃ es,
    CleanAbort ⟨.reglAckErr, 0x13, es⟩ (idleBus.i2cmWrite ⟨8, 16, true⟩ (refusingSlave 2) 0xA0 0x13 [7]).1
      (idleBus.i2cmWrite ⟨8, 16, true⟩ (refusingSlave 2) 0xA0 0x13 [7]).2 ∧
    CleanAbort ⟨.reglAckErr, 0x13, es⟩ (idleBus.i2cmRead ⟨8, 16, true⟩ (refusingSlave 2) 0xA0 0x13 1).1
      (idleBus.i2cmRead ⟨8, 16, true⟩ (refusingSlave 2) 0xA0 0x13 1).2.2 := by
  have h := @cleanAbort_iff ⟨8, 16, true⟩ (refusingSlave 2) idleBus 1 0xA0 0x13 [7] ⟨rfl, rfl, rfl, rfl⟩
  exact ⟨_, (h.1 _ rfl).2 ⟨rfl, by decide⟩, (h.2 _ rfl).2 ⟨rfl, by decide⟩⟩

/-- The address byte of a write is refused, as by an EEPROM in a write cycle: its low bit is the direction of a
write. -/
theorem not_cleanAbort_of_address : ∃ r,
    firstRefused (refusingSlave 0) (decode idleBus.trace).events (writeParts ⟨8, 16, true⟩ 0xA0 0x13 [7]) = some r ∧
    ¬ CleanAbort r (idleBus.i2cmWrite ⟨8, 16, true⟩ (refusingSlave 0) 0xA0 0x13 [7]).1
      (idleBus.i2cmWrite ⟨8, 16, true⟩ (refusingSlave 0) 0xA0 0x13 [7]).2 := by
  obtain ⟨r, hr⟩ : ∃ r, firstRefused (refusingSlave 0) [] (writeParts ⟨8, 16, true⟩ 0xA0 0x13 [7]) = some r := ⟨_, rfl⟩
  obtain ⟨he, hidle, hev⟩ := i2cmWrite_refused (b := idleBus) rfl ⟨rfl, rfl, rfl, rfl⟩ hr
  have heven : r.byte &&& 1 = 0 := by cases hr; decide
  exact ⟨r, hr, fun hclean => (cleanAbort_iff_odd he hidle hev).1 hclean heven⟩

end Bootloader.Bus
