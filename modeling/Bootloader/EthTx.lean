import Bootloader.Lib.Transition
import Bootloader.Lib.Memory

/-!
# The transmit descriptors of the Ethernet driver

`bsp_88e6060.c`: `s88e6060_tx`, called by one thread, `ETH_IRQHandler` and the DMA engine over the two transmit
descriptors. The thread does not run while the handler does; the engine runs at any time. It takes the
descriptors in ring order, clears OWN behind a frame and raises the transmit interrupt later.
-/

namespace Bootloader

/-- What is used of a descriptor and its buffer. -/
structure EthDesc where
  own : Bool
  size : Nat
  buffer : Mem

/-- Where `s88e6060_tx` stands, with the frame as the payloads of its pbufs. -/
inductive TxPc
  | idle
  /-- Before the test of OWN. -/
  | test (p : List (List UInt8))
  /-- Before `tx_is_waiting = RT_TRUE`. -/
  | wait (p : List (List UInt8))
  /-- Before `rt_sem_take`. -/
  | take (p : List (List UInt8))
  /-- Suspended in `rt_sem_take`. -/
  | blocked (p : List (List UInt8))
  /-- In the loop that copies, with the pbufs that are left. -/
  | copy (q : List (List UInt8)) (offset : Nat)
  /-- Before OWN is set. -/
  | own
  /-- Before the test of TBUS. -/
  | poll
  /-- Before `DMATxDescToSet` is advanced. -/
  | next
deriving DecidableEq, Repr

/-- Where `ETH_IRQHandler` stands, with ETH_DMA_IT_T as it has read it. -/
inductive IsrPc
  | out
  /-- Before the test of `tx_is_waiting`. -/
  | wake (t : Bool)
  /-- Before `ETH_DMAClearITPendingBit`. -/
  | clear (t : Bool)
deriving DecidableEq, Repr

/-- The driver and the engine. `txWait` is the value of the semaphore; `dmaDesc` is the descriptor the engine
looks at next, `tbus` that it has found one that it does not own and is suspended, `raises` the number of frames
whose interrupt is still to come, `dmasrT` the pending interrupt, `sent` what the engine has read from the buffers. -/
structure EthTx where
  desc : Fin 2 → EthDesc
  descToSet : Fin 2
  pc : TxPc
  txIsWaiting : Bool
  txWait : Nat
  isr : IsrPc
  dmaDesc : Fin 2
  tbus : Bool
  raises : Nat
  dmasrT : Bool
  sent : List (List UInt8)

inductive EthTxAct
  /-- `s88e6060_tx` is called. -/
  | call (p : List (List UInt8))
  /-- The next step of `s88e6060_tx`. -/
  | tx
  /-- `ETH_IRQHandler` is entered, for whatever interrupt, and reads the status. -/
  | enter
  /-- The next step of `ETH_IRQHandler`. -/
  | isr
  /-- The engine has sent a frame. -/
  | complete
  /-- The engine finds a descriptor that it does not own. -/
  | suspend
  /-- The engine raises the interrupt of a frame. -/
  | raise
deriving DecidableEq, Repr

namespace TxPc

def waiting : TxPc → Bool
  | .wait _ => true
  | _ => false

def taking : TxPc → Bool
  | .take _ => true
  | _ => false

def isBlocked : TxPc → Bool
  | .blocked _ => true
  | _ => false

def copying : TxPc → Bool
  | .copy _ _ => true
  | _ => false

end TxPc

namespace EthTx

def setDesc (i : Fin 2) (d : EthDesc) (s : EthTx) : EthTx := { s with desc := Function.update s.desc i d }

/-- The checksum of an ICMP frame, which the hardware inserts, is cleared. -/
def clearIcmp (b : Mem) : Mem :=
  if b 12 = 0x08 ∧ b 13 = 0x00 ∧ b (14 + 9) = 1 then b.write (14 + 20 + 2) [0, 0] else b

/-- `s88e6060_tx`. Whoever gets the semaphore goes on to copy and does not test OWN again. -/
def s88e6060Tx (s : EthTx) : Option EthTx :=
  let d := s.desc s.descToSet
  match s.pc with
  | .idle => none
  | .test p => some { s with pc := if d.own then .wait p else .copy p 0 }
  | .wait p => some { s with txIsWaiting := true, pc := .take p }
  | .take p =>
    if 0 < s.txWait then some { s with txWait := s.txWait - 1, pc := .copy p 0 }
    else some { s with pc := .blocked p }
  | .blocked _ => none
  | .copy (q :: qs) offset =>
    some { s.setDesc s.descToSet { d with buffer := d.buffer.write offset q } with pc := .copy qs (offset + q.length) }
  | .copy [] offset =>
    -- the offset is the length of the frame
    some { s.setDesc s.descToSet { d with buffer := clearIcmp d.buffer, size := offset % 2 ^ 13 } with pc := .own }
  | .own => some { s.setDesc s.descToSet { d with own := true } with pc := .poll }
  | .poll => some { s with tbus := false, pc := .next }
  | .next => some { s with descToSet := s.descToSet + 1, pc := .idle }

/-- `rt_sem_release(&tx_wait)`: the thread suspended on the semaphore gets it at once. -/
def semRelease (s : EthTx) : EthTx :=
  match s.pc with
  | .blocked p => { s with pc := .copy p 0 }
  | _ => { s with txWait := (s.txWait + 1) % 2 ^ 16 }

def ethIrqHandler (s : EthTx) : Option EthTx :=
  match s.isr with
  | .out => none
  | .wake t =>
    let s := { s with isr := .clear t }
    if t && s.txIsWaiting then some { s with txIsWaiting := false }.semRelease else some s
  | .clear t => some { s with dmasrT := s.dmasrT && !t, isr := .out }

def step : EthTxAct → EthTx → Option EthTx
  | .call p, s => if s.isr = .out ∧ s.pc = .idle then some { s with pc := .test p } else none
  | .tx, s => if s.isr = .out then s.s88e6060Tx else none
  | .enter, s => if s.isr = .out then some { s with isr := .wake s.dmasrT } else none
  | .isr, s => s.ethIrqHandler
  | .complete, s =>
    let d := s.desc s.dmaDesc
    if !s.tbus && d.own then
      some { s.setDesc s.dmaDesc { d with own := false } with
        dmaDesc := s.dmaDesc + 1
        raises := s.raises + 1
        sent := s.sent ++ [d.buffer.read 0 d.size] }
    else none
  | .suspend, s => if !s.tbus && !(s.desc s.dmaDesc).own then some { s with tbus := true } else none
  | .raise, s => if 0 < s.raises then some { s with raises := s.raises - 1, dmasrT := true } else none

/-- Behind `s88e6060_init` and `ETH_DMATxDescChainInit`. -/
def start (size : Fin 2 → Nat) (buffer : Fin 2 → Mem) : EthTx :=
  ⟨fun i => ⟨false, size i, buffer i⟩, 0, .idle, false, 0, .out, 0, false, 0, false, []⟩

def system : Lts EthTx EthTxAct where
  init s := ∃ size buffer, s = start size buffer
  step := step

/-! ### What should hold -/

/-- The transmit interrupt is pending or will be raised. -/
def Coming (s : EthTx) : Prop := (∃ i, (s.desc i).own = true) ∨ 0 < s.raises ∨ s.dmasrT = true

instance : DecidablePred Coming := fun s =>
  inferInstanceAs (Decidable ((∃ i, (s.desc i).own = true) ∨ 0 < s.raises ∨ s.dmasrT = true))

/-- Blocked for ever: nothing will wake the thread, although every descriptor is free. -/
def Stalled (s : EthTx) : Prop :=
  s.pc.isBlocked = true ∧ s.txIsWaiting = true ∧ (∀ i, (s.desc i).own = false) ∧ s.raises = 0 ∧ s.dmasrT = false

instance : DecidablePred Stalled := fun s =>
  inferInstanceAs (Decidable (s.pc.isBlocked = true ∧ s.txIsWaiting = true ∧ (∀ i, (s.desc i).own = false) ∧
    s.raises = 0 ∧ s.dmasrT = false))

/-- In no state of the run a frame is copied into a buffer that the engine owns, or the thread stalled. -/
structure HandsOver (h : List (EthTx × EthTxAct)) (s : EthTx) : Prop where
  copies : ∀ t ∈ s :: h.map (·.1), t.pc.copying = true → (t.desc t.descToSet).own = false
  wakes : ∀ t ∈ s :: h.map (·.1), ¬ t.Stalled

/-- The step in which `s88e6060_tx` gets the semaphore. -/
def gets (s : EthTx) : EthTxAct → Bool
  | .tx => s.pc.taking && decide (0 < s.txWait)
  | .isr => decide (s.isr = .wake true) && s.txIsWaiting && s.pc.isBlocked
  | _ => false

/-- The step in which `s88e6060_tx` sets `tx_is_waiting`. -/
def waits (s : EthTx) : EthTxAct → Bool
  | .tx => s.pc.waiting
  | _ => false

/-- No interrupt of an earlier frame alone releases the thread, and none comes between the test of OWN and
`tx_is_waiting = RT_TRUE` as the last one. -/
def Admits (s : EthTx) (a : EthTxAct) : Prop :=
  (s.gets a = true → (s.desc s.descToSet).own = false) ∧ (s.waits a = true → s.Coming)

instance {s : EthTx} {a : EthTxAct} : Decidable (s.Admits a) :=
  inferInstanceAs (Decidable ((s.gets a = true → (s.desc s.descToSet).own = false) ∧ (s.waits a = true → s.Coming)))

/-! ### The invariant -/

structure Inv (s : EthTx) : Prop where
  copying : s.pc.copying = true → (s.desc s.descToSet).own = false
  sem : s.txWait = 0 ∨ s.txWait = 1 ∧ s.pc.taking = true ∧ s.txIsWaiting = false
  waiting : s.txIsWaiting = true → s.pc.taking = true ∨ s.pc.isBlocked = true
  coming : s.txIsWaiting = true → s.Coming
  clear : s.isr = .clear true → s.txIsWaiting = false

variable {s s' : EthTx} {a : EthTxAct} {i j : Fin 2} {d : EthDesc}

theorem inv_start {size : Fin 2 → Nat} {buffer : Fin 2 → Mem} : Inv (start size buffer) :=
  ⟨fun hc => absurd hc Bool.false_ne_true, .inl rfl, fun hw => absurd hw Bool.false_ne_true,
    fun hw => absurd hw Bool.false_ne_true, fun hc => by cases hc⟩

theorem Inv.not_stalled (h : Inv s) : ¬ s.Stalled := by
  rintro ⟨-, hw, hown, hraises, hT⟩
  obtain ⟨i, hi⟩ | hr | ht := h.coming hw
  · exact absurd (hi.symm.trans (hown i)) (by decide)
  · omega
  · exact absurd (ht.symm.trans hT) (by decide)

/-- Nobody waits. -/
theorem Inv.of_not_waiting (hw : s.txIsWaiting = false) (hsem : s.txWait = 0)
    (hc : s.pc.copying = true → (s.desc s.descToSet).own = false) : Inv s :=
  ⟨hc, .inl hsem, fun h => absurd (hw.symm.trans h) (by decide), fun h => absurd (hw.symm.trans h) (by decide),
    fun _ => hw⟩

theorem Inv.txWait_eq (h : Inv s) (ht : s.pc.taking = false) : s.txWait = 0 :=
  h.sem.resolve_right fun hc => absurd (ht.symm.trans hc.2.1) (by decide)

theorem Inv.not_waiting (h : Inv s) (ht : s.pc.taking = false) (hb : s.pc.isBlocked = false) :
    s.txIsWaiting = false := by
  cases hw : s.txIsWaiting with
  | false => rfl
  | true =>
    obtain hc | hc := h.waiting hw
    · exact absurd (ht.symm.trans hc) (by decide)
    · exact absurd (hb.symm.trans hc) (by decide)

theorem own_setDesc (hd : d.own = (s.desc i).own) : ((s.setDesc i d).desc j).own = (s.desc j).own := by
  rw [setDesc]
  dsimp only
  by_cases hj : j = i
  · rw [hj, Function.update_self, hd]
  · rw [Function.update_of_ne hj]

theorem inv_tx (h : Inv s) (ha : s.Admits .tx) (hout : s.isr = .out) (hs : s.s88e6060Tx = some s') : Inv s' := by
  unfold s88e6060Tx at hs
  cases hpc : s.pc with
  | idle => rw [hpc] at hs; cases hs
  | blocked p => rw [hpc] at hs; cases hs
  | test p =>
    rw [hpc] at hs
    cases hs
    refine .of_not_waiting (h.not_waiting ?_ ?_) (h.txWait_eq ?_) fun hc => ?_
    all_goals try rw [hpc]; rfl
    cases hown : (s.desc s.descToSet).own with
    | false => rfl
    | true =>
      rw [hown] at hc
      exact absurd hc Bool.false_ne_true
  | wait p =>
    rw [hpc] at hs
    cases hs
    have hwait : s.waits .tx = true := by rw [waits, hpc]; rfl
    refine ⟨fun hc => absurd hc Bool.false_ne_true, .inl (h.txWait_eq (by rw [hpc]; rfl)), fun _ => .inl rfl,
      fun _ => ha.2 hwait, fun hc => ?_⟩
    rw [show s.isr = .clear true from hc] at hout
    cases hout
  | take p =>
    rw [hpc] at hs
    dsimp only at hs
    split at hs
    · next hpos =>
      cases hs
      obtain hz | ⟨hone, -, hw⟩ := h.sem
      · omega
      have hgets : s.gets .tx = true := by
        rw [gets, hpc, Bool.and_eq_true, decide_eq_true_eq]
        exact ⟨rfl, hpos⟩
      exact .of_not_waiting hw (by show s.txWait - 1 = 0; omega) fun _ => ha.1 hgets
    · next hpos =>
      cases hs
      have hz : s.txWait = 0 := by omega
      exact ⟨fun hc => absurd hc Bool.false_ne_true, .inl hz, fun _ => .inr rfl, h.coming, h.clear⟩
  | copy q offset =>
    have hown := h.copying (by rw [hpc]; rfl)
    have hw := h.not_waiting (by rw [hpc]; rfl) (by rw [hpc]; rfl)
    have hz := h.txWait_eq (by rw [hpc]; rfl)
    rw [hpc] at hs
    cases q with
    | nil =>
      cases hs
      exact .of_not_waiting hw hz fun hc => absurd hc Bool.false_ne_true
    | cons q qs =>
      cases hs
      refine .of_not_waiting hw hz fun _ => ?_
      have hd : ({ s.desc s.descToSet with buffer := (s.desc s.descToSet).buffer.write offset q } : EthDesc).own =
          (s.desc s.descToSet).own := rfl
      exact (own_setDesc hd).trans hown
  | own =>
    have hw := h.not_waiting (by rw [hpc]; rfl) (by rw [hpc]; rfl)
    have hz := h.txWait_eq (by rw [hpc]; rfl)
    rw [hpc] at hs
    cases hs
    exact .of_not_waiting hw hz fun hc => absurd hc Bool.false_ne_true
  | poll =>
    have hw := h.not_waiting (by rw [hpc]; rfl) (by rw [hpc]; rfl)
    have hz := h.txWait_eq (by rw [hpc]; rfl)
    rw [hpc] at hs
    cases hs
    exact .of_not_waiting hw hz fun hc => absurd hc Bool.false_ne_true
  | next =>
    have hw := h.not_waiting (by rw [hpc]; rfl) (by rw [hpc]; rfl)
    have hz := h.txWait_eq (by rw [hpc]; rfl)
    rw [hpc] at hs
    cases hs
    exact .of_not_waiting hw hz fun hc => absurd hc Bool.false_ne_true

theorem inv_call {p : List (List UInt8)} (h : Inv s) (hpc : s.pc = .idle) : Inv { s with pc := .test p } := by
  have hw := h.not_waiting (by rw [hpc]; rfl) (by rw [hpc]; rfl)
  have hz := h.txWait_eq (by rw [hpc]; rfl)
  exact .of_not_waiting hw hz fun hc => absurd hc Bool.false_ne_true

theorem inv_enter (h : Inv s) : Inv { s with isr := .wake s.dmasrT } :=
  ⟨h.copying, h.sem, h.waiting, h.coming, fun hc => by cases hc⟩

theorem inv_isr (h : Inv s) (ha : s.Admits .isr) (hs : s.ethIrqHandler = some s') : Inv s' := by
  unfold ethIrqHandler at hs
  cases hisr : s.isr with
  | out => rw [hisr] at hs; cases hs
  | clear t =>
    rw [hisr] at hs
    cases hs
    cases t with
    | true =>
      have hw := h.clear hisr
      exact ⟨h.copying, h.sem, h.waiting, fun hc => absurd (hw.symm.trans hc) (by decide), fun hc => by cases hc⟩
    | false =>
      refine ⟨h.copying, h.sem, h.waiting, fun hc => ?_, fun hc => by cases hc⟩
      obtain hown | hr | ht := h.coming hc
      · exact .inl hown
      · exact .inr (.inl hr)
      · exact .inr (.inr (by rw [ht]; rfl))
  | wake t =>
    rw [hisr] at hs
    dsimp only at hs
    split at hs
    · next hwake =>
      obtain ⟨rfl, hw⟩ := (Bool.and_eq_true _ _).mp hwake
      cases hs
      have hz : s.txWait = 0 := h.sem.resolve_right fun hc => absurd (hc.2.2.symm.trans hw) (by decide)
      unfold semRelease
      dsimp only
      cases hpc : s.pc with
      | blocked p =>
        have hgets : s.gets .isr = true := by
          rw [gets, hisr, hw, hpc]; rfl
        exact .of_not_waiting rfl hz fun _ => ha.1 hgets
      | take p =>
        refine ⟨fun hc => absurd hc Bool.false_ne_true, .inr ⟨?_, rfl, rfl⟩, fun hc => absurd hc Bool.false_ne_true,
          fun hc => absurd hc Bool.false_ne_true, fun _ => rfl⟩
        show (s.txWait + 1) % 2 ^ 16 = 1
        rw [hz]; rfl
      | _ =>
        exfalso
        obtain hc | hc := h.waiting hw <;> rw [hpc] at hc <;> exact absurd hc Bool.false_ne_true
    · next hwake =>
      cases hs
      refine ⟨h.copying, h.sem, h.waiting, h.coming, fun hc => ?_⟩
      cases hc
      exact Bool.eq_false_of_not_eq_true hwake

theorem inv_complete (h : Inv s) {l : List (List UInt8)} :
    Inv { s.setDesc s.dmaDesc { s.desc s.dmaDesc with own := false } with
      dmaDesc := s.dmaDesc + 1
      raises := s.raises + 1
      sent := l } := by
  refine ⟨fun hc => ?_, h.sem, h.waiting, fun _ => .inr (.inl (Nat.succ_pos _)), h.clear⟩
  have hcur := h.copying hc
  show ((s.setDesc s.dmaDesc _).desc s.descToSet).own = false
  rw [setDesc]
  dsimp only
  by_cases hi : s.descToSet = s.dmaDesc
  · rw [hi, Function.update_self]
  · rw [Function.update_of_ne hi, hcur]

theorem inv_step (h : Inv s) (ha : s.Admits a) (hs : step a s = some s') : Inv s' := by
  cases a with
  | call p =>
    rw [step] at hs
    split at hs
    · next hc => cases hs; exact inv_call h hc.2
    · cases hs
  | tx =>
    rw [step] at hs
    split at hs
    · next hout => exact inv_tx h ha hout hs
    · cases hs
  | enter =>
    rw [step] at hs
    split at hs
    · cases hs; exact inv_enter h
    · cases hs
  | isr => exact inv_isr h ha hs
  | complete =>
    rw [step] at hs
    dsimp only at hs
    split at hs
    · cases hs; exact inv_complete h
    · cases hs
  | suspend =>
    rw [step] at hs
    split at hs
    · cases hs; exact ⟨h.copying, h.sem, h.waiting, h.coming, h.clear⟩
    · cases hs
  | raise =>
    rw [step] at hs
    split at hs
    · cases hs; exact ⟨h.copying, h.sem, h.waiting, fun _ => .inr (.inr rfl), h.clear⟩
    · cases hs

/-! ### Runs -/

variable {h : List (EthTx × EthTxAct)}

theorem inv_of_run (hr : system.Run h s) (ha : ∀ x ∈ h, x.1.Admits x.2) :
    ∀ t ∈ s :: h.map (·.1), Inv t := by
  refine Lts.forall_states_iff.2 (hr.inv_states (I := Inv) ?_ (fun s a s' hi ha hs => inv_step hi ha hs) ha)
  rintro s ⟨size, buffer, rfl⟩
  exact inv_start

/-- In a run in which no interrupt of an earlier frame alone releases the thread, and none is lost before
`tx_is_waiting = RT_TRUE`, no frame is copied into a buffer of the engine and the thread never stalls. -/
theorem handsOver_of_admits (hr : system.Run h s) (ha : ∀ x ∈ h, x.1.Admits x.2) : HandsOver h s := by
  have hinv := inv_of_run hr ha
  exact ⟨fun t ht => (hinv t ht).copying, fun t ht => (hinv t ht).not_stalled⟩

/-- The steps of `s88e6060_tx` for a frame of one pbuf and a free descriptor. -/
def sends (p : List UInt8) : List EthTxAct := [.call [p], .tx, .tx, .tx, .tx, .tx, .tx]

/-- Three frames, the third of which waits for the first one to be sent. -/
theorem handsOver_of_admits_three : ∃ h s, system.Run h s ∧ s.sent = [[1], [2], [3]] ∧ HandsOver h s := by
  obtain ⟨h, s, hr, ha, hs⟩ := system.exists_run_of_exec
    (sends [1] ++ sends [2] ++ [.call [[3]], .tx, .tx, .tx, .complete, .raise, .enter, .isr, .isr, .tx, .tx, .tx, .tx,
      .tx, .complete, .raise, .complete]) (show system.init (start (fun _ => 0) fun _ _ => 0) from ⟨_, _, rfl⟩)
    (P := fun h s => (∀ x ∈ h, x.1.Admits x.2) ∧ s.sent = [[1], [2], [3]]) (by decide +kernel)
  exact ⟨h, s, hr, hs, handsOver_of_admits hr ha⟩

/-- Two defects. The late interrupt of a frame releases the thread that waits for another one, and it copies into
the buffer of that one. And the interrupts of both frames come between the test of OWN and
`tx_is_waiting = RT_TRUE`: the thread stalls. -/
theorem not_handsOver_of_race :
    (∃ h s, system.Run h s ∧ s.pc.copying = true ∧ (s.desc s.descToSet).own = true ∧ ¬ HandsOver h s) ∧
      ∃ h s, system.Run h s ∧ s.Stalled ∧ ¬ HandsOver h s := by
  constructor
  · obtain ⟨h, s, hr, hc, hown⟩ := system.exists_run_of_exec
      (sends [1] ++ sends [2] ++ [.complete] ++ sends [3] ++ [.call [[4]], .tx, .tx, .tx, .raise, .enter, .isr])
      (show system.init (start (fun _ => 0) fun _ _ => 0) from ⟨_, _, rfl⟩)
      (P := fun _ s => s.pc.copying = true ∧ (s.desc s.descToSet).own = true) (by decide +kernel)
    refine ⟨h, s, hr, hc, hown, fun hH => ?_⟩
    exact absurd ((hH.copies s List.mem_cons_self hc).symm.trans hown) (by decide)
  · obtain ⟨h, s, hr, hs⟩ := system.exists_run_of_exec
      (sends [1] ++ sends [2] ++ [.call [[3]], .tx, .complete, .complete, .raise, .raise, .enter, .isr, .isr, .tx, .tx])
      (show system.init (start (fun _ => 0) fun _ _ => 0) from ⟨_, _, rfl⟩) (P := fun _ s => s.Stalled)
      (by decide +kernel)
    exact ⟨h, s, hr, hs, fun hH => hH.wakes s List.mem_cons_self hs⟩

end EthTx

end Bootloader
