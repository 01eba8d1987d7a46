import Bootloader.Threads

/-!
# Stale bytes in the receive buffer

`network_commu_thread_entry` copies a datagram over the start of the receive buffer and keeps its length
in `RecvLen`, which nobody reads. What a call of `UDPPacketProcess` does depends on the bytes behind the
datagram as soon as its command reads further than the datagram goes. The call waits in `UDPSend` and in
`SaveFileToBuf`, and the update thread runs meanwhile: a packet whose slot is still in use at the first
pass is stored at a later one if the update thread can hand the slot back. A further datagram may come
during the call as long as it leaves the bytes of the datagram in place, as one does that the host repeats.
-/

namespace Bootloader.Device

/-! ### A call -/

/-- The threads run, the process thread at `pc` with the receive buffer `m`. -/
def calling (s : Device) (pc : ProcPc) (m : Mem) : Device :=
  { s with mode := .threads, proc := pc, pRecvBuf := m }

/-- A call of `UDPPacketProcess` when the threads take turns as in the list: the device and the frames
sent. An action that is not possible is passed over; the call is over when the thread is back in its loop
or the device has been reset. -/
def call : List Act → Device → Device × List (List UInt8 × Nat)
  | [], s => (s, [])
  | a :: as, s =>
    if s.proc = .idle then (s, [])
    else
      match step a s with
      | some s' => ((call as s').1, (s.sends a).toList ++ (call as s').2)
      | none => call as s

/-- The device without the receive buffer and without the place where the process thread stands. -/
def outcome (s : Device) : Device := { s with proc := .idle, pRecvBuf := fun _ => 0 }

/-- The effect of a call with the receive buffer `m`: what it leaves of the device, and the frames sent. -/
def effect (s : Device) (as : List Act) (m : Mem) : Device × List (List UInt8 × Nat) :=
  ((call as (s.calling .entry m)).1.outcome, (call as (s.calling .entry m)).2)

/-- The datagrams that come leave the bytes of `d` in the receive buffer. -/
def Keeps (d : List UInt8) (as : List Act) : Prop :=
  ∀ d' addr, .recv d' addr ∈ as → ∀ m : Mem, m.read 0 d.length = d → (m.write 0 d').read 0 d.length = d

/-- However the threads take turns, the effect of a call on the datagram `d` is the same whatever lies behind
it in the buffer. -/
def NoStale (s : Device) (d : List UInt8) : Prop :=
  ∀ as, Keeps d as → ∀ m₁ m₂ : Mem, m₁.read 0 d.length = d → m₂.read 0 d.length = d →
    s.effect as m₁ = s.effect as m₂

/-- What the update thread may make of a device while the process thread sleeps. -/
inductive Course (s : Device) : Device → Prop
  | refl : Course s s
  | upd {t u : Device} {hw : FlashStatus} :
    Course s t → t.upd ≠ .commitReset → t.updStep hw = some u → Course s u
  | elapse {t : Device} (n : Nat) : Course s t → Course s { t with tick := t.tick + n }

/-- `SaveFileToBuf`, called for the packet, stores it at its first pass, or sleeps and can find its slot
handed back at a later one. -/
def MayStore (s : Device) (iSeq : Nat) : Prop :=
  alreadySaved s.fileBuf iSeq = false ∧
    ((∃ i, pollSlot s.fileBuf iSeq = .store i) ∨
      pollSlot s.fileBuf iSeq = .again ∧ ∃ t i, Course s t ∧ pollSlot t.fileBuf iSeq = .store i)

/-- The datagram has all the bytes that its command may read. -/
def Covers (s : Device) (d : List UInt8) : Prop :=
  let m := ofList d
  if d.length < 5 then d.length = 4 ∧ m 3 ≠ 1
  else
    match Cmd.ofCode (cmdCode m) with
    | none => True
    | some .eraseFlash => contentOffset + 8 ≤ d.length
    | some .download => payloadOffset ≤ d.length ∧
      (dataLen m ≤ 1024 → s.MayStore (packetIndex m) → payloadOffset + dataLen m ≤ d.length)
    | some _ => 9 ≤ d.length

variable {s s' t : Device} {a : Act} {as : List Act} {d : List UInt8} {m m₁ m₂ : Mem} {pc : ProcPc}

theorem call_step (hp : s.proc ≠ .idle) (hs : step a s = some s') :
    call (a :: as) s = ((call as s').1, (s.sends a).toList ++ (call as s').2) := by
  rw [call, if_neg hp, hs]

theorem call_quiet (hp : s.proc ≠ .idle) (hs : step a s = some s') (hq : s.sends a = none) :
    call (a :: as) s = call as s' := by
  rw [call_step hp hs, hq]; rfl

theorem call_idle (hp : s.proc = .idle) : call as s = (s, []) := by
  cases as with
  | nil => rfl
  | cons a as => rw [call, if_pos hp]

/-! ### The update thread beside a call -/

/-- A device with what the other two threads have in `u`. -/
def beside (t u : Device) : Device :=
  { t with
    pRecvBuf := u.pRecvBuf
    sockAddr := u.sockAddr
    recvSem := u.recvSem
    netWorkRecvSem := u.netWorkRecvSem
    mode := u.mode
    commu := u.commu
    proc := u.proc }

/-- The update thread neither reads nor writes what is the other two threads'. -/
theorem updStep_beside (hw : FlashStatus) (u : Device) (hr : t.upd ≠ .commitReset) :
    (t.beside u).updStep hw = (t.updStep hw).map (·.beside u) := by
  have hu : (t.beside u).upd = t.upd := rfl
  cases hpc : t.upd with
  | commitReset => exact absurd hpc hr
  | loopTest | await => simp only [updStep, hu, hpc]; rfl
  | take =>
    simp only [updStep, hu, hpc, show (t.beside u).updateSem = t.updateSem from rfl]
    split <;> rfl
  | eraseLoop | program =>
    simp only [updStep, hu, hpc]
    cases hw <;> simp only [beside] <;> (try split) <;> rfl
  | getIndex =>
    simp only [updStep, hu, hpc, show (t.beside u).fileBuf = t.fileBuf from rfl]
    split <;> rfl
  | _ => simp only [updStep, hpc, beside]; (try split) <;> rfl

theorem beside_of_updStep {hw : FlashStatus} {u : Device} (hr : t.upd ≠ .commitReset)
    (hu : t.updStep hw = some u) : u.beside t = u := by
  have h := updStep_beside hw t hr
  rw [show t.beside t = t from rfl, hu] at h
  exact (Option.some.inj h).symm

theorem updStep_calling {hw : FlashStatus} (hr : t.upd ≠ .commitReset) :
    (t.calling pc m).updStep hw = (t.updStep hw).map (·.calling pc m) := by
  rw [show t.calling pc m = t.beside (t.calling pc m) from rfl, updStep_beside _ _ hr]
  cases hu : t.updStep hw with
  | none => rfl
  | some u =>
    rw [← beside_of_updStep hr hu]; rfl

/-! ### What is covered has the same effect -/

/-- The device in a call that has started in `s`: what the update thread has made of `s`, with whatever the
other two have. -/
def OnCourse (s t : Device) : Prop := ∃ u, s.Course u ∧ u.beside t = t

theorem OnCourse.refl : s.OnCourse s := ⟨s, .refl, rfl⟩

theorem OnCourse.elapse (h : s.OnCourse t) (n : Nat) : s.OnCourse { t with tick := t.tick + n } := by
  obtain ⟨u, hc, hu⟩ := h
  refine ⟨_, hc.elapse n, ?_⟩
  rw [← hu]; rfl

theorem OnCourse.upd {hw : FlashStatus} {u : Device} (h : s.OnCourse t) (hr : t.upd ≠ .commitReset)
    (hu : t.updStep hw = some u) : s.OnCourse u := by
  obtain ⟨v, hc, hv⟩ := h
  rw [← hv] at hr
  have hstep := updStep_beside hw t (t := v) hr
  rw [hv, hu] at hstep
  obtain ⟨w, hvw, hwu⟩ := Option.map_eq_some_iff.1 hstep.symm
  exact ⟨w, hc.upd hr hvw, by rw [← hwu]; rfl⟩

theorem OnCourse.other {u : Device} (h : s.OnCourse t) (hu : t.beside u = u) : s.OnCourse u := by
  obtain ⟨v, hc, hv⟩ := h
  exact ⟨v, hc, by rw [← hu, ← hv]; rfl⟩

/-- A `DOWNLOAD` whose packet has not been stored. -/
structure Saving (s : Device) (d : List UInt8) (t : Device) : Prop where
  length : payloadOffset ≤ d.length
  covers : dataLen (ofList d) ≤ 1024 → s.MayStore (packetIndex (ofList d)) →
    payloadOffset + dataLen (ofList d) ≤ d.length
  course : s.OnCourse t

/-- In a call that has started in `s`, what has been read was read from the datagram, and what may still be
read is in it. -/
def Within (s : Device) (d : List UInt8) (t : Device) : ProcPc → Prop
  | .tryRecv => False
  | .entry => s.Covers d ∧ s.OnCourse t ∧ t.fileBuf = s.fileBuf
  | .eraseClear | .eraseLength | .eraseCheckSum => contentOffset + 8 ≤ d.length
  | .ackHead cmd _ _ | .ackTake cmd _ _ | .ackWait cmd =>
    9 ≤ d.length ∧ (cmd = .eraseFlash → contentOffset + 8 ≤ d.length)
  | .seqRead => s.Saving d t ∧ t.fileBuf = s.fileBuf
  | .lenRead iSeq => (s.Saving d t ∧ t.fileBuf = s.fileBuf) ∧ iSeq = packetIndex (ofList d)
  | .saveFile iSeq iDataLen =>
    (s.Saving d t ∧ t.fileBuf = s.fileBuf) ∧ iSeq = packetIndex (ofList d) ∧ iDataLen = dataLen (ofList d) ∧
      iDataLen ≤ 1024
  | .poll iSeq iDataLen _ =>
    (s.Saving d t ∧ (t.fileBuf = s.fileBuf ∨ pollSlot s.fileBuf iSeq = .again)) ∧
      (iSeq = packetIndex (ofList d) ∧ iDataLen = dataLen (ofList d) ∧ iDataLen ≤ 1024) ∧
      alreadySaved s.fileBuf iSeq = false
  | .sleep iSeq iDataLen _ =>
    (s.Saving d t ∧ pollSlot s.fileBuf iSeq = .again) ∧
      (iSeq = packetIndex (ofList d) ∧ iDataLen = dataLen (ofList d) ∧ iDataLen ≤ 1024) ∧
      alreadySaved s.fileBuf iSeq = false
  | .copy _ _ iDataLen _ => payloadOffset + iDataLen ≤ d.length
  | _ => True

/-- A step of the call does the same whatever lies behind the datagram: it is not possible, or it resets the
device, or it goes on within the datagram. -/
inductive Alike (s : Device) (d : List UInt8) (a : Act) (u : Mem → Option Device) : Prop
  | none : (∀ m, m.read 0 d.length = d → u m = none) → Alike s d a u
  | reset (flash eeprom : Mem) : (∀ m, m.read 0 d.length = d → u m = some (reset flash eeprom)) → Alike s d a u
  | goes (t' : Device) (pc' : ProcPc) : s.Within d t' pc' →
    (∀ m, m.read 0 d.length = d → u m = some (t'.calling pc' m)) → Alike s d a u
  | recv (t' : Device) (pc' : ProcPc) (d' : List UInt8) : s.Within d t' pc' →
    (∀ m : Mem, m.read 0 d.length = d → (m.write 0 d').read 0 d.length = d) →
    (∀ m, m.read 0 d.length = d → u m = some (t'.calling pc' (m.write 0 d'))) → Alike s d a u

theorem Saving.within_ack (h : s.Saving d t) {result : Nat} : s.Within d t (t.downloadAck result) :=
  ⟨Nat.le_trans (by decide) h.length, by rintro ⟨⟩⟩

/-- `SaveFileToBuf` stores a packet only if it may. -/
theorem Saving.mayStore {iSeq i : Nat} (h : s.Saving d t)
    (hfirst : t.fileBuf = s.fileBuf ∨ pollSlot s.fileBuf iSeq = .again)
    (hnew : alreadySaved s.fileBuf iSeq = false) (hi : pollSlot t.fileBuf iSeq = .store i) : s.MayStore iSeq := by
  refine ⟨hnew, ?_⟩
  rcases hfirst with hfb | hagain
  · exact .inl ⟨i, hfb ▸ hi⟩
  · obtain ⟨u, hc, hu⟩ := h.course
    exact .inr ⟨hagain, u, i, hc, by rw [← hu] at hi; exact hi⟩

theorem pollSlot_of_sleep {fb : FileBufs} {iSeq : Nat} {late : Bool} (h : savePass fb iSeq late = .sleep) :
    pollSlot fb iSeq = .again := by
  rw [savePass] at h
  split at h
  · cases h
  · cases h
  · next hp => exact hp

/-- All commands have the same first byte. -/
theorem ofCode_none (h : m 3 ≠ 1) : Cmd.ofCode (cmdCode m) = none := by
  cases hc : Cmd.ofCode (cmdCode m) with
  | none => rfl
  | some cmd =>
    have hcode := Cmd.ofCode_code hc
    have h4 := (m 4).toNat_lt
    have h3 : (m 3).toNat = 1 := by
      unfold cmdCode at hcode
      cases cmd <;> simp only [Cmd.code] at hcode <;> omega
    exact absurd (UInt8.toNat_inj.1 h3) h

/-- The `switch` takes the same branch whatever lies behind the datagram. -/
theorem alike_entry (hw : s.Within d t .entry) : Alike s d .proc fun m => (t.calling .entry m).procStep := by
  obtain ⟨hcov, hcs, hfb⟩ := hw
  rw [Covers] at hcov
  split at hcov
  · next hlt =>
    refine .goes t .idle trivial fun m hm => ?_
    have hnone : Cmd.ofCode (cmdCode m) = none :=
      ofCode_none (by rw [eq_ofList hm (by omega)]; exact hcov.2)
    simp only [procStep, dispatch, calling, hnone]
  · next hge =>
    have hcode : ∀ m, m.read 0 d.length = d → cmdCode m = cmdCode (ofList d) := fun m hm =>
      cmdCode_ofList hm (by omega)
    have hstep : ∀ m, m.read 0 d.length = d →
        (t.calling .entry m).procStep = some (t.calling (t.calling .entry (ofList d)).dispatch m) := fun m hm => by
      simp only [procStep, dispatch, calling, hcode m hm]
    refine .goes t (t.calling .entry (ofList d)).dispatch ?_ hstep
    simp only [dispatch, calling]
    cases hc : Cmd.ofCode (cmdCode (ofList d)) with
    | none => trivial
    | some cmd =>
      rw [hc] at hcov
      cases cmd with
      | eraseFlash => exact hcov
      | download => exact ⟨⟨hcov.1, hcov.2, hcs⟩, hfb⟩
      | _ => exact ⟨hcov, by rintro ⟨⟩⟩

theorem afterPass_calling (pc : ProcPc) {q n k : Nat} {o : SaveOutcome} :
    (t.calling pc m).afterPass q n k o = t.afterPass q n k o := by cases o <;> rfl

/-- A pass of the polling loop; what it stores is in the datagram, because the packet may be stored. -/
theorem alike_poll {q n k : Nat} (hw : s.Within d t (.poll q n k)) :
    Alike s d .proc fun m => (t.calling (.poll q n k) m).procStep := by
  obtain ⟨⟨hsv, hfirst⟩, ⟨hq, hn, hle⟩, hnew⟩ := hw
  have hstep : ∀ m, (t.calling (.poll q n k) m).procStep = some (t.calling
      (t.afterPass q n k (savePass t.fileBuf q (t.late k 5000))) m) := fun m => by
    rw [← afterPass_calling (.poll q n k) (m := m)]; rfl
  cases ho : savePass t.fileBuf q (t.late k 5000) with
  | store i =>
    have hst := hsv.mayStore hfirst hnew (Ring.savePass_store ho)
    refine .goes t (.copy i q n []) ?_ fun m _ => by rw [hstep, ho]; rfl
    show payloadOffset + n ≤ d.length
    rw [hn]
    exact hsv.covers (hn ▸ hle) (hq ▸ hst)
  | ret r => exact .goes t (t.downloadAck r) hsv.within_ack fun m _ => by rw [hstep, ho]; rfl
  | sleep =>
    refine .goes t (.sleep q n k) ⟨⟨hsv, ?_⟩, ⟨hq, hn, hle⟩, hnew⟩ fun m _ => by rw [hstep, ho]; rfl
    rcases hfirst with hfb | hagain
    · rw [← hfb]; exact pollSlot_of_sleep ho
    · exact hagain

/-- No step of the call reads further than the datagram goes. -/
theorem alike_proc (hw : s.Within d t pc) (hpc : pc ≠ .idle) :
    Alike s d .proc fun m => (t.calling pc m).procStep := by
  cases pc with
  | idle => exact absurd rfl hpc
  | tryRecv => exact hw.elim
  | entry => exact alike_entry hw
  | eraseClear =>
    exact .goes t.eraseClear (.ackHead .eraseFlash [] []) ⟨Nat.le_trans (by decide) hw, fun _ => hw⟩ fun _ _ => rfl
  | seqRead =>
    refine .goes t (.lenRead (packetIndex (ofList d))) ⟨hw, rfl⟩ fun m hm => ?_
    rw [← packetIndex_ofList hm (Nat.le_trans (by decide) hw.1.length)]; rfl
  | lenRead q =>
    obtain ⟨hsv, hq⟩ := hw
    have hlen : ∀ m, m.read 0 d.length = d → (t.calling (.lenRead q) m).procStep = some (t.calling
        (if dataLen (ofList d) ≤ 1024 then .saveFile q (dataLen (ofList d)) else .idle) m) := fun m hm => by
      rw [← dataLen_ofList hm hsv.1.length]; rfl
    by_cases hle : dataLen (ofList d) ≤ 1024
    · rw [if_pos hle] at hlen
      exact .goes t (.saveFile q (dataLen (ofList d))) ⟨hsv, hq, rfl, hle⟩ hlen
    · rw [if_neg hle] at hlen
      exact .goes t .idle trivial hlen
  | saveFile q n =>
    obtain ⟨⟨hsv, hfb⟩, hq, hn⟩ := hw
    cases hd : alreadySaved t.fileBuf q with
    | true =>
      refine .goes t (t.downloadAck 1) hsv.within_ack fun m _ => ?_
      simp only [procStep, calling, hd, if_true]; rfl
    | false =>
      refine .goes t (.poll q n t.tick) ⟨⟨hsv, .inl hfb⟩, ⟨hq, hn⟩, by rw [← hfb]; exact hd⟩ fun m _ => ?_
      simp only [procStep, calling, hd]; rfl
  | poll q n k => exact alike_poll hw
  | sleep q n k =>
    obtain ⟨⟨hsv, hagain⟩, hn, hnew⟩ := hw
    exact .goes t (.poll q n k) ⟨⟨hsv, .inr hagain⟩, hn, hnew⟩ fun _ _ => rfl
  | copy i q n l =>
    have hw : 18 + n ≤ d.length := hw
    by_cases hlt : l.length < n
    · refine .goes t (.copy i q n (l ++ [ofList d (payloadOffset + l.length)])) hw fun m hm => ?_
      have hx : m (payloadOffset + l.length) = ofList d (payloadOffset + l.length) :=
        eq_ofList hm (Nat.lt_of_lt_of_le (Nat.add_lt_add_left hlt 18) hw)
      rw [← hx]
      simp only [procStep, calling, if_pos hlt]
    · refine .goes { t with fileBuf := t.fileBuf.store i q l } (t.downloadAck 1)
        ⟨Nat.le_trans (by decide) (Nat.le_trans (Nat.le_add_right 18 n) hw), by rintro ⟨⟩⟩ fun m _ => ?_
      simp only [procStep, calling, if_neg hlt]; rfl
  | ackHead cmd sendbuf hdr =>
    by_cases hlt : hdr.length < 4
    · refine .goes t (.ackHead cmd sendbuf (hdr ++ [ofList d (5 + hdr.length)])) hw fun m hm => ?_
      have hx : m (5 + hdr.length) = ofList d (5 + hdr.length) :=
        eq_ofList hm (Nat.lt_of_lt_of_le (Nat.add_lt_add_left hlt 5) hw.1)
      rw [← hx]
      simp only [procStep, calling, if_pos hlt]
    · refine .goes t (.ackTake cmd sendbuf hdr) hw fun m _ => ?_
      simp only [procStep, calling, if_neg hlt]
  | ackTake cmd sendbuf hdr => exact .goes t (.ackWait cmd) hw fun _ _ => rfl
  | ackWait cmd =>
    refine .goes t (afterAck cmd) ?_ fun _ _ => rfl
    cases cmd with
    | eraseFlash => exact hw.2 rfl
    | _ => trivial
  | eraseLength =>
    refine .goes { t with codeTotalLength := codeLength (ofList d) } .eraseCheckSum hw fun m hm => ?_
    rw [codeLength, ← read_ofList hm (Nat.le_trans (by decide) hw)]; rfl
  | eraseCheckSum =>
    refine .goes { t with codeUpperCheckSum := codeCheckSum (ofList d) } .eraseRelease trivial fun m hm => ?_
    rw [codeCheckSum, ← read_ofList (a := contentOffset + 4) hm hw]; rfl
  | eraseRelease => exact .goes { t with updateSem := t.updateSem.release } .idle trivial fun _ _ => rfl
  | clearCheckSum =>
    exact .goes { t with checkSumResult := if 0 < t.checkSumResult then 0 else t.checkSumResult } .idle trivial
      fun _ _ => rfl
  | userFlag =>
    exact .goes { t with netLocalAddr := clearBootFlag t.netLocalAddr } (.userSave 0) trivial fun _ _ => rfl
  | userSave k =>
    by_cases hk : k < netLocalAddrSize
    · refine .goes { t with eeprom := saveByte t.netLocalAddr k t.eeprom } (.userSave (k + 1)) trivial fun m _ => ?_
      simp only [procStep, calling, if_pos hk]
    · refine .goes t .userReset trivial fun m _ => ?_
      simp only [procStep, calling, if_neg hk]
  | userReset => exact .reset t.flash t.eeprom fun _ _ => rfl

/-- What the other threads do to the device leaves the call where it is. -/
theorem Within.other {u : Device} (hw : s.Within d t pc) (hc : s.OnCourse t → s.OnCourse u)
    (hfb : u.fileBuf = t.fileBuf ∨ (t.calling pc m).yields = true) (hpc : pc ≠ .idle) : s.Within d u pc := by
  have hsv : s.Saving d t → s.Saving d u := fun h => ⟨h.length, h.covers, hc h.course⟩
  have hslots : (t.calling pc m).yields = false → t.fileBuf = s.fileBuf → u.fileBuf = s.fileBuf := fun hy h =>
    (hfb.resolve_right (by rw [hy]; exact Bool.false_ne_true)).trans h
  cases pc with
  | idle => exact absurd rfl hpc
  | entry => exact ⟨hw.1, hc hw.2.1, hslots rfl hw.2.2⟩
  | seqRead => exact ⟨hsv hw.1, hslots rfl hw.2⟩
  | lenRead q => exact ⟨⟨hsv hw.1.1, hslots rfl hw.1.2⟩, hw.2⟩
  | saveFile q n => exact ⟨⟨hsv hw.1.1, hslots rfl hw.1.2⟩, hw.2⟩
  | poll q n k => exact ⟨⟨hsv hw.1.1, hw.1.2.imp_left (hslots rfl)⟩, hw.2⟩
  | sleep q n k => exact ⟨⟨hsv hw.1.1, hw.1.2⟩, hw.2⟩
  | _ => exact hw

/-- A datagram that leaves the bytes in front as they are. -/
theorem alike_recv {d' : List UInt8} {addr : Nat} (hw : s.Within d t pc) (hpc : pc ≠ .idle)
    (hkeep : ∀ m : Mem, m.read 0 d.length = d → (m.write 0 d').read 0 d.length = d) :
    Alike s d (.recv d' addr) fun m => step (.recv d' addr) (t.calling pc m) := by
  have hstep : ∀ m, step (.recv d' addr) (t.calling pc m) = if (t.calling pc (ofList d)).canRecv then
      some ((t.calling pc m).deliver d' addr) else none := fun m => rfl
  cases hc : (t.calling pc (ofList d)).canRecv with
  | false => exact .none fun m _ => by rw [hstep, hc]; rfl
  | true =>
    simp only [hc, if_true, deliver] at hstep
    by_cases h0 : min d'.length commuBufLen = 0
    · refine .goes { t with commu := false } pc (hw.other (m := ofList d) (·.other rfl) (.inl rfl) hpc) fun m _ => ?_
      rw [hstep, if_pos h0]; rfl
    · by_cases hlt : min d'.length commuBufLen < udpRecvBufLen
      · refine .recv { t with
          sockAddr := addr
          recvSem := Semaphore.countUp t.recvSem
          netWorkRecvSem := t.netWorkRecvSem.release } pc d'
          (hw.other (m := ofList d) (·.other rfl) (.inl rfl) hpc) hkeep fun m _ => ?_
        rw [hstep, if_neg h0, if_pos hlt]; rfl
      · exact .goes t pc hw fun m _ => by rw [hstep, if_neg h0, if_neg hlt]

theorem alike_step (hw : s.Within d t pc) (hpc : pc ≠ .idle) (has : Keeps d [a]) :
    Alike s d a fun m => step a (t.calling pc m) := by
  cases a with
  | recv d' addr => exact alike_recv hw hpc (has d' addr List.mem_cons_self)
  | proc => exact alike_proc hw hpc
  | powerLoss => exact .reset t.flash t.eeprom fun _ _ => rfl
  | boot pins => exact .none fun _ _ => rfl
  | user eeprom => exact .none fun _ _ => rfl
  | recvFail =>
    exact .goes { t with commu := false } pc (hw.other (m := ofList d) (·.other rfl) (.inl rfl) hpc) fun _ _ => rfl
  | elapse n =>
    exact .goes { t with tick := t.tick + n } pc (hw.other (m := ofList d) (·.elapse n) (.inl rfl) hpc) fun _ _ => rfl
  | upd st =>
    have hstep : ∀ m, step (.upd st) (t.calling pc m) =
        if (t.calling pc (ofList d)).yields then (t.calling pc m).updStep st else none := fun m => rfl
    cases hy : (t.calling pc (ofList d)).yields with
    | false => exact .none fun m _ => by rw [hstep, hy]; rfl
    | true =>
      by_cases hreset : t.upd = .commitReset
      · refine .reset t.flash t.eeprom fun m _ => ?_
        rw [hstep, if_pos hy, updStep, show (t.calling pc m).upd = .commitReset from hreset]; rfl
      · cases hu : t.updStep st with
        | none => exact .none fun m _ => by rw [hstep, if_pos hy, updStep_calling hreset, hu]; rfl
        | some u =>
          refine .goes u pc (hw.other (·.upd hreset hu) (.inr hy) hpc) fun m _ => ?_
          rw [hstep, if_pos hy, updStep_calling hreset, hu]; rfl

/-- A call that stays within the datagram is the same for all buffers that start with it. -/
theorem call_within (pc : ProcPc) (has : Keeps d as) (hw : s.Within d t pc) (h₁ : m₁.read 0 d.length = d)
    (h₂ : m₂.read 0 d.length = d) :
    (call as (t.calling pc m₁)).1.outcome = (call as (t.calling pc m₂)).1.outcome ∧
    (call as (t.calling pc m₁)).2 = (call as (t.calling pc m₂)).2 := by
  -- both runs stand at one place of one device; only the buffers differ, and only behind the datagram
  induction as generalizing t pc m₁ m₂ with
  | nil => exact ⟨rfl, rfl⟩
  | cons a as ih =>
    have has' : Keeps d as := fun d' addr hb => has d' addr (List.mem_cons_of_mem a hb)
    by_cases hpc : pc = .idle
    · rw [call_idle hpc, call_idle hpc]
      exact ⟨rfl, rfl⟩
    have hsends : (t.calling pc m₂).sends a = (t.calling pc m₁).sends a := by cases a <;> rfl
    have ha : Keeps d [a] := fun d' addr hb => has d' addr (List.mem_singleton.1 hb ▸ List.mem_cons_self)
    cases alike_step hw hpc ha with
    | none hu =>
      simp only [call, if_neg (show (t.calling pc _).proc ≠ .idle from hpc), hu m₁ h₁, hu m₂ h₂]
      exact ih pc has' hw h₁ h₂
    | reset flash eeprom hu =>
      rw [call_step hpc (hu m₁ h₁), call_step hpc (hu m₂ h₂), hsends]
      exact ⟨rfl, rfl⟩
    | goes t' pc' hw' hu =>
      obtain ⟨hdev, hframes⟩ := ih pc' has' hw' h₁ h₂
      rw [call_step hpc (hu m₁ h₁), call_step hpc (hu m₂ h₂), hsends]
      exact ⟨hdev, congrArg (((t.calling pc m₁).sends a).toList ++ ·) hframes⟩
    | recv t' pc' d' hw' hkeep hu =>
      obtain ⟨hdev, hframes⟩ := ih pc' has' hw' (hkeep m₁ h₁) (hkeep m₂ h₂)
      rw [call_step hpc (hu m₁ h₁), call_step hpc (hu m₂ h₂), hsends]
      exact ⟨hdev, congrArg (((t.calling pc m₁).sends a).toList ++ ·) hframes⟩

theorem noStale_of_covers (h : s.Covers d) : s.NoStale d := by
  intro as has m₁ m₂ h₁ h₂
  obtain ⟨hdev, hframes⟩ := call_within .entry (t := s) has ⟨h, .refl, rfl⟩ h₁ h₂
  exact Prod.ext hdev hframes

/-! ### Calls by themselves -/

def NoRecv (as : List Act) : Prop := ∀ a ∈ as, ∀ d addr, a ≠ .recv d addr

theorem NoRecv.keeps (h : NoRecv as) : Keeps d as := fun d' addr hr => absurd rfl (h _ hr d' addr)

theorem NoRecv.append {bs : List Act} (h₁ : NoRecv as) (h₂ : NoRecv bs) : NoRecv (as ++ bs) := fun a ha =>
  (List.mem_append.1 ha).elim (h₁ a) (h₂ a)

theorem noRecv_procs {n : Nat} : NoRecv (procs n) := fun a ha d addr h => by
  rw [List.eq_of_mem_replicate ha] at h; cases h

theorem call_entry : call (procs 1 ++ as) (t.calling .entry m) = call as (t.calling (t.calling .entry m).dispatch m) :=
  rfl

/-- `UDPSendAck` reads the header bytes back and sends. -/
theorem call_ack {cmd : Cmd} {sendbuf : List UInt8} :
    call (procs 6 ++ as) (t.calling (.ackHead cmd sendbuf []) m) =
      ((call as (t.calling (.ackWait cmd) m)).1,
        (ackFrame cmd sendbuf (m.read 5 4), t.sockAddr) :: (call as (t.calling (.ackWait cmd) m)).2) := rfl

theorem call_copy (as : List Act) {i q n : Nat} {l : List UInt8} (hl : l.length ≤ n) :
    call (procs (n - l.length + 1) ++ as) (t.calling (.copy i q n l) m) =
      call as (calling { t with
        fileBuf := t.fileBuf.store i q (l ++ m.read (payloadOffset + l.length) (n - l.length)) }
        (t.downloadAck 1) m) := by
  induction hk : n - l.length generalizing l with
  | zero =>
    have hge : ¬ l.length < n := by omega
    have hstep : step .proc (t.calling (.copy i q n l) m) =
        some (calling { t with fileBuf := t.fileBuf.store i q l } (t.downloadAck 1) m) := by
      show (t.calling (.copy i q n l) m).procStep = _
      simp only [procStep, calling, if_neg hge]; rfl
    refine (call_quiet (by rintro ⟨⟩) hstep rfl).trans ?_
    rw [Mem.read]; simp
  | succ k ih =>
    have hlt : l.length < n := by omega
    have hstep : step .proc (t.calling (.copy i q n l) m) =
        some (t.calling (.copy i q n (l ++ [m (payloadOffset + l.length)])) m) := by
      show (t.calling (.copy i q n l) m).procStep = _
      simp only [procStep, calling, if_pos hlt]
    refine (call_quiet (by rintro ⟨⟩) hstep rfl).trans ?_
    have := ih (l := l ++ [m (payloadOffset + l.length)]) (by simp; omega) (by simp; omega)
    rw [List.length_append, List.length_singleton, List.append_assoc] at this
    rw [Mem.read_succ_left]
    exact this

theorem call_save {q n : Nat} (hnew : alreadySaved t.fileBuf q = false) :
    call (procs 1 ++ as) (t.calling (.saveFile q n) m) = call as (t.calling (.poll q n t.tick) m) :=
  call_quiet (by rintro ⟨⟩) (by simp only [step, procStep, calling, hnew]; rfl) rfl

theorem call_poll {q n k : Nat} : call (procs 1 ++ as) (t.calling (.poll q n k) m) =
    call as (t.calling (t.afterPass q n k (savePass t.fileBuf q (t.late k 5000))) m) := by
  rw [← afterPass_calling (.poll q n k) (m := m)]
  exact call_quiet (by rintro ⟨⟩) rfl rfl

theorem late_self : t.late t.tick 5000 = false := by simp [late, mSec, u32]

/-- While the process thread sleeps, its call waits for what the other threads do. -/
theorem exists_course {q n k : Nat} (hc : Course s t) : ∃ as, NoRecv as ∧ ∀ m bs,
    call (as ++ bs) (s.calling (.sleep q n k) m) = call bs (t.calling (.sleep q n k) m) := by
  have hsnoc : ∀ {t u : Device} {as : List Act} (a : Act), NoRecv as → (∀ d addr, a ≠ .recv d addr) →
      (∀ m bs, call (as ++ bs) (s.calling (.sleep q n k) m) = call bs (t.calling (.sleep q n k) m)) →
      (∀ m bs, call (a :: bs) (t.calling (.sleep q n k) m) = call bs (u.calling (.sleep q n k) m)) →
      ∃ as, NoRecv as ∧ ∀ m bs,
        call (as ++ bs) (s.calling (.sleep q n k) m) = call bs (u.calling (.sleep q n k) m) := by
    intro t u as a has ha hcall hstep
    refine ⟨as ++ [a], has.append fun b hb => List.mem_singleton.1 hb ▸ ha, fun m bs => ?_⟩
    rw [List.append_assoc, hcall]
    exact hstep m bs
  induction hc with
  | refl => exact ⟨[], (by rintro _ ⟨⟩), fun _ _ => rfl⟩
  | @upd t u hw hc hr hu ih =>
    obtain ⟨as, has, hcall⟩ := ih
    refine hsnoc (.upd hw) has (by rintro _ _ ⟨⟩) hcall fun m bs => call_quiet (by rintro ⟨⟩) ?_ rfl
    exact (updStep_calling hr).trans (congrArg _ hu)
  | elapse i hc ih =>
    obtain ⟨as, has, hcall⟩ := ih
    exact hsnoc (.elapse i) has (by rintro _ _ ⟨⟩) hcall fun m bs => call_quiet (by rintro ⟨⟩) rfl rfl

/-- A packet that may be stored is stored if the other threads do the right thing. -/
theorem exists_copy {q n : Nat} (h : s.MayStore q) : ∃ as, ∃ t : Device, ∃ i, NoRecv as ∧ ∀ m bs,
    call (as ++ bs) (s.calling (.saveFile q n) m) = call bs (t.calling (.copy i q n []) m) := by
  obtain ⟨hnew, ⟨i, hi⟩ | ⟨hagain, t, i, hc, hi⟩⟩ := h
  · refine ⟨procs 1 ++ procs 1, s, i, noRecv_procs.append noRecv_procs, fun m bs => ?_⟩
    rw [List.append_assoc, call_save hnew, call_poll, savePass, hi]; rfl
  · obtain ⟨as, has, hcall⟩ := exists_course (q := q) (n := n) (k := s.tick) hc
    refine ⟨procs 1 ++ (procs 1 ++ (as ++ (procs 1 ++ procs 1))), t, i,
      noRecv_procs.append (noRecv_procs.append (has.append (noRecv_procs.append noRecv_procs))), fun m bs => ?_⟩
    have hwake : call (procs 1 ++ (procs 1 ++ bs)) (t.calling (.sleep q n s.tick) m) =
        call (procs 1 ++ bs) (t.calling (.poll q n s.tick) m) := call_quiet (by rintro ⟨⟩) rfl rfl
    simp only [List.append_assoc]
    rw [call_save hnew, call_poll, savePass, hagain, late_self]
    exact (hcall m _).trans (hwake.trans (by rw [call_poll, savePass, hi]; rfl))

theorem exists_ack (r : Nat) :
    ∃ as, NoRecv as ∧ (call as (t.calling (t.downloadAck r) m)).2 ≠ [] := by
  refine ⟨procs 6, noRecv_procs, ?_⟩
  rw [downloadAck, show procs 6 = procs 6 ++ [] from rfl, call_ack]
  rintro ⟨⟩

theorem exists_copied {i q n : Nat} :
    ∃ as, NoRecv as ∧ (call as (t.calling (.copy i q n []) m)).2 ≠ [] := by
  obtain ⟨as, has, hne⟩ := exists_ack
    (t := { t with fileBuf := t.fileBuf.store i q (m.read payloadOffset n) }) (m := m) 1
  refine ⟨procs (n + 1) ++ as, noRecv_procs.append has, ?_⟩
  have hcopy := call_copy as (t := t) (i := i) (q := q) (m := m) (l := []) (Nat.zero_le n)
  exact ne_of_eq_of_ne (congrArg Prod.snd hcopy) hne

/-- `SaveFileToBuf` gets to its reply when the clock goes on. -/
theorem exists_answer {q n : Nat} : ∃ as, NoRecv as ∧ (call as (t.calling (.saveFile q n) m)).2 ≠ [] := by
  cases hd : alreadySaved t.fileBuf q with
  | true =>
    obtain ⟨as, has, hne⟩ := exists_ack (t := t) (m := m) 1
    have hdup : call (procs 1 ++ as) (t.calling (.saveFile q n) m) = call as (t.calling (t.downloadAck 1) m) :=
      call_quiet (by rintro ⟨⟩) (by simp only [step, procStep, calling, hd]; rfl) rfl
    exact ⟨procs 1 ++ as, noRecv_procs.append has, by rwa [hdup]⟩
  | false =>
    have hlate : late { t with tick := t.tick + 501 } t.tick 5000 = true := by simp [late, mSec, u32]
    have hwait : ∀ as, call (procs 1 ++ (.elapse 501 :: (procs 1 ++ as))) (t.calling (.saveFile q n) m) =
        call as (calling { t with tick := t.tick + 501 }
          (t.afterPass q n t.tick (savePass t.fileBuf q true)) m) := by
      intro as
      have hpass : call (.elapse 501 :: (procs 1 ++ as)) (t.calling (.poll q n t.tick) m) =
          call (procs 1 ++ as) (calling { t with tick := t.tick + 501 } (.poll q n t.tick) m) :=
        call_quiet (by rintro ⟨⟩) rfl rfl
      rw [call_save hd, hpass, call_poll, hlate]
      exact congrArg (fun p => call as (calling { t with tick := t.tick + 501 } p m))
        (by cases savePass t.fileBuf q true <;> rfl)
    have hrecv : ∀ {as}, NoRecv as → NoRecv (procs 1 ++ (.elapse 501 :: (procs 1 ++ as))) := fun has =>
      noRecv_procs.append (List.forall_mem_cons.2 ⟨by rintro _ _ ⟨⟩, noRecv_procs.append has⟩)
    cases ho : savePass t.fileBuf q true with
    | sleep =>
      rw [savePass] at ho
      split at ho <;> cases ho
    | ret r =>
      obtain ⟨as, has, hne⟩ := exists_ack (t := { t with tick := t.tick + 501 }) (m := m) r
      exact ⟨_, hrecv has, by rw [hwait, ho]; exact hne⟩
    | store i =>
      obtain ⟨as, has, hne⟩ := exists_copied (t := { t with tick := t.tick + 501 }) (m := m)
        (i := i) (q := q) (n := n)
      exact ⟨_, hrecv has, by rw [hwait, ho]; exact hne⟩

/-! ### What is not covered shows -/

/-- The buffer with the datagram in front and some bytes behind it. -/
theorem read_stale {k : Nat} {l : List UInt8} (hk : d.length ≤ k) :
    ((ofList d).write k l).read 0 d.length = d := by
  rw [Mem.read_write_of_disjoint (.inl (by omega))]
  exact Mem.read_write

theorem stale_of_lt {k x : Nat} {l : List UInt8} (hx : x < k) : (ofList d).write k l x = ofList d x :=
  Mem.write_of_lt hx

theorem stale_self {k : Nat} {v : UInt8} : (ofList d).write k [v] k = v :=
  Mem.write_of_mem (k := 0) (l := [v]) Nat.one_pos

theorem cmdCode_stale {k : Nat} {l : List UInt8} (hk : 5 ≤ k) :
    cmdCode ((ofList d).write k l) = cmdCode (ofList d) := by
  rw [cmdCode, cmdCode, stale_of_lt (by omega), stale_of_lt (by omega)]

/-- The content of the reply to a command other than `ERASE_FLASH` and `DOWNLOAD`. -/
def replyContent (s : Device) : Cmd → List UInt8
  | .broadcast => broadcastElements s.netLocalAddr
  | .enterBoot | .enterUser => element bootName
  | .uqaryEraseFlashResult => [UInt8.ofNat s.eraseFlashResult]
  | .quaryCheckSum => [UInt8.ofNat s.checkSumResult]
  | .eraseFlash | .download => []

theorem frames_reply (cmd : Cmd) (he : cmd ≠ .eraseFlash) (hd : cmd ≠ .download)
    (hc : Cmd.ofCode (cmdCode m) = some cmd) :
    (s.effect (procs 7) m).2 = [(ackFrame cmd (s.replyContent cmd) (m.read 5 4), s.sockAddr)] := by
  have hdisp : (s.calling .entry m).dispatch = .ackHead cmd (s.replyContent cmd) [] := by
    simp only [dispatch, calling, hc]
    cases cmd with
    | eraseFlash => exact absurd rfl he
    | download => exact absurd rfl hd
    | _ => rfl
  rw [effect, show procs 7 = procs 1 ++ (procs 6 ++ []) from rfl, call_entry, hdisp, call_ack]; rfl

theorem frames_none (hc : Cmd.ofCode (cmdCode m) = none) : (s.effect (procs 7) m).2 = [] := by
  rw [effect, show procs 7 = procs 1 ++ procs 6 from rfl, call_entry,
    show (s.calling .entry m).dispatch = .idle by simp only [dispatch, calling, hc], call_idle rfl]

theorem codeUpperCheckSum_erase (hc : Cmd.ofCode (cmdCode m) = some .eraseFlash) :
    (s.effect (procs 11) m).1.codeUpperCheckSum = codeCheckSum m := by
  have hdisp : (s.calling .entry m).dispatch = .eraseClear := by simp only [dispatch, calling, hc]
  rw [effect, show procs 11 = procs 1 ++ (procs 1 ++ (procs 6 ++ (procs 3 ++ []))) from rfl, call_entry, hdisp,
    show call (procs 1 ++ (procs 6 ++ (procs 3 ++ []))) (s.calling .eraseClear m) =
      call (procs 6 ++ (procs 3 ++ [])) (s.eraseClear.calling (.ackHead .eraseFlash [] []) m) from rfl, call_ack]
  rfl

theorem call_download (hc : Cmd.ofCode (cmdCode m) = some .download) :
    call (procs 3 ++ as) (s.calling .entry m) =
      call as (s.calling (if dataLen m ≤ 1024 then .saveFile (packetIndex m) (dataLen m) else .idle) m) := by
  rw [show procs 3 ++ as = procs 1 ++ (procs 2 ++ as) from rfl, call_entry,
    show (s.calling .entry m).dispatch = .seqRead by simp only [dispatch, calling, hc]]
  rfl

/-- Two buffers that differ in a byte of the header lead to different replies. -/
theorem ackFrame_ne {cmd : Cmd} {sendbuf : List UInt8} (h : m₁ 8 ≠ m₂ 8) :
    ackFrame cmd sendbuf (m₁.read 5 4) ≠ ackFrame cmd sendbuf (m₂.read 5 4) := fun heq =>
  h (Option.some.inj (congrArg (fun l : List UInt8 => l[8]?) heq))

theorem codeCheckSum_ne (h : m₁.read (contentOffset + 4) 3 = m₂.read (contentOffset + 4) 3)
    (h23 : m₁ 23 ≠ m₂ 23) : codeCheckSum m₁ ≠ codeCheckSum m₂ := by
  have hne : (m₁ 23).toNat ≠ (m₂ 23).toNat := fun h => h23 (UInt8.toNat_inj.1 h)
  simp only [Mem.read, List.range, List.range.loop, List.map_cons, List.map_nil, List.cons.injEq, and_true,
    contentOffset, Nat.reduceAdd] at h
  simp only [codeCheckSum, Mem.read, List.range, List.range.loop, List.map_cons, List.map_nil, Mem.le,
    contentOffset, Nat.reduceAdd, h]
  omega

theorem dataLen_eq (m : Mem) : dataLen m = (m 16).toNat + 256 * (m 17).toNat := rfl

/-- A datagram without a whole command: what follows it decides whether there is a reply. -/
theorem not_noStale_of_cmd (m₁ m₂ : Mem) (h₁ : m₁.read 0 d.length = d) (h₂ : m₂.read 0 d.length = d)
    (hc₁ : cmdCode m₁ = Cmd.broadcast.code) (hc₂ : Cmd.ofCode (cmdCode m₂) = none) : ¬ s.NoStale d := by
  intro h
  have heq := congrArg Prod.snd (h (procs 7) noRecv_procs.keeps m₁ m₂ h₁ h₂)
  rw [frames_reply .broadcast (by decide) (by decide) (by rw [hc₁]; rfl), frames_none hc₂] at heq
  cases heq

theorem not_noStale_of_short (hlt : d.length < 5) (hc : ¬ (d.length = 4 ∧ ofList d 3 ≠ 1)) : ¬ s.NoStale d := by
  by_cases h4 : d.length = 4
  · have h3 : ofList d 3 = 1 := Decidable.not_not.1 fun h3 => hc ⟨h4, h3⟩
    refine not_noStale_of_cmd ((ofList d).write 4 [1]) ((ofList d).write 4 [0]) (read_stale (by omega))
      (read_stale (by omega)) ?_ ?_ <;> rw [cmdCode, stale_of_lt (by decide), h3] <;> rfl
  · exact not_noStale_of_cmd ((ofList d).write 3 [1, 1]) ((ofList d).write 3 [0, 0])
      (read_stale (by omega)) (read_stale (by omega)) rfl rfl

/-- A command whose reply reads a header that has not been received. -/
theorem not_noStale_of_reply {cmd : Cmd} (he : cmd ≠ .eraseFlash) (hd : cmd ≠ .download)
    (hc : Cmd.ofCode (cmdCode (ofList d)) = some cmd) (h9 : d.length < 9) : ¬ s.NoStale d := by
  intro h
  have hcode : ∀ v, Cmd.ofCode (cmdCode ((ofList d).write 8 [v])) = some cmd := fun v => by
    rw [cmdCode_stale (by decide), hc]
  have heq := congrArg Prod.snd (h (procs 7) noRecv_procs.keeps _ _ (read_stale (l := [0]) (Nat.le_of_lt_succ h9))
    (read_stale (l := [1]) (Nat.le_of_lt_succ h9)))
  rw [frames_reply cmd he hd (hcode 0), frames_reply cmd he hd (hcode 1)] at heq
  refine ackFrame_ne ?_ (congrArg Prod.fst (List.cons.inj heq).1)
  rw [stale_self, stale_self]; decide

theorem not_noStale_of_erase (hc : Cmd.ofCode (cmdCode (ofList d)) = some .eraseFlash)
    (h24 : d.length < 24) : ¬ s.NoStale d := by
  intro h
  have hcode : ∀ v, Cmd.ofCode (cmdCode ((ofList d).write 23 [v])) = some .eraseFlash := fun v => by
    rw [cmdCode_stale (by decide), hc]
  have heq := congrArg (fun e => e.1.codeUpperCheckSum) (h (procs 11) noRecv_procs.keeps _ _
    (read_stale (l := [0]) (Nat.le_of_lt_succ h24)) (read_stale (l := [1]) (Nat.le_of_lt_succ h24)))
  rw [codeUpperCheckSum_erase (hcode 0), codeUpperCheckSum_erase (hcode 1)] at heq
  refine codeCheckSum_ne ?_ ?_ heq
  · rw [Mem.read_write_of_disjoint (.inl (by decide)), Mem.read_write_of_disjoint (.inl (by decide))]
  · rw [stale_self, stale_self]; decide

/-- The length field of a `DOWNLOAD` decides whether there is a reply. -/
theorem not_noStale_of_length (hc : Cmd.ofCode (cmdCode (ofList d)) = some .download)
    (h18 : d.length < payloadOffset) : ¬ s.NoStale d := by
  intro h
  have hcode : ∀ v, Cmd.ofCode (cmdCode ((ofList d).write 17 [v])) = some .download := fun v => by
    rw [cmdCode_stale (by decide), hc]
  have hlen : ∀ v : UInt8, dataLen ((ofList d).write 17 [v]) = (ofList d 16).toNat + 256 * v.toNat := fun v => by
    rw [dataLen_eq, stale_of_lt (by decide), stale_self]
  have h16 := (ofList d 16).toNat_lt
  obtain ⟨as, has, hne⟩ := exists_answer (t := s) (m := (ofList d).write 17 [0])
    (q := packetIndex ((ofList d).write 17 [0])) (n := dataLen ((ofList d).write 17 [0]))
  have heq := congrArg Prod.snd (h (procs 3 ++ as) (noRecv_procs.append has).keeps _ _
    (read_stale (k := 17) (l := [0]) (Nat.le_of_lt_succ h18))
    (read_stale (k := 17) (l := [255]) (Nat.le_of_lt_succ h18)))
  rw [effect, effect, call_download (hcode 0), call_download (hcode 255), if_pos (by rw [hlen]; simp; omega),
    if_neg (by rw [hlen]; simp), call_idle (s := s.calling .idle _) rfl] at heq
  exact hne heq

theorem not_noStale_of_payload (h18 : payloadOffset ≤ d.length)
    (hc : Cmd.ofCode (cmdCode (ofList d)) = some .download) (hle : dataLen (ofList d) ≤ 1024)
    (hs : s.MayStore (packetIndex (ofList d)))
    (hlt : d.length < payloadOffset + dataLen (ofList d)) : ¬ s.NoStale d := by
  intro h
  obtain ⟨as, t, i, has, hcall⟩ := exists_copy (n := dataLen (ofList d)) hs
  obtain ⟨k, hk⟩ : ∃ k, dataLen (ofList d) = k + 1 := ⟨dataLen (ofList d) - 1, by omega⟩
  have hread : ∀ v : UInt8, ((ofList d).write (payloadOffset + k) [v]).read 0 d.length = d := fun v =>
    read_stale (by omega)
  have hpay : ∀ v : UInt8, ((s.effect (procs 3 ++ (as ++ procs (dataLen (ofList d) + 1)))
      ((ofList d).write (payloadOffset + k) [v])).1.fileBuf i).payload =
        ((ofList d).write (payloadOffset + k) [v]).read payloadOffset (k + 1) := fun v => by
    rw [effect, call_download (by rwa [cmdCode_stale (by unfold payloadOffset contentOffset; omega)]),
      dataLen_ofList (hread v) h18, if_pos hle, packetIndex_ofList (hread v) (Nat.le_trans (by decide) h18), hcall]
    have hcopy := call_copy [] (t := t) (i := i) (q := packetIndex (ofList d))
      (m := (ofList d).write (payloadOffset + k) [v]) (l := []) (Nat.zero_le (dataLen (ofList d)))
    rw [List.append_nil] at hcopy
    refine (congrArg (fun e => (e.1.outcome.fileBuf i).payload) hcopy).trans ?_
    rw [← hk]
    exact FileBufs.store_payload
  have heq := congrArg (fun e => (e.1.fileBuf i).payload) (h (procs 3 ++ (as ++ procs (dataLen (ofList d) + 1)))
    (noRecv_procs.append (has.append noRecv_procs)).keeps _ _ (hread 0) (hread 1))
  rw [hpay, hpay, Mem.read_succ, Mem.read_succ, stale_self, stale_self] at heq
  have := (List.append_inj' heq rfl).2
  cases this

theorem covers_of_noStale (h : s.NoStale d) : s.Covers d := by
  rw [Covers]
  split
  · next hlt => exact Decidable.not_not.1 fun hc => not_noStale_of_short hlt hc h
  · cases hc : Cmd.ofCode (cmdCode (ofList d)) with
    | none => trivial
    | some cmd =>
      cases cmd with
      | eraseFlash => exact Nat.le_of_not_lt fun hlt => not_noStale_of_erase hc hlt h
      | download =>
        have h18 := Nat.le_of_not_lt fun hlt => not_noStale_of_length hc hlt h
        exact ⟨h18, fun hle hs => Nat.le_of_not_lt fun hlt => not_noStale_of_payload h18 hc hle hs hlt h⟩
      | _ => exact Nat.le_of_not_lt fun hlt => not_noStale_of_reply (by decide) (by decide) hc hlt h

/-- What a call does is independent of the bytes behind the datagram if and only if the datagram has the
bytes that its command may read. -/
theorem noStale_iff : s.NoStale d ↔ s.Covers d := ⟨covers_of_noStale, noStale_of_covers⟩

/-- A `DOWNLOAD` of four bytes that is cut behind its length field: the packet stored has the payload of the
datagram before. -/
theorem stale_of_truncated : ∃ (s : Device) (d : List UInt8), 0 < d.length ∧ d.length < udpRecvBufLen ∧
    ¬ s.NoStale d := by
  refine ⟨reset (fun _ => 0) (eepromOf 1), (downloadFrame 0 [1, 2, 3, 4]).take 18, by decide, by decide,
    fun h => ?_⟩
  have := congrArg (fun e => (e.1.fileBuf 0).payload) (h (procs 10) noRecv_procs.keeps
    (ofList (downloadFrame 0 [1, 2, 3, 4])) (ofList (downloadFrame 0 [5, 6, 7, 8])) (by decide) (by decide))
  exact absurd this (by decide +kernel)

end Bootloader.Device
