import Bootloader.Threads

/-!
# Receiving and processing

What holds of the shared receive buffer, whatever the three threads do: it starts with the datagram
handed over last, and as long as no later datagram changes it, `UDPPacketProcess` works on the one it
was called on. It takes no copy, so a datagram may come between any two of its reads (`CallInv`).
-/

namespace Bootloader

def ProcPc.inCall : ProcPc → Bool
  | .idle | .tryRecv | .entry => false
  | _ => true

/-- What `UDPPacketProcess` has read so far was read from `buf`. -/
def ProcPc.ReadFrom (buf : Mem) : ProcPc → Prop
  | .seqRead => cmdCode buf = Cmd.download.code
  | .lenRead iSeq => cmdCode buf = Cmd.download.code ∧ iSeq = packetIndex buf
  | .saveFile iSeq iDataLen | .poll iSeq iDataLen _ | .sleep iSeq iDataLen _ =>
    cmdCode buf = Cmd.download.code ∧ iSeq = packetIndex buf ∧ iDataLen = dataLen buf
  | .copy _ iSeq iDataLen copied =>
    cmdCode buf = Cmd.download.code ∧ iSeq = packetIndex buf ∧ iDataLen = dataLen buf ∧
      copied.length ≤ iDataLen ∧ copied = buf.read payloadOffset copied.length
  | .ackHead cmd _ hdr => cmdCode buf = cmd.code ∧ hdr.length ≤ 4 ∧ hdr = buf.read 5 hdr.length
  | .ackTake cmd _ hdr => cmdCode buf = cmd.code ∧ hdr = buf.read 5 4
  | .eraseClear => cmdCode buf = Cmd.eraseFlash.code
  | .ackWait cmd => cmdCode buf = cmd.code
  | _ => True

namespace Device

/-- The datagram on which `UDPPacketProcess` was called last: the last one handed over before. -/
def datagram : List (Device × Act) → Option (List UInt8 × Nat)
  | [] => none
  | (s, a) :: h => if s.enters a then (handed h).getLast? else datagram h

/-- The receive buffer at the last call of `UDPPacketProcess`. -/
def entryBuf : List (Device × Act) → Mem
  | [] => fun _ => 0
  | (s, a) :: h => if s.enters a then s.pRecvBuf else entryBuf h

def keepsBuf (s : Device) (a : Act) : Bool :=
  (hands a).all fun x => s.pRecvBuf.read 0 x.1.length == x.1

def keepsAddr (s : Device) (a : Act) : Bool := (hands a).all fun x => x.2 == s.sockAddr

/-- Since the last call of `UDPPacketProcess` no datagram has changed the receive buffer. -/
def steady : List (Device × Act) → Bool := Lts.foldSince enters (fun b s a => b && s.keepsBuf a) true

/-- Since the last call of `UDPPacketProcess` no datagram has changed the address of the sender. -/
def sameSender : List (Device × Act) → Bool := Lts.foldSince enters (fun b s a => b && s.keepsAddr a) true

def Waiting (s : Device) : Prop :=
  0 < s.netWorkRecvSem.count ∨ 0 < s.recvSem ∨ s.proc = .tryRecv ∨ s.proc = .entry

/-! ### Summaries of the history -/

section
variable {h : List (Device × Act)} {s s' : Device} {a : Act}

theorem handed_cons (hr : s.resets a = false) : handed ((s, a) :: h) = handed h ++ (hands a).toList :=
  Lts.foldSince_cons hr

theorem handed_reset (hr : s.resets a = true) : handed ((s, a) :: h) = [] := Lts.foldSince_of_reset hr

theorem datagram_cons (he : s.enters a = false) : datagram ((s, a) :: h) = datagram h := by
  rw [datagram, he]; rfl

theorem entryBuf_cons (he : s.enters a = false) : entryBuf ((s, a) :: h) = entryBuf h := by
  rw [entryBuf, he]; rfl

theorem steady_cons (he : s.enters a = false) : steady ((s, a) :: h) = (steady h && s.keepsBuf a) :=
  Lts.foldSince_cons he

theorem sameSender_cons (he : s.enters a = false) :
    sameSender ((s, a) :: h) = (sameSender h && s.keepsAddr a) :=
  Lts.foldSince_cons he

theorem hands_ne_recv (ha : ∀ d addr, a ≠ .recv d addr) : hands a = none := by
  cases a with
  | recv d addr => exact absurd rfl (ha d addr)
  | _ => rfl

theorem keepsBuf_of_hands (ha : hands a = none) : s.keepsBuf a = true := by rw [keepsBuf, ha]; rfl

theorem keepsAddr_of_hands (ha : hands a = none) : s.keepsAddr a = true := by rw [keepsAddr, ha]; rfl

theorem enters_ne_proc (ha : a ≠ .proc) : s.enters a = false := by
  cases a with
  | proc => exact absurd rfl ha
  | _ => rfl

theorem stored_cons (hr : s.resets a = false) (hc : s.clears a = false) :
    stored ((s, a) :: h) = (s.stores a).toList ++ stored h := by
  rw [stored, Lts.foldSince_cons hr, hc]; rfl

theorem stored_clear (hr : s.resets a = false) (hc : s.clears a = true) : stored ((s, a) :: h) = [] := by
  rw [stored, Lts.foldSince_cons hr, hc]; rfl

theorem stored_ne_proc (hr : s.resets a = false) (ha : a ≠ .proc) : stored ((s, a) :: h) = stored h := by
  have hc : s.clears a = false := by
    cases a with
    | proc => exact absurd rfl ha
    | _ => rfl
  have hs : s.stores a = none := by
    cases a with
    | proc => exact absurd rfl ha
    | _ => rfl
  rw [stored_cons hr hc, hs]; rfl

/-! ### The invariant -/

/-- The call that runs: its datagram, and what has become of the receive buffer. -/
structure CallInv (h : List (Device × Act)) (s : Device) (d : List UInt8) (addr : Nat) : Prop where
  datagram : datagram h = some (d, addr)
  mem : (d, addr) ∈ handed h
  entry : (entryBuf h).read 0 d.length = d
  buf : steady h = true → s.pRecvBuf = entryBuf h
  sender : sameSender h = true → s.sockAddr = addr
  read : steady h = true → s.proc.ReadFrom (entryBuf h)

structure NetInv (h : List (Device × Act)) (s : Device) : Prop where
  /-- The receive buffer starts with the datagram handed over last. -/
  last : ∀ d addr, (handed h).getLast? = some (d, addr) → s.pRecvBuf.read 0 d.length = d ∧ s.sockAddr = addr
  waiting : s.Waiting → handed h ≠ []
  call : s.proc.inCall = true → ∃ d addr, CallInv h s d addr

theorem NetInv.reset {f e : Mem} (hr : s.resets a = true) : NetInv ((s, a) :: h) (reset f e) := by
  refine ⟨?_, ?_, (by rintro ⟨⟩)⟩
  · rw [handed_reset hr]; rintro _ _ ⟨⟩
  · rintro (h | h | h | h) <;> cases h

theorem NetInv.same (hI : NetInv h s) (hr : s.resets a = false) (ha : hands a = none)
    (he : s.enters a = false)
    (hs : s'.proc = s.proc ∧ s'.pRecvBuf = s.pRecvBuf ∧ s'.sockAddr = s.sockAddr ∧ s'.recvSem = s.recvSem ∧
      s'.netWorkRecvSem = s.netWorkRecvSem) : NetInv ((s, a) :: h) s' := by
  obtain ⟨hproc, hbuf, haddr, hrs, hns⟩ := hs
  have hh : handed ((s, a) :: h) = handed h := by rw [handed_cons hr, ha]; exact List.append_nil _
  refine ⟨?_, ?_, fun hc => ?_⟩
  · rw [hh, hbuf, haddr]; exact hI.last
  · rw [hh, Waiting, hproc, hrs, hns]; exact hI.waiting
  · rw [hproc] at hc
    obtain ⟨d, addr, hd⟩ := hI.call hc
    refine ⟨d, addr, by rw [datagram_cons he]; exact hd.datagram, by rw [hh]; exact hd.mem, ?_, ?_, ?_, ?_⟩
    · rw [entryBuf_cons he]; exact hd.entry
    · rw [steady_cons he, keepsBuf_of_hands ha, Bool.and_true, entryBuf_cons he, hbuf]; exact hd.buf
    · rw [sameSender_cons he, keepsAddr_of_hands ha, Bool.and_true, haddr]; exact hd.sender
    · rw [steady_cons he, keepsBuf_of_hands ha, Bool.and_true, entryBuf_cons he, hproc]; exact hd.read

theorem NetInv.recv (hI : NetInv h s) (d : List UInt8) (addr : Nat) :
    NetInv ((s, .recv d addr) :: h) (s.deliver d addr) := by
  rcases s.deliver_cases d addr with ⟨hh, -, -, hs⟩ | ⟨hh, c, hs⟩
  · rw [hs]
    have hcons : handed ((s, .recv d addr) :: h) = handed h ++ [(d, addr)] := by rw [handed_cons rfl, hh]; rfl
    refine ⟨?_, ?_, fun hc => ?_⟩
    · intro d' addr' hl
      rw [hcons, List.getLast?_concat] at hl
      cases hl
      show (s.pRecvBuf.write 0 d).read 0 d.length = d ∧ addr = addr
      exact ⟨Mem.read_write, rfl⟩
    · intro _; rw [hcons]; exact List.concat_ne_nil _ _
    · obtain ⟨d₀, addr₀, hd⟩ := hI.call hc
      refine ⟨d₀, addr₀, (datagram_cons rfl).trans hd.datagram, by rw [hcons]; exact List.mem_append_left _ hd.mem,
        by rw [entryBuf_cons rfl]; exact hd.entry, ?_, ?_, ?_⟩
      · rw [steady_cons rfl, entryBuf_cons rfl, Bool.and_eq_true, keepsBuf, hh]
        rintro ⟨hst, hk⟩
        exact (Mem.write_eq_self (by simpa using hk)).trans (hd.buf hst)
      · rw [sameSender_cons rfl, Bool.and_eq_true, keepsAddr, hh]
        rintro ⟨hst, hk⟩
        exact (show addr = s.sockAddr by simpa using hk).trans (hd.sender hst)
      · rw [steady_cons rfl, entryBuf_cons rfl, Bool.and_eq_true]
        exact fun hst => hd.read hst.1
  · rw [hs]
    exact hI.same rfl hh rfl ⟨rfl, rfl, rfl, rfl, rfl⟩

theorem readFrom_downloadAck {buf : Mem} {result : Nat} (hc : cmdCode buf = Cmd.download.code) :
    (s.downloadAck result).ReadFrom buf := ⟨hc, Nat.zero_le 4, rfl⟩

theorem procStep_read (hp : s.procStep = some s') (he : s.enters .proc = false)
    (hr : s.resets .proc = false) :
    s'.pRecvBuf = s.pRecvBuf ∧ s'.sockAddr = s.sockAddr ∧ (s'.Waiting → s.Waiting) ∧
    (s'.proc.inCall = true → s.proc.inCall = true) ∧
    (s.proc.ReadFrom s.pRecvBuf → s'.proc.ReadFrom s.pRecvBuf) := by
  have hst := procStep_cases hp hr
  generalize hpc : s.proc = pc at hst ⊢
  cases hst with
  | entryErase | entryDownload | entryUnknown | entryReply => rw [enters, hpc] at he; cases he
  | block hx =>
    refine ⟨rfl, rfl, fun hw => ?_, (by rintro ⟨⟩), fun _ => trivial⟩
    simp only [Waiting, (Semaphore.count_of_block hx).2, reduceCtorEq, or_self, or_false] at hw
    exact .inr (.inl (hw.resolve_left (Nat.lt_irrefl 0)))
  | idle hx =>
    have hpos : 0 < s.netWorkRecvSem.count := by rw [Semaphore.count_of_take hx]; exact Nat.succ_pos _
    exact ⟨rfl, rfl, fun _ => .inl hpos, (by rintro ⟨⟩), fun _ => trivial⟩
  | tryFails | tryRecv =>
    exact ⟨rfl, rfl, fun _ => .inr (.inr (.inl hpc)), (by rintro ⟨⟩), fun _ => trivial⟩
  | eraseClear =>
    exact ⟨rfl, rfl, fun hw => by simpa [Waiting, hpc, eraseClear] using hw, fun _ => rfl,
      fun h => ⟨h, Nat.zero_le 4, rfl⟩⟩
  | seqRead => exact ⟨rfl, rfl, fun hw => by simpa [Waiting, hpc] using hw, fun _ => rfl, fun h => ⟨h, rfl⟩⟩
  | lenRead =>
    exact ⟨rfl, rfl, fun hw => by simpa [Waiting, hpc] using hw, fun _ => rfl, fun h => ⟨h.1, h.2, rfl⟩⟩
  | pollStore =>
    exact ⟨rfl, rfl, fun hw => by simpa [Waiting, hpc] using hw, fun _ => rfl,
      fun h => ⟨h.1, h.2.1, h.2.2, Nat.zero_le _, rfl⟩⟩
  | copy hlt =>
    refine ⟨rfl, rfl, fun hw => by simpa [Waiting, hpc] using hw, fun _ => rfl, fun h => ?_⟩
    obtain ⟨hc, hq, hn, -, hcop⟩ := h
    refine ⟨hc, hq, hn, by rw [List.length_append, List.length_singleton]; exact hlt, ?_⟩
    rw [List.length_append, List.length_singleton, Mem.read_succ, ← hcop]
  | saved | pollLate | store =>
    exact ⟨rfl, rfl, fun hw => by simpa [Waiting, hpc, downloadAck] using hw, fun _ => rfl,
      fun h => readFrom_downloadAck h.1⟩
  | ackHead hlt =>
    refine ⟨rfl, rfl, fun hw => by simpa [Waiting, hpc] using hw, fun _ => rfl, fun h => ?_⟩
    obtain ⟨hc, -, hhdr⟩ := h
    refine ⟨hc, by rw [List.length_append, List.length_singleton]; exact hlt, ?_⟩
    rw [List.length_append, List.length_singleton, Mem.read_succ, ← hhdr]
  | ackSend hge =>
    refine ⟨rfl, rfl, fun hw => by simpa [Waiting, hpc] using hw, fun _ => rfl, fun h => ?_⟩
    obtain ⟨hc, hle, hhdr⟩ := h
    exact ⟨hc, by rwa [Nat.le_antisymm hle hge] at hhdr⟩
  | ackTake => exact ⟨rfl, rfl, fun hw => by simpa [Waiting, hpc] using hw, fun _ => rfl, fun h => h.1⟩
  | _ =>
    refine ⟨rfl, rfl, fun hw => by simpa [Waiting, hpc] using hw, fun _ => rfl, ?_⟩
    first | exact id | exact fun _ => trivial

theorem readFrom_dispatch : s.dispatch.ReadFrom s.pRecvBuf := by
  rcases s.dispatch_cases with ⟨hc, hd⟩ | ⟨hc, hd⟩ | hd | ⟨cmd, sendbuf, -, -, hc, hd⟩ <;> rw [hd]
  exacts [hc, hc, trivial, ⟨hc, Nat.zero_le 4, rfl⟩]

theorem NetInv.proc (hI : NetInv h s) (hr : s.resets .proc = false) (hp : s.procStep = some s') :
    NetInv ((s, .proc) :: h) s' := by
  have hh : handed ((s, .proc) :: h) = handed h := by rw [handed_cons hr]; exact List.append_nil _
  cases he : s.enters .proc with
  | true =>
    have hne := hI.waiting (.inr (.inr (.inr (by simpa [enters] using he))))
    rw [procStep_entry hp he]
    obtain ⟨⟨d, addr⟩, hl⟩ := Option.ne_none_iff_exists'.1 (mt List.getLast?_eq_none_iff.1 hne)
    obtain ⟨hbuf, haddr⟩ := hI.last d addr hl
    refine ⟨by rw [hh]; exact hI.last, fun _ => by rw [hh]; exact hne, fun _ => ⟨d, addr, ?_⟩⟩
    refine ⟨by rw [datagram, he]; exact hl, by rw [hh]; exact List.mem_of_getLast? hl, ?_, ?_, fun _ => haddr,
      ?_⟩
    · rw [entryBuf, he]; exact hbuf
    · rw [entryBuf, he]; exact fun _ => rfl
    · rw [entryBuf, he]; exact fun _ => readFrom_dispatch
  | false =>
    obtain ⟨hbuf, haddr, hwait, hin, hread⟩ := procStep_read hp he hr
    refine ⟨by rw [hh, hbuf, haddr]; exact hI.last, fun hw => by rw [hh]; exact hI.waiting (hwait hw),
      fun hc => ?_⟩
    obtain ⟨d, addr, hd⟩ := hI.call (hin hc)
    have hst : steady ((s, .proc) :: h) = steady h := by
      rw [steady_cons he, keepsBuf_of_hands rfl, Bool.and_true]
    refine ⟨d, addr, by rw [datagram_cons he]; exact hd.datagram, by rw [hh]; exact hd.mem,
      by rw [entryBuf_cons he]; exact hd.entry, ?_, ?_, ?_⟩
    · rw [hst, entryBuf_cons he, hbuf]; exact hd.buf
    · rw [sameSender_cons he, keepsAddr_of_hands rfl, Bool.and_true, haddr]; exact hd.sender
    · rw [hst, entryBuf_cons he]
      intro hs
      rw [← hd.buf hs]
      exact hread (hd.buf hs ▸ hd.read hs)

theorem NetInv.next (hI : NetInv h s) (ha : step a s = some s') : NetInv ((s, a) :: h) s' := by
  cases step_cases ha with
  | reset e he hr hs => rw [hs]; exact .reset hr
  | recv d addr hc hs => rw [hs]; exact hI.recv d addr
  | proc hr hp => exact hI.proc hr hp
  | upd hw hr hy hu =>
    have hsame := updStep_net hu hr
    exact hI.same hr rfl rfl
      ⟨hsame.proc, hsame.pRecvBuf, hsame.sockAddr, hsame.recvSem, hsame.netWorkRecvSem⟩
  | other e n t m c hr h₁ h₂ h₃ hs =>
    rw [hs]
    exact hI.same hr (hands_ne_recv h₁) (enters_ne_proc h₂) ⟨rfl, rfl, rfl, rfl, rfl⟩

theorem NetInv.of_run (hr : system.Run h s) : NetInv h s :=
  hr.inv' (fun s hs => by
    rw [show s = Device.reset s.flash s.eeprom from hs]
    refine ⟨(by rintro _ _ ⟨⟩), ?_, (by rintro ⟨⟩)⟩
    rintro (h | h | h | h) <;> cases h) fun _ _ _ _ => NetInv.next

end

end Device

end Bootloader
