import Bootloader.Receive

/-!
# The replies

`UDPSendAck` reads the frame index and the packet index back from the receive buffer, and `sendto` the
address of the sender from `UDPRecvInfo`. A reply is the one to the datagram that is processed if no
other one has arrived since `UDPPacketProcess` was called.
-/

namespace Bootloader

/-! ### The frame -/

section
variable {m : Mem} {cmd : Cmd} {sendbuf hdr : List UInt8}

theorem read_ackFrame : (ofList (ackFrame cmd sendbuf (m.read 5 4))).read 5 4 = m.read 5 4 := rfl

theorem cmdCode_ackFrame : cmdCode (ofList (ackFrame cmd sendbuf hdr)) = cmd.code := by cases cmd <;> rfl

theorem ackFrame_result (h : ofList (ackFrame cmd sendbuf (m.read 5 4)) 16 = 1) :
    ∃ rest, sendbuf = 1 :: rest := by
  cases sendbuf with
  | nil => cases h
  | cons r rest => exact ⟨rest, congrArg (· :: rest) h⟩

end

/-- `UDPSendAck` is about to answer a `DOWNLOAD` with result 1. -/
def ProcPc.positive : ProcPc → Bool
  | .ackHead cmd sendbuf _ | .ackTake cmd sendbuf _ => cmd == .download && sendbuf.head? == some 1
  | _ => false

namespace Device

/-- A reply carries the frame index and the packet index of the datagram that is processed and goes to
its sender; a positive one to `DOWNLOAD` is for a packet that has been stored. -/
def ReplyOk (h : List (Device × Act)) (s : Device) (a : Act) : Prop :=
  ∀ x ∈ s.sends a, ∃ y ∈ datagram h, x.2 = y.2 ∧ 9 ≤ y.1.length ∧
    (ofList x.1).read 5 4 = (ofList y.1).read 5 4 ∧
    (cmdCode (ofList x.1) = Cmd.download.code → ofList x.1 16 = 1 →
      packetIndex (ofList x.1) ∈ seqs (stored h))

instance (h : List (Device × Act)) (s : Device) (a : Act) : Decidable (ReplyOk h s a) :=
  inferInstanceAs (Decidable (∀ x ∈ s.sends a, ∃ y ∈ datagram h, _))

/-- A reply is sent only if no datagram has changed the receive buffer or the address since
`UDPPacketProcess` was called and the datagram has a header, and a slot is handed back only if no
`ERASE_FLASH` has cleared it. -/
def ReplyGuard (h : List (Device × Act)) (s : Device) (a : Act) : Prop :=
  s.HandsBackUsed a ∧ ((s.sends a).isSome = true →
    steady h = true ∧ sameSender h = true ∧ ((datagram h).any fun x => 9 ≤ x.1.length) = true)

instance (h : List (Device × Act)) (s : Device) (a : Act) : Decidable (ReplyGuard h s a) :=
  inferInstanceAs (Decidable (_ ∧ ((s.sends a).isSome = true → _)))

structure ReplyInv (h : List (Device × Act)) (s : Device) : Prop where
  slot : ∀ i, i < fileBufferNum → (s.fileBuf i).state ≠ .init → (s.fileBuf i).seq ∈ seqs (stored h)
  positive : s.proc.positive = true → steady h = true → packetIndex (entryBuf h) ∈ seqs (stored h)

variable {h : List (Device × Act)} {s s' : Device} {a : Act}

theorem ReplyInv.same (hI : ReplyInv h s) (hr : s.resets a = false) (ha : a ≠ .proc)
    (hproc : s'.proc = s.proc) (hseq : ∀ i, (s'.fileBuf i).seq = (s.fileBuf i).seq)
    (hu : ∀ i, (s'.fileBuf i).state ≠ .init → (s.fileBuf i).state ≠ .init) : ReplyInv ((s, a) :: h) s' := by
  have he := enters_ne_proc (s := s) ha
  refine ⟨fun i hi hne => ?_, fun hp hst => ?_⟩
  · rw [stored_ne_proc hr ha, hseq]; exact hI.slot i hi (hu i hne)
  · rw [steady_cons he, Bool.and_eq_true] at hst
    rw [stored_ne_proc hr ha, entryBuf_cons he]
    exact hI.positive (by rwa [hproc] at hp) hst.1

theorem procStep_positive (hp : s.procStep = some s') (hr : s.resets .proc = false)
    (hpos : s'.proc.positive = true) :
    s.proc.positive = true ∨ (∃ q n, s.proc = .saveFile q n ∧ alreadySaved s.fileBuf q = true) ∨
    ∃ i q n l, s.proc = .copy i q n l ∧ ¬ l.length < n := by
  have hst := procStep_cases hp hr
  generalize s.proc = pc at hst ⊢
  cases hst with
  | @saved q n hdup => exact .inr (.inl ⟨q, n, rfl, hdup⟩)
  | @store i q n l hge => exact .inr (.inr ⟨i, q, n, l, rfl, hge⟩)
  | entryReply _ hdl => exact absurd (eq_of_beq (Bool.and_eq_true_iff.1 hpos).1) hdl
  | ackHead | ackSend => exact .inl hpos
  | _ => cases hpos

theorem ReplyInv.proc (hN : NetInv h s) (hI : ReplyInv h s) (hr : s.resets .proc = false)
    (hp : s.procStep = some s') : ReplyInv ((s, .proc) :: h) s' := by
  constructor
  · rcases procStep_fileBuf hp hr with ⟨-, -, hfb⟩ | ⟨hc, i, q, n, l, -, -, hs, hfb⟩ | ⟨hc, hs, hfb⟩
    · intro j _ hne
      rw [hfb] at hne
      exact absurd rfl hne
    · intro j hj hne
      rw [hfb] at hne ⊢
      rw [stored_cons hr hc, hs]
      by_cases hji : j = i
      · rw [hji, FileBufs.store, FileBufs.set_self]; exact List.mem_cons_self
      · rw [FileBufs.store, FileBufs.set_of_ne hji] at hne ⊢
        exact List.mem_cons_of_mem _ (hI.slot j hj hne)
    · intro j hj hne
      rw [stored_cons hr hc, hs, hfb]
      exact hI.slot j hj (by rwa [hfb] at hne)
  · intro hpos hst
    have hkeep : ∀ k, k ∈ seqs (stored h) → s.proc ≠ .eraseClear → k ∈ seqs (stored ((s, .proc) :: h)) := by
      intro k hk hpc
      rw [stored_cons hr (by simpa [clears] using hpc), seqs, List.map_append]
      exact List.mem_append_right _ hk
    have he : s.enters .proc = false := by
      cases he : s.enters .proc with
      | false => rfl
      | true =>
        have hpc : s.proc = .entry := by simpa [enters] using he
        rcases procStep_positive hp hr hpos with h | ⟨_, _, h, -⟩ | ⟨_, _, _, _, h, -⟩ <;> rw [hpc] at h <;>
          cases h
    rw [steady_cons he, Bool.and_eq_true] at hst
    rw [entryBuf_cons he]
    rcases procStep_positive hp hr hpos with hold | ⟨q, n, hpc, hdup⟩ | ⟨i, q, n, l, hpc, hge⟩
    · exact hkeep _ (hI.positive hold hst.1) fun hpc => by rw [hpc] at hold; cases hold
    · obtain ⟨j, hj, hseq, hne⟩ := alreadySaved_eq_true.1 hdup
      obtain ⟨d, addr, hd⟩ := hN.call (by rw [hpc]; rfl)
      have hread := hd.read hst.1
      rw [hpc] at hread
      rw [← hread.2.1, ← hseq]
      exact hkeep _ (hI.slot j hj hne) (by rw [hpc]; rintro ⟨⟩)
    · obtain ⟨d, addr, hd⟩ := hN.call (by rw [hpc]; rfl)
      have hread := hd.read hst.1
      rw [hpc] at hread
      rw [← hread.2.1, stored_cons hr (by simp [clears, hpc])]
      simp [stores, hpc, hge, seqs]

theorem ReplyInv.next (hN : NetInv h s) (hI : ReplyInv h s) (hu : s.HandsBackUsed a)
    (ha : step a s = some s') : ReplyInv ((s, a) :: h) s' := by
  cases step_cases ha with
  | reset e he hr hs => rw [hs]; exact ⟨fun i _ hne => absurd rfl hne, (by rintro ⟨⟩)⟩
  | recv d addr hc hs =>
    rcases s.deliver_cases d addr with ⟨-, -, -, hs'⟩ | ⟨-, c, hs'⟩ <;> rw [hs, hs'] <;>
      exact hI.same rfl (by rintro ⟨⟩) rfl (fun _ => rfl) fun _ => id
  | proc hr hp => exact hI.proc hN hr hp
  | upd hw hr hy hp =>
    have hsame := updStep_net hp hr
    exact hI.same hr (by rintro ⟨⟩) hsame.proc hsame.seq (hsame.used hu)
  | other e n t m c hr h₁ h₂ h₃ hs =>
    rw [hs]
    exact hI.same hr h₂ rfl (fun _ => rfl) fun _ => id

theorem ReplyInv.sends (hN : NetInv h s) (hI : ReplyInv h s) (hg : ReplyGuard h s a) : ReplyOk h s a := by
  intro x hx
  obtain ⟨hst, hsender, hany⟩ := hg.2 (by rw [hx]; rfl)
  cases a with
  | proc =>
    cases hpc : s.proc with
    | ackTake cmd sendbuf hdr =>
      simp only [Device.sends, hpc, Option.mem_some_iff] at hx
      subst hx
      obtain ⟨d, addr, hd⟩ := hN.call (by rw [hpc]; rfl)
      have hread := hd.read hst
      rw [hpc] at hread
      obtain ⟨-, rfl⟩ := hread
      rw [hd.datagram] at hany
      have h9 : 9 ≤ d.length := by simpa using hany
      refine ⟨(d, addr), hd.datagram, hd.sender hsender, h9, ?_, fun hcmd hres => ?_⟩
      · rw [read_ackFrame, read_ofList hd.entry h9]
      · rw [packetIndex_ackFrame]
        rw [cmdCode_ackFrame] at hcmd
        have hcmd : cmd = .download := by cases cmd <;> first | rfl | cases hcmd
        obtain ⟨rest, hrest⟩ := ackFrame_result hres
        exact hI.positive (by rw [hpc, hcmd, hrest]; rfl) hst
    | _ => simp only [Device.sends, hpc] at hx; cases hx
  | _ => cases hx

theorem ReplyInv.of_run (hr : system.Run h s) (hg : Lts.Guarded ReplyGuard h) :
    ReplyInv h s ∧ Lts.Guarded ReplyOk h := by
  induction hr with
  | init hi =>
    rw [show _ = Device.reset _ _ from hi]
    exact ⟨⟨fun i _ hne => absurd rfl hne, (by rintro ⟨⟩)⟩, trivial⟩
  | step hr ha ih =>
    obtain ⟨hI, hok⟩ := ih hg.2
    exact ⟨hI.next (.of_run hr) hg.1.1 ha, hI.sends (.of_run hr) hg.1, hok⟩

end Device

end Bootloader
