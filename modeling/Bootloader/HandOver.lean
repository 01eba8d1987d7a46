import Bootloader.Receive

/-!
# The hand-over of datagrams

Two counting semaphores of 16 bits remember how many datagrams have arrived, one buffer remembers the
last one. `UDPPacketProcess` is called once on each datagram, in the order of arrival, if no datagram
arrives that changes the receive buffer while an earlier one waits or is still being read, and none when
the semaphores are full.
-/

namespace Bootloader

/-- `UDPPacketProcess` may still read the receive buffer. -/
def ProcPc.reads : ProcPc → Bool
  | .eraseClear | .seqRead | .lenRead _ | .saveFile .. | .poll .. | .sleep .. | .copy .. | .ackHead ..
  | .eraseLength | .eraseCheckSum => true
  | .ackTake cmd _ _ | .ackWait cmd => cmd == .eraseFlash
  | _ => false

namespace Device

/-- A receive buffer that starts with the datagram `k` of those handed over. -/
def Holds (h : List (Device × Act)) (k : Nat) (buf : Mem) : Prop :=
  ∃ x ∈ (handed h)[k]?, buf.read 0 x.1.length = x.1

instance (h : List (Device × Act)) (k : Nat) (buf : Mem) : Decidable (Holds h k buf) :=
  inferInstanceAs (Decidable (∃ x ∈ (handed h)[k]?, _))

/-- The call `k` of `UDPPacketProcess` is on the datagram `k`, all that it reads belongs to this
datagram, and when nothing is left to do all datagrams have been processed. -/
def HandOver (h : List (Device × Act)) (s : Device) : Prop :=
  (∀ k, k < (entered h).length → ∃ buf ∈ (entered h)[k]?, Holds h k buf) ∧
  (s.proc.reads = true → Holds h ((entered h).length - 1) s.pRecvBuf) ∧
  (s.proc = .idle → s.netWorkRecvSem.count = 0 → (entered h).length = (handed h).length)

instance (h : List (Device × Act)) (s : Device) : Decidable (HandOver h s) :=
  inferInstanceAs (Decidable ((∀ k, k < (entered h).length → _) ∧ (s.proc.reads = true → _) ∧
    (s.proc = .idle → s.netWorkRecvSem.count = 0 → _)))

/-- The datagrams handed over on which `UDPPacketProcess` has not been called. -/
def pending (s : Device) : Nat :=
  s.netWorkRecvSem.count + if s.proc = .tryRecv ∨ s.proc = .entry then 1 else 0

/-- A datagram arrives only when none waits and none is being read, or when it does not change the receive
buffer and `RecvSem` is not full. -/
def HandGuard (_ : List (Device × Act)) (s : Device) (a : Act) : Prop :=
  (∀ x ∈ hands a, s.pending = 0 ∧ s.proc.reads = false) ∨ (s.keepsBuf a = true ∧ s.recvSem < 65535)

instance (h : List (Device × Act)) (s : Device) (a : Act) : Decidable (HandGuard h s a) :=
  inferInstanceAs (Decidable ((∀ x ∈ hands a, _) ∨ (_ ∧ _)))

structure HandInv (h : List (Device × Act)) (s : Device) : Prop where
  sem : s.recvSem = s.netWorkRecvSem.count + if s.proc = .tryRecv then 1 else 0
  count : (entered h).length + s.pending = (handed h).length
  done : ∀ k buf, (entered h)[k]? = some buf → Holds h k buf
  waiting : ∀ k, (entered h).length ≤ k → k < (handed h).length → Holds h k s.pRecvBuf
  reads : s.proc.reads = true → 0 < (entered h).length ∧ Holds h ((entered h).length - 1) s.pRecvBuf

variable {h : List (Device × Act)} {s s' : Device} {a : Act}

theorem entered_cons (hr : s.resets a = false) :
    entered ((s, a) :: h) = if s.enters a then entered h ++ [s.pRecvBuf] else entered h :=
  Lts.foldSince_cons hr

theorem Holds.congr {k : Nat} {buf : Mem} (hh : handed ((s, a) :: h) = handed h) (hk : Holds h k buf) :
    Holds ((s, a) :: h) k buf := by rwa [Holds, hh]

theorem HandInv.handOver (hI : HandInv h s) : HandOver h s := by
  refine ⟨fun k hk => ?_, fun hp => (hI.reads hp).2, fun hp h0 => ?_⟩
  · exact ⟨_, List.getElem?_eq_getElem hk, hI.done k _ (List.getElem?_eq_getElem hk)⟩
  · have := hI.count
    rw [pending, hp, h0, if_neg (by rintro (h | h) <;> cases h)] at this
    exact this

theorem HandInv.same (hI : HandInv h s) (hr : s.resets a = false) (ha : hands a = none)
    (he : s.enters a = false) (hbuf : s'.pRecvBuf = s.pRecvBuf)
    (hsem : s'.recvSem = s'.netWorkRecvSem.count + if s'.proc = .tryRecv then 1 else 0)
    (hp : s'.pending = s.pending) (hread : s'.proc.reads = true → s.proc.reads = true) :
    HandInv ((s, a) :: h) s' := by
  have hh : handed ((s, a) :: h) = handed h := by rw [handed_cons hr, ha]; exact List.append_nil _
  have hen : entered ((s, a) :: h) = entered h := by rw [entered_cons hr, he]; rfl
  refine ⟨hsem, by rw [hen, hh, hp]; exact hI.count, fun k buf hk => ?_, fun k h₁ h₂ => ?_, fun hre => ?_⟩
  · rw [hen] at hk; exact (hI.done k buf hk).congr hh
  · rw [hen] at h₁
    rw [hh] at h₂
    rw [hbuf]; exact (hI.waiting k h₁ h₂).congr hh
  · rw [hen, hbuf]
    obtain ⟨h0, hk⟩ := hI.reads (hread hre)
    exact ⟨h0, hk.congr hh⟩

theorem HandInv.recv (hI : HandInv h s) {d : List UInt8} {addr : Nat} (hg : HandGuard h s (.recv d addr)) :
    HandInv ((s, .recv d addr) :: h) (s.deliver d addr) := by
  rcases s.deliver_cases d addr with ⟨hh, -, -, hs⟩ | ⟨hh, c, hs⟩
  · rw [hs]
    have hcons : handed ((s, .recv d addr) :: h) = handed h ++ [(d, addr)] := by rw [handed_cons rfl, hh]; rfl
    have hen : entered ((s, .recv d addr) :: h) = entered h := entered_cons rfl
    have hcount := hI.count
    -- what the earlier datagrams need of the buffer is still there
    have hold : ∀ k, k < (handed h).length → (s.pending ≠ 0 ∨ s.proc.reads = true) → Holds h k s.pRecvBuf →
        Holds ((s, .recv d addr) :: h) k (s.pRecvBuf.write 0 d) := by
      intro k hk hbusy hkeep
      rcases hg with hfree | hsame
      · obtain ⟨h0, hnr⟩ := hfree _ hh
        rcases hbusy with hbusy | hbusy
        · exact absurd h0 hbusy
        · rw [hnr] at hbusy; cases hbusy
      · have hsame := hsame.1
        rw [keepsBuf, hh] at hsame
        rw [Mem.write_eq_self (by simpa using hsame), Holds, hcons, List.getElem?_append_left hk]
        exact hkeep
    -- neither semaphore wraps around
    have hlt : s.recvSem < 65535 := by
      rcases hg with hfree | hsame
      · have hle : s.recvSem ≤ s.pending := by
          rw [hI.sem, pending]
          refine Nat.add_le_add_left ?_ _
          by_cases ht : s.proc = .tryRecv
          · rw [if_pos ht, if_pos (.inl ht)]
          · rw [if_neg ht]; exact Nat.zero_le _
        have := (hfree _ hh).1
        omega
      · exact hsame.2
    have hle : s.netWorkRecvSem.count ≤ s.recvSem := by rw [hI.sem]; exact Nat.le_add_right _ _
    have hrel : s.netWorkRecvSem.release.count = s.netWorkRecvSem.count + 1 :=
      Semaphore.count_release (Nat.lt_of_le_of_lt (Nat.le_trans Semaphore.value_le_count hle) hlt)
    refine ⟨?_, ?_, fun k buf hk => ?_, fun k h₁ h₂ => ?_, fun hre => ?_⟩
    · show Semaphore.countUp s.recvSem = s.netWorkRecvSem.release.count + if s.proc = .tryRecv then 1 else 0
      rw [Semaphore.countUp, Nat.mod_eq_of_lt (by omega), hrel, hI.sem, Nat.add_right_comm]
    · rw [hen, hcons, List.length_append, List.length_singleton, ← hcount]
      simp only [pending, hrel]; omega
    · rw [hen] at hk
      have hlt : k < (handed h).length := by
        have := (List.getElem?_eq_some_iff.1 hk).1
        omega
      rw [Holds, hcons, List.getElem?_append_left hlt]
      exact hI.done k buf hk
    · rw [hen] at h₁
      rw [hcons, List.length_append, List.length_singleton] at h₂
      by_cases hlt : k < (handed h).length
      · exact hold k hlt (.inl (by omega)) (hI.waiting k h₁ hlt)
      · rw [Holds, hcons, show k = (handed h).length from by omega, List.getElem?_concat_length]
        refine ⟨_, rfl, ?_⟩
        show (s.pRecvBuf.write 0 d).read 0 d.length = d
        exact Mem.read_write
    · obtain ⟨h0, hk⟩ := hI.reads hre
      rw [hen]
      exact ⟨h0, hold _ (by omega) (.inr hre) hk⟩
  · rw [hs]
    exact hI.same rfl hh rfl rfl hI.sem rfl id

theorem procStep_pending (hp : s.procStep = some s') (he : s.enters .proc = false)
    (hr : s.resets .proc = false)
    (hsem : s.recvSem = s.netWorkRecvSem.count + if s.proc = .tryRecv then 1 else 0) :
    s'.recvSem = (s'.netWorkRecvSem.count + if s'.proc = .tryRecv then 1 else 0) ∧ s'.pending = s.pending ∧
    (s'.proc.reads = true → s.proc.reads = true) := by
  have hst := procStep_cases hp hr
  generalize hpc : s.proc = pc at hst hsem ⊢
  cases hst with
  | entryErase | entryDownload | entryUnknown | entryReply => rw [enters, hpc] at he; cases he
  | block hx =>
    obtain ⟨h0, h0'⟩ := Semaphore.count_of_block hx
    simp only [pending, hpc, ProcPc.reads, reduceCtorEq, or_self, if_false, h0, h0'] at hsem ⊢
    exact ⟨hsem, trivial, id⟩
  | idle hx =>
    have hcount := Semaphore.count_of_take hx
    simp only [pending, hpc, ProcPc.reads, reduceCtorEq, or_self, if_false, if_true, true_or] at hsem ⊢
    exact ⟨by omega, by omega, id⟩
  | tryFails h0 =>
    rw [if_pos rfl] at hsem
    omega
  | tryRecv => simp [pending, hpc, ProcPc.reads, hsem]
  | eraseClear => simpa [pending, hpc, ProcPc.reads, eraseClear] using hsem
  | saved | pollLate | store => simpa [pending, hpc, ProcPc.reads, downloadAck] using hsem
  | _ => simpa [pending, hpc, ProcPc.reads] using hsem

theorem HandInv.proc (hI : HandInv h s) (hr : s.resets .proc = false) (hp : s.procStep = some s')
    (hbuf : s.enters .proc = false → s'.pRecvBuf = s.pRecvBuf) : HandInv ((s, .proc) :: h) s' := by
  cases he : s.enters .proc with
  | false =>
    obtain ⟨hsem, hpend, hread⟩ := procStep_pending hp he hr hI.sem
    exact hI.same hr rfl he (hbuf he) hsem hpend hread
  | true =>
    have hpc : s.proc = .entry := by simpa [enters] using he
    have hh : handed ((s, .proc) :: h) = handed h := by rw [handed_cons hr]; exact List.append_nil _
    have hen : entered ((s, .proc) :: h) = entered h ++ [s.pRecvBuf] := by rw [entered_cons hr, he]; rfl
    have hcount := hI.count
    rw [pending, hpc, if_pos (.inr rfl)] at hcount
    have hsem := hI.sem
    rw [hpc, if_neg (by rintro ⟨⟩), Nat.add_zero] at hsem
    have hnow : Holds h (entered h).length s.pRecvBuf := hI.waiting _ (Nat.le_refl _) (by omega)
    have hne : s.dispatch ≠ .tryRecv ∧ s.dispatch ≠ .entry := by
      rcases s.dispatch_cases with ⟨-, hd⟩ | ⟨-, hd⟩ | hd | ⟨cmd, sendbuf, -, -, -, hd⟩ <;> rw [hd] <;>
        exact ⟨(by rintro ⟨⟩), (by rintro ⟨⟩)⟩
    rw [procStep_entry hp he]
    refine ⟨?_, ?_, fun k buf hk => ?_, fun k h₁ h₂ => ?_, fun _ => ?_⟩
    · rw [if_neg hne.1]; exact hsem
    · rw [hen, hh, List.length_append, List.length_singleton, pending, if_neg (by simpa using hne)]
      dsimp only; omega
    · rw [hen] at hk
      refine Holds.congr hh ?_
      by_cases hlt : k < (entered h).length
      · rw [List.getElem?_append_left hlt] at hk; exact hI.done k buf hk
      · have hle := (List.getElem?_eq_some_iff.1 hk).1
        rw [List.length_append, List.length_singleton] at hle
        have hkn : k = (entered h).length := by omega
        subst hkn
        rw [List.getElem?_concat_length] at hk
        cases hk; exact hnow
    · rw [hen, List.length_append, List.length_singleton] at h₁
      rw [hh] at h₂
      exact (hI.waiting k (by omega) h₂).congr hh
    · rw [hen, List.length_append, List.length_singleton]
      exact ⟨Nat.succ_pos _, hnow.congr hh⟩

theorem HandInv.next (hI : HandInv h s) (hg : HandGuard h s a) (ha : step a s = some s') :
    HandInv ((s, a) :: h) s' := by
  cases step_cases ha with
  | reset e he hr hs =>
    rw [hs]
    have hh := handed_reset (h := h) hr
    have hen : entered ((s, a) :: h) = [] := Lts.foldSince_of_reset hr
    refine ⟨rfl, by rw [hh, hen]; rfl, fun k buf hk => ?_, fun k _ hk => ?_, (by rintro ⟨⟩)⟩
    · rw [hen] at hk; cases hk
    · rw [hh] at hk; exact absurd hk (Nat.not_lt_zero k)
  | recv d addr hc hs => rw [hs]; exact hI.recv hg
  | proc hr hp => exact hI.proc hr hp fun he => (procStep_read hp he hr).1
  | upd hw hr hy hu =>
    have hsame := updStep_net hu hr
    refine hI.same hr rfl rfl hsame.pRecvBuf ?_ ?_ ?_
    · rw [hsame.recvSem, hsame.netWorkRecvSem, hsame.proc]; exact hI.sem
    · rw [pending, pending, hsame.netWorkRecvSem, hsame.proc]
    · rw [hsame.proc]; exact id
  | other e n t m c hr h₁ h₂ h₃ hs =>
    rw [hs]
    exact hI.same hr (hands_ne_recv h₁) (enters_ne_proc h₂) rfl hI.sem rfl id

/-- In a run whose steps meet the condition, every datagram is processed once, in the order of arrival. -/
theorem handOver_of_run (hr : system.Run h s) (hg : Lts.Guarded HandGuard h) : HandOver h s := by
  refine (hr.inv (I := HandInv) (fun s hs => ?_) (fun _ _ _ _ hI hC ha => hI.next hC ha) hg).handOver
  rw [show s = reset s.flash s.eeprom from hs]
  exact ⟨rfl, rfl, (by rintro _ _ ⟨⟩), fun k _ hk => absurd hk (Nat.not_lt_zero k), (by rintro ⟨⟩)⟩

/-- Two datagrams, the second one after the first has been answered. -/
theorem handOver_of_run_two : ∃ h s, system.Run h s ∧ (entered h).length = 2 ∧ HandOver h s := by
  obtain ⟨h, s, hr, hn, hg⟩ := Lts.exists_run_of_exec (S := system)
    (P := fun h _ => (entered h).length = 2 ∧ Lts.Guarded HandGuard h)
    (bootActs ++ [.recv (hostFrame .enterBoot 0 []) 7] ++ procs 10 ++
      [.recv (hostFrame .quaryCheckSum 1 []) 7] ++ procs 11)
    (init_reset (fun _ => 0) (eepromOf 1)) (by decide +kernel)
  exact ⟨h, s, hr, hn, handOver_of_run hr hg⟩

/-- Two datagrams arrive before the process thread runs: the first one is skipped, the second one is
processed twice. -/
theorem handOver_of_two_waiting : ∃ h s, system.Run h s ∧ ¬ HandOver h s :=
  Lts.exists_run_of_exec
    (bootActs ++ [.recv (hostFrame .enterBoot 0 []) 7, .recv (hostFrame .quaryCheckSum 1 []) 7] ++ procs 21)
    (init_reset (fun _ => 0) (eepromOf 1)) (by decide +kernel)

end Device

end Bootloader
