import Bootloader.EraseRequest
import Bootloader.Image

/-!
# The loop of Download

`Download` hands a slot back in the middle of an iteration and reads its length afterwards
(`addLength`), so the process thread may store another packet in the slot between the two. The offsets
are those of the packets as long as such a packet has the same length, and `ERASE_FLASH` does not clear
the variables while `Download` runs.
-/

namespace Bootloader

/-- `Download` has a packet to wait for or to program. -/
def UpdPc.consumes : UpdPc → Bool
  | .getIndex .. | .words .. | .zeroArgs .. | .zeroRest .. | .fetch .. | .program .. | .release ..
  | .addLength .. | .setLength .. | .setProgress .. => true
  | _ => false

def UpdPc.inDownload : UpdPc → Bool
  | .loopTest .. => true
  | q => q.consumes

/-- The slot whose length `Download` still has to read after it has handed it back. -/
def UpdPc.readsBack : UpdPc → Option Nat
  | .addLength _ _ b => some b
  | _ => none

def UpdPc.counts : UpdPc → Bool
  | .release .. | .setLength .. => true
  | _ => false

def UpdPc.word : UpdPc → Option (Nat × List UInt8)
  | .program _ _ _ _ j data => some (j, data)
  | _ => none

/-- `ERASE_FLASH` has cleared `CodeTotalLength` and not set it yet. -/
def ProcPc.awaitsLength : ProcPc → Bool
  | .ackHead .eraseFlash .. | .ackTake .eraseFlash .. | .ackWait .eraseFlash | .eraseLength => true
  | _ => false

/-! ### The invariant of the loop -/

/-- Slot `b` holds packet `k`, which has not been consumed. -/
structure Ready (fb : FileBufs) (b k : Nat) : Prop where
  lt : b < fileBufferNum
  state : (fb b).state = .receiveOk
  seq : (fb b).seq = k

/-- `n` words of slot `b` hold its payload and zeroes. -/
structure Padded (fb : FileBufs) (b n : Nat) : Prop where
  num : n = (fb b).wordDataNum
  data : (fb b).data.read 0 (4 * n) = pad4 (fb b).payload

/-- The `memset` of `Download` has zeroed `Data` of slot `b` from the end of its payload to byte `k`; the slot
is one of `n` words. -/
structure Zeroed (fb : FileBufs) (b n k : Nat) : Prop where
  num : n = (fb b).wordDataNum
  rest : (fb b).dataLen % 4 ≠ 0
  behind : (fb b).dataLen ≤ k
  data : ∀ x, (fb b).dataLen ≤ x → x < k → (fb b).data x = 0

/-- After `k` iterations that have consumed `c` packets: the counter of the packets and the offset. -/
structure Iterated (st : List (Nat × List UInt8)) (k c codeDownloadLength fileseq : Nat) : Prop where
  seq : fileseq = k % 65536
  offset : codeDownloadLength = offsetOf st k
  back : c = k

/-- The same between the hand-over of the slot of packet `k` and the end of the iteration. -/
structure Released (st : List (Nat × List UInt8)) (k c codeDownloadLength fileseq : Nat) : Prop where
  seq : fileseq = k % 65536
  offset : codeDownloadLength = offsetOf st k
  back : c = k + 1

/-- The locals of `Download` after `k` iterations, when the packets `st` have been stored and `c` of
them consumed. -/
def UpdPc.LoopInv (st : List (Nat × List UInt8)) (k c codeDownloadLength : Nat) (fb : FileBufs) : UpdPc → Prop
  | .loopTest i fileseq | .getIndex i fileseq _ | .setProgress i fileseq =>
    Iterated st k c codeDownloadLength fileseq ∧ i = codeDownloadLength
  | .words i fileseq b | .release i fileseq b =>
    (Iterated st k c codeDownloadLength fileseq ∧ i = codeDownloadLength) ∧ Ready fb b k
  | .zeroArgs i fileseq b n =>
    (Iterated st k c codeDownloadLength fileseq ∧ i = codeDownloadLength) ∧ Ready fb b k ∧
      n = (fb b).wordDataNum ∧ (fb b).dataLen % 4 ≠ 0
  | .zeroRest i fileseq b n m =>
    (Iterated st k c codeDownloadLength fileseq ∧ i = codeDownloadLength) ∧ Ready fb b k ∧ Zeroed fb b n m
  | .fetch i fileseq b n j =>
    (Iterated st k c codeDownloadLength fileseq ∧ i = codeDownloadLength) ∧ Ready fb b k ∧ Padded fb b n ∧ j ≤ n
  | .program i fileseq b n j data =>
    (Iterated st k c codeDownloadLength fileseq ∧ i = codeDownloadLength) ∧ Ready fb b k ∧ Padded fb b n ∧
      j < n ∧ data = wordOf (fb b).payload j
  | .addLength i fileseq b =>
    (Released st k c codeDownloadLength fileseq ∧ i = codeDownloadLength) ∧
      (fb b).dataLen = (payloadOf st k).length
  | .setLength i fileseq => Released st k c codeDownloadLength fileseq ∧ i = offsetOf st (k + 1)
  | _ => True

/-- What `SaveFileToBuf` has found in the slots. -/
def ProcPc.SaveInv (fb : FileBufs) : ProcPc → Prop
  | .lenRead iSeq => iSeq < 65536
  | .saveFile iSeq iDataLen => iSeq < 65536 ∧ iDataLen ≤ 1024
  | .poll iSeq iDataLen _ | .sleep iSeq iDataLen _ =>
    (iSeq < 65536 ∧ iDataLen ≤ 1024) ∧ alreadySaved fb iSeq = false
  | .copy i iSeq iDataLen copied =>
    (iSeq < 65536 ∧ iDataLen ≤ 1024) ∧ alreadySaved fb iSeq = false ∧ copied.length ≤ iDataLen ∧
      pollSlot fb iSeq = .store i
  | _ => True

section
variable {st : List (Nat × List UInt8)} {k c x : Nat} {fb : FileBufs} {pc : UpdPc} {b i j n s : Nat}
  {l : List UInt8}

theorem UpdPc.LoopInv.of_not_inDownload (hu : pc.inDownload = false) : pc.LoopInv st k c x fb := by
  cases pc <;> trivial

theorem wordOf_eq (hp : Padded fb b n) (hj : j < n) :
    (fb b).data.read (4 * j) 4 = wordOf (fb b).payload j := by
  rw [wordOf, ← hp.data, Mem.drop_read (by omega), Mem.take_read (by omega), Nat.zero_add]

theorem Ready.payload (h : RingInv fb st c) (hb : Ready fb b k) : (fb b).payload = payloadOf st k := by
  have := h.slot_mem b hb.lt (by rw [hb.state]; rintro ⟨⟩)
  rw [hb.seq] at this
  exact (payloadOf_of_mem h.nodup this).symm

theorem Ready.dataLen (h : RingInv fb st c) (hb : Ready fb b k) :
    (fb b).dataLen = (payloadOf st k).length ∧ (fb b).dataLen ≤ 1024 := by
  have hlen : (fb b).payload.length = (fb b).dataLen := Mem.length_read
  have := h.len_le _ (h.slot_mem b hb.lt (by rw [hb.state]; rintro ⟨⟩))
  exact ⟨by rw [← hb.payload h, hlen], hlen ▸ this⟩

theorem Ready.zeroByte (hb : Ready fb b k) : Ready (fb.zeroByte b j) b k :=
  ⟨hb.lt, by rw [FileBufs.zeroByte_state]; exact hb.state, by rw [FileBufs.zeroByte_seq]; exact hb.seq⟩

theorem Zeroed.start (h4 : (fb b).dataLen % 4 ≠ 0) : Zeroed fb b (fb b).wordDataNum (fb b).dataLen :=
  ⟨rfl, h4, Nat.le_refl _, fun _ h₁ h₂ => absurd h₂ (Nat.not_lt.2 h₁)⟩

theorem Zeroed.zeroByte (hz : Zeroed fb b n j) : Zeroed (fb.zeroByte b j) b n (j + 1) := by
  refine ⟨?_, ?_, ?_, fun x h₁ h₂ => ?_⟩
  · rw [FileBuf.wordDataNum, FileBufs.zeroByte_dataLen]; exact hz.num
  · rw [FileBufs.zeroByte_dataLen]; exact hz.rest
  · rw [FileBufs.zeroByte_dataLen]; exact Nat.le_succ_of_le hz.behind
  · rw [FileBufs.zeroByte_dataLen] at h₁
    rw [FileBufs.zeroByte, FileBufs.set_self]
    by_cases hx : x = j
    · rw [hx]; exact Mem.write_self
    · exact (Mem.write_of_ne hx).trans (hz.data x h₁ (by omega))

/-- When the `memset` is done, the words of the slot are those of the payload with zeroes behind it. -/
theorem Zeroed.padded (hz : Zeroed fb b n j) (hlen : (fb b).dataLen ≤ 1024) (hj : 1024 ≤ j) : Padded fb b n := by
  refine ⟨hz.num, ?_⟩
  rw [hz.num, ← padZero_read hlen, FileBuf.padZero, if_pos hz.rest]
  have h4 := hz.rest
  have hn : 4 * (fb b).wordDataNum ≤ 1024 := by
    rw [FileBuf.wordDataNum, if_pos h4]; omega
  refine Mem.read_congr fun x _ hx => ?_
  rw [Nat.zero_add] at hx
  by_cases hlt : x < (fb b).dataLen
  · exact (Mem.write_of_lt hlt).symm
  · have hk : x - (fb b).dataLen < (List.replicate (1024 - (fb b).dataLen) (0 : UInt8)).length := by
      rw [List.length_replicate]; omega
    have hw := Mem.write_of_mem (m := (fb b).data) (a := (fb b).dataLen) hk
    rw [List.getElem_replicate, Nat.add_sub_cancel' (Nat.le_of_not_lt hlt)] at hw
    rw [hz.data x (Nat.le_of_not_lt hlt) (by omega)]
    exact hw.symm

theorem Ready.used_of_release (hb : Ready fb b k) : (fb.release b j).state ≠ .init → (fb j).state ≠ .init :=
  mt (FileBufs.release_state_init (by rw [hb.state]; rintro ⟨⟩)).2

/-- The packets consumed have 16-bit numbers, so their lengths fit in 32 bits. -/
theorem offsetOf_le (h : RingInv fb st c) : ∀ {n : Nat}, n ≤ c → offsetOf st n ≤ 1024 * n ∧ n ≤ 65536
  | 0, _ => ⟨Nat.le_refl 0, Nat.zero_le _⟩
  | n + 1, hn => by
    obtain ⟨hoff, -⟩ := offsetOf_le (n := n) h (by omega)
    have hmem := h.consumed n hn
    have hlt := h.bound n hmem
    obtain ⟨l, hl⟩ := mem_seqs.1 hmem
    have hlen := h.len_le _ hl
    rw [offsetOf_succ, payloadOf_of_mem h.nodup hl]
    dsimp only at hlen
    omega

/-- A packet stored by the process thread, wherever `Download` stands. -/
theorem UpdPc.LoopInv.store (h : RingInv fb st c) (hI : pc.LoopInv st k c x fb)
    (hnew : alreadySaved fb s = false) (hi : pollSlot fb s = .store i)
    (hkeep : ∀ b ∈ pc.readsBack, i = b → l.length = (fb b).dataLen) :
    pc.LoopInv ((s, l) :: st) k c x (fb.store i s l) := by
  have hslot : ∀ b, Ready fb b k → fb.store i s l b = fb b := fun b hb => by
    refine FileBufs.set_of_ne fun he => ?_
    have := (h.store_slot hnew hi).2.2.1
    rw [← he, hb.state] at this
    exact this rfl
  have hready : ∀ {b}, Ready fb b k → Ready (fb.store i s l) b k := fun {b} hb => by
    refine ⟨hb.lt, ?_, ?_⟩ <;> rw [hslot b hb]
    exacts [hb.state, hb.seq]
  have hiter : ∀ {q}, Iterated st k c x q → Iterated ((s, l) :: st) k c x q := fun {q} hq =>
    ⟨hq.seq, hq.offset.trans (offsetOf_cons fun m hm => h.consumed m (by rw [hq.back]; exact hm)).symm, hq.back⟩
  have hrel : ∀ {q}, Released st k c x q → Released ((s, l) :: st) k c x q := fun {q} hq =>
    ⟨hq.seq, hq.offset.trans (offsetOf_cons fun m hm => h.consumed m (by rw [hq.back]; omega)).symm, hq.back⟩
  cases pc with
  | loopTest i q => exact ⟨hiter hI.1, hI.2⟩
  | getIndex i q t => exact ⟨hiter hI.1, hI.2⟩
  | setProgress i q => exact ⟨hiter hI.1, hI.2⟩
  | words i q b => exact ⟨⟨hiter hI.1.1, hI.1.2⟩, hready hI.2⟩
  | release i q b => exact ⟨⟨hiter hI.1.1, hI.1.2⟩, hready hI.2⟩
  | zeroArgs i q b n =>
    obtain ⟨⟨hit, hix⟩, hb, hn, h4⟩ := hI
    exact ⟨⟨hiter hit, hix⟩, hready hb, by rw [hslot b hb]; exact hn, by rw [hslot b hb]; exact h4⟩
  | zeroRest i q b n m =>
    obtain ⟨⟨hit, hix⟩, hb, hz⟩ := hI
    refine ⟨⟨hiter hit, hix⟩, hready hb, ⟨?_, ?_, ?_, ?_⟩⟩ <;> rw [hslot b hb]
    exacts [hz.num, hz.rest, hz.behind, hz.data]
  | fetch i q b n j =>
    obtain ⟨⟨hit, hix⟩, hb, hp, hj⟩ := hI
    refine ⟨⟨hiter hit, hix⟩, hready hb, ⟨?_, ?_⟩, hj⟩ <;> rw [hslot b hb]
    exacts [hp.num, hp.data]
  | program i q b n j data =>
    obtain ⟨⟨hit, hix⟩, hb, hp, hj, hd⟩ := hI
    refine ⟨⟨hiter hit, hix⟩, hready hb, ⟨?_, ?_⟩, hj, ?_⟩ <;> rw [hslot b hb]
    exacts [hp.num, hp.data, hd]
  | addLength i' q b =>
    obtain ⟨⟨hrl, hix⟩, hlen⟩ := hI
    have hmem : k ∈ seqs st := h.consumed k (by rw [hrl.back]; omega)
    refine ⟨⟨hrel hrl, hix⟩, ?_⟩
    rw [payloadOf_cons hmem, ← hlen]
    by_cases hib : b = i
    · rw [← hkeep b rfl hib.symm, hib, FileBufs.store, FileBufs.set_self]
    · rw [FileBufs.store, FileBufs.set_of_ne hib]
  | setLength i q =>
    obtain ⟨hrl, hoff⟩ := hI
    refine ⟨hrel hrl, ?_⟩
    rw [offsetOf_cons fun m hm => h.consumed m (by rw [hrl.back]; exact hm)]; exact hoff
  | _ => trivial

end

namespace Device

/-- The offset of the next packet is the sum of the lengths of the packets consumed, and the word that is
programmed is one of that packet. -/
def OffsetOk (h : List (Device × Act)) (s : Device) : Prop :=
  (s.upd.inDownload = true → (∀ k, k < loaded h → k ∈ seqs (stored h)) ∧
    s.codeDownloadLength = offsetOf (stored h) (loaded h)) ∧
  ∀ x ∈ s.upd.word, x.2 = wordOf (payloadOf (stored h) (loaded h)) x.1

instance (h : List (Device × Act)) (s : Device) : Decidable (OffsetOk h s) :=
  inferInstanceAs (Decidable ((_ → (∀ k, k < loaded h → k ∈ seqs (stored h)) ∧ _) ∧ ∀ x ∈ s.upd.word, _))

/-- A packet stored in the slot whose length `Download` still has to read is as long as the packet that
was in it. -/
def keepsLength (s : Device) : Act → Bool
  | .proc =>
    match s.proc with
    | .copy i _ iDataLen copied =>
      decide (copied.length < iDataLen) ||
        s.upd.readsBack.all fun b => i != b || copied.length == (s.fileBuf b).dataLen
    | _ => true
  | _ => true

def LengthGuard (_ : List (Device × Act)) (s : Device) (a : Act) : Prop := s.keepsLength a = true

instance (h : List (Device × Act)) (s : Device) (a : Act) : Decidable (LengthGuard h s a) :=
  inferInstanceAs (Decidable (_ = _))

/-- `ERASE_FLASH` clears the variables only while `Download` does not run, and the lengths that
`Download` reads back are kept. -/
def DownloadGuard (h : List (Device × Act)) (s : Device) (a : Act) : Prop :=
  (s.clears a = true → s.upd.inDownload = false) ∧ LengthGuard h s a

instance (h : List (Device × Act)) (s : Device) (a : Act) : Decidable (DownloadGuard h s a) :=
  inferInstanceAs (Decidable ((_ → _) ∧ _))

/-- Only one `ERASE_FLASH` is processed between two resets. -/
def OneErase (h : List (Device × Act)) (s : Device) (a : Act) : Prop := s.clears a = true → requested h = false

instance (h : List (Device × Act)) (s : Device) (a : Act) : Decidable (OneErase h s a) :=
  inferInstanceAs (Decidable (_ → _))

structure DownloadInv (h : List (Device × Act)) (s : Device) : Prop where
  ring : RingInv s.fileBuf (stored h) (handedBack h)
  save : s.proc.SaveInv s.fileBuf
  loop : s.upd.LoopInv (stored h) (loaded h) (handedBack h) s.codeDownloadLength s.fileBuf
  /-- Nothing has been consumed between `ERASE_FLASH` and `Download`. -/
  fresh : s.proc.restarting = true ∨ s.erasing = true ∨ s.upd = .downloadEnter →
    handedBack h = 0 ∧ loaded h = 0 ∧ s.codeDownloadLength = 0
  length : s.proc.awaitsLength = true → s.codeTotalLength = 0
  restart : s.proc.restarting = true → s.upd.consumes = false

variable {h : List (Device × Act)} {s s' : Device} {a : Act} {hw : FlashStatus}

/-! ### Summaries of the history -/

theorem handedBack_cons (hr : s.resets a = false) (hc : s.clears a = false) :
    handedBack ((s, a) :: h) = handedBack h + (s.handsBack a).toList.length := by
  rw [handedBack, Lts.foldSince_cons hr, hc]; rfl

theorem loaded_cons (hr : s.resets a = false) (hc : s.clears a = false) :
    loaded ((s, a) :: h) = if s.loads a then loaded h + 1 else loaded h := by
  rw [loaded, Lts.foldSince_cons hr, hc]; rfl

theorem loaded_same (hr : s.resets a = false) (hc : s.clears a = false) (hl : s.loads a = false) :
    loaded ((s, a) :: h) = loaded h := by
  rw [loaded_cons hr hc, hl]; rfl

theorem handedBack_clear (hr : s.resets a = false) (hc : s.clears a = true) : handedBack ((s, a) :: h) = 0 := by
  rw [handedBack, Lts.foldSince_cons hr, hc]; rfl

theorem loaded_clear (hr : s.resets a = false) (hc : s.clears a = true) : loaded ((s, a) :: h) = 0 := by
  rw [loaded, Lts.foldSince_cons hr, hc]; rfl

theorem counts_cons (hr : s.resets a = false) (hc : s.clears a = false) (hb : s.handsBack a = none)
    (hl : s.loads a = false) :
    handedBack ((s, a) :: h) = handedBack h ∧ loaded ((s, a) :: h) = loaded h := by
  rw [handedBack_cons hr hc, loaded_same hr hc hl, hb]; exact ⟨rfl, rfl⟩

theorem counts_upd (hr : s.resets (.upd hw) = false) (hn : s.upd.counts = false) :
    handedBack ((s, .upd hw) :: h) = handedBack h ∧ loaded ((s, .upd hw) :: h) = loaded h := by
  cases hpc : s.upd with
  | release i q b => rw [hpc] at hn; cases hn
  | setLength i q => rw [hpc] at hn; cases hn
  | _ => exact counts_cons hr rfl (by simp [handsBack, hpc]) (by simp [loads, hpc])

theorem clears_ne_proc (ha : a ≠ .proc) : s.clears a = false := by
  cases a with
  | proc => exact absurd rfl ha
  | _ => rfl

/-! ### The process thread -/

theorem LengthGuard.keeps {i q n : Nat} {l : List UInt8} (hg : LengthGuard h s .proc)
    (hpc : s.proc = .copy i q n l) (hge : ¬ l.length < n) :
    ∀ b ∈ s.upd.readsBack, i = b → l.length = (s.fileBuf b).dataLen := by
  intro b hb hib
  simp only [LengthGuard, keepsLength, hpc, hge, decide_false, Bool.false_or] at hg
  rw [hb] at hg
  simpa [hib] using hg

theorem restarting_of_awaitsLength {pc : ProcPc} (h : pc.awaitsLength = true) : pc.restarting = true := by
  cases pc with
  | ackHead c => cases c <;> first | rfl | cases h
  | ackTake c => cases c <;> first | rfl | cases h
  | ackWait c => cases c <;> first | rfl | cases h
  | eraseLength => rfl
  | _ => cases h

/-- While `ERASE_FLASH` is blocked it has not set the length. -/
theorem awaitsLength_of_yields (hy : s.yields = true) (h : s.proc.restarting = true) :
    s.proc.awaitsLength = true := by
  cases hpc : s.proc with
  | ackTake c b hdr => rw [hpc] at h; cases c <;> first | rfl | cases h
  | ackWait c => rw [hpc] at h; cases c <;> first | rfl | cases h
  | idle => rw [hpc] at h; cases h
  | sleep q n t => rw [hpc] at h; cases h
  | _ => rw [yields, hpc] at hy; cases hy

theorem procStep_request (hp : s.procStep = some s') (hr : s.resets .proc = false)
    (hc : s.clears .proc = false) :
    (s'.upd = s.upd ∧ s'.codeDownloadLength = s.codeDownloadLength) ∧
    (s'.proc.restarting = true → s.proc.restarting = true) ∧
    (s'.proc.awaitsLength = true → s.proc.awaitsLength = true ∧ s'.codeTotalLength = s.codeTotalLength) ∧
    (s'.updateSem = s.updateSem ∨ s.proc.restarting = true) := by
  have hst := procStep_cases hp hr
  generalize hpc : s.proc = pc at hst ⊢
  cases hst with
  | eraseClear => rw [clears, hpc] at hc; cases hc
  | entryReply he =>
    refine ⟨⟨rfl, rfl⟩, fun h => ?_, fun h => ?_, .inl rfl⟩
    · rw [restarting_ackHead he] at h; cases h
    · have := restarting_of_awaitsLength h
      rw [restarting_ackHead he] at this; cases this
  | @ackHead cmd | @ackSend cmd | @ackTake cmd =>
    exact ⟨⟨rfl, rfl⟩, by cases cmd <;> exact id, by cases cmd <;> exact fun h => ⟨h, rfl⟩, .inl rfl⟩
  | ackErase => exact ⟨⟨rfl, rfl⟩, fun _ => rfl, fun _ => ⟨rfl, rfl⟩, .inl rfl⟩
  | eraseLength | eraseCheckSum => exact ⟨⟨rfl, rfl⟩, fun _ => rfl, (by rintro ⟨⟩), .inl rfl⟩
  | eraseRelease => exact ⟨⟨rfl, rfl⟩, (by rintro ⟨⟩), (by rintro ⟨⟩), .inr rfl⟩
  | _ => exact ⟨⟨rfl, rfl⟩, (by rintro ⟨⟩), (by rintro ⟨⟩), .inl rfl⟩

theorem procStep_save (hp : s.procStep = some s') (hr : s.resets .proc = false)
    (hI : s.proc.SaveInv s.fileBuf) : s'.proc.SaveInv s'.fileBuf := by
  have hst := procStep_cases hp hr
  generalize s.proc = pc at hst hI
  cases hst with
  | seqRead => exact packetIndex_lt s.pRecvBuf
  | lenRead hle => exact ⟨hI, hle⟩
  | saveFile hnew => exact ⟨hI, hnew⟩
  | pollStore hi => exact ⟨hI.1, hI.2, Nat.zero_le _, hi⟩
  | pollSleep | sleep => exact hI
  | copy hlt => exact ⟨hI.1, hI.2.1, by rw [List.length_append, List.length_singleton]; exact hlt, hI.2.2.2⟩
  | _ => trivial

theorem DownloadInv.proc (hI : DownloadInv h s) (hg : DownloadGuard h s .proc) (hr : s.resets .proc = false)
    (hp : s.procStep = some s') : DownloadInv ((s, .proc) :: h) s' := by
  have hsave := procStep_save hp hr hI.save
  cases hc : s.clears .proc with
  | true =>
    have hu := hg.1 hc
    have hbk := handedBack_clear (h := h) hr hc
    have hld := loaded_clear (h := h) hr hc
    rw [procStep_clear hp hc]
    refine ⟨?_, trivial, .of_not_inDownload hu, fun _ => ⟨hbk, hld, rfl⟩, fun _ => rfl, fun _ => ?_⟩
    · rw [stored_clear hr hc, hbk]; exact .clear
    · show s.upd.consumes = false
      cases hupd : s.upd <;> first | rfl | (rw [hupd] at hu; cases hu)
  | false =>
    obtain ⟨⟨hu, hcdl⟩, hre, haw, hsem⟩ := procStep_request hp hr hc
    obtain ⟨hbk, hld⟩ := counts_cons (h := h) hr hc rfl rfl
    have hfresh : s'.proc.restarting = true ∨ s'.erasing = true ∨ s'.upd = .downloadEnter →
        s.proc.restarting = true ∨ s.erasing = true ∨ s.upd = .downloadEnter := by
      rintro (h | h | h)
      · exact .inl (hre h)
      · rcases hsem with hsem | hsem
        · rw [erasing_congr hu (congrArg Semaphore.count hsem)] at h; exact .inr (.inl h)
        · exact .inl hsem
      · exact .inr (.inr (hu ▸ h))
    refine ⟨?_, hsave, ?_, fun h => ?_, fun h => ?_, fun h => ?_⟩
    · rcases procStep_fileBuf hp hr with ⟨hc', -, -⟩ | ⟨-, i, q, n, l, hpc, hge, hs, hfb⟩ | ⟨-, hs, hfb⟩
      · rw [hc] at hc'; cases hc'
      · have hsv := hI.save
        rw [hpc] at hsv
        rw [stored_cons hr hc, hs, hbk, hfb]
        exact hI.ring.store hsv.1.1 (Nat.le_trans hsv.2.2.1 hsv.1.2) hsv.2.1 hsv.2.2.2
      · rw [stored_cons hr hc, hs, hbk, hfb]; exact hI.ring
    · rcases procStep_fileBuf hp hr with ⟨hc', -, -⟩ | ⟨-, i, q, n, l, hpc, hge, hs, hfb⟩ | ⟨-, hs, hfb⟩
      · rw [hc] at hc'; cases hc'
      · have hsv := hI.save
        rw [hpc] at hsv
        rw [stored_cons hr hc, hs, hbk, hld, hfb, hu, hcdl]
        exact hI.loop.store hI.ring hsv.2.1 hsv.2.2.2 (hg.2.keeps hpc hge)
      · rw [stored_cons hr hc, hs, hbk, hld, hfb, hu, hcdl]; exact hI.loop
    · rw [hbk, hld, hcdl]; exact hI.fresh (hfresh h)
    · obtain ⟨h, ht⟩ := haw h
      rw [ht]; exact hI.length h
    · rw [hu]; exact hI.restart (hre h)

/-! ### The update thread -/

/-- While the update thread runs, the process thread has found no free slot. -/
theorem saveInv_of_yields {fb : FileBufs} (hy : s.yields = true) (hI : s.proc.SaveInv s.fileBuf)
    (hseq : ∀ i, (fb i).seq = (s.fileBuf i).seq)
    (hu : ∀ i, i < fileBufferNum → (fb i).state ≠ .init → (s.fileBuf i).state ≠ .init) : s.proc.SaveInv fb := by
  cases hpc : s.proc with
  | sleep q n t => rw [hpc] at hI; exact ⟨hI.1, alreadySaved_congr hseq hu hI.2⟩
  | idle => trivial
  | ackTake c b hdr => trivial
  | ackWait c => trivial
  | _ => rw [yields, hpc] at hy; cases hy

theorem not_erasing_of_inDownload (hu : s.upd.inDownload = true) : s.erasing = false := by
  unfold erasing
  cases hupd : s.upd <;> first | rfl | (rw [hupd] at hu; cases hu)

/-- A step of the update thread that neither starts in the loop of `Download` nor leads into it, or leaves
it. -/
theorem DownloadInv.outside (hI : DownloadInv h s) (hr : s.resets (.upd hw) = false)
    (hn : s.upd.counts = false)
    (hs : s'.fileBuf = s.fileBuf ∧ s'.codeDownloadLength = s.codeDownloadLength ∧ s'.proc = s.proc ∧
      s'.codeTotalLength = s.codeTotalLength)
    (hu : s'.upd.inDownload = false)
    (hfresh : s'.erasing = true ∨ s'.upd = .downloadEnter → s.erasing = true) :
    DownloadInv ((s, .upd hw) :: h) s' := by
  obtain ⟨hfb, hcdl, hproc, ht⟩ := hs
  obtain ⟨hbk, hld⟩ := counts_upd (h := h) hr hn
  refine ⟨?_, ?_, .of_not_inDownload hu, fun h => ?_, ?_, fun _ => ?_⟩
  · rw [stored_ne_proc hr (by rintro ⟨⟩), hbk, hfb]; exact hI.ring
  · rw [hproc, hfb]; exact hI.save
  · rw [hbk, hld, hcdl]
    refine hI.fresh ?_
    rcases h with h | h | h
    · exact .inl (hproc ▸ h)
    · exact .inr (.inl (hfresh (.inl h)))
    · exact .inr (.inl (hfresh (.inr h)))
  · rw [hproc, ht]; exact hI.length
  · cases hupd : s'.upd <;> first | rfl | (rw [hupd] at hu; cases hu)

theorem DownloadInv.inside (hI : DownloadInv h s) (hr : s.resets (.upd hw) = false) (hy : s.yields = true)
    (halone : s.proc.restarting = false) (hproc : s'.proc = s.proc)
    (hseq : ∀ i, (s'.fileBuf i).seq = (s.fileBuf i).seq)
    (hused : ∀ i, i < fileBufferNum → (s'.fileBuf i).state ≠ .init → (s.fileBuf i).state ≠ .init)
    (hring : RingInv s'.fileBuf (stored h) (handedBack ((s, .upd hw) :: h))) (hu : s'.upd.inDownload = true)
    (hloop : s'.upd.LoopInv (stored h) (loaded ((s, .upd hw) :: h)) (handedBack ((s, .upd hw) :: h))
      s'.codeDownloadLength s'.fileBuf) :
    DownloadInv ((s, .upd hw) :: h) s' := by
  have hst : stored ((s, .upd hw) :: h) = stored h := stored_ne_proc hr (by rintro ⟨⟩)
  refine ⟨by rw [hst]; exact hring, ?_, by rw [hst]; exact hloop, fun h => ?_, fun h => ?_, fun h => ?_⟩
  · rw [hproc]; exact saveInv_of_yields hy hI.save hseq hused
  · rcases h with h | h | h
    · rw [hproc, halone] at h; cases h
    · rw [not_erasing_of_inDownload hu] at h; cases h
    · rw [h] at hu; cases hu
  · have := restarting_of_awaitsLength h
    rw [hproc, halone] at this; cases this
  · rw [hproc, halone] at h; cases h

theorem DownloadInv.stays (hI : DownloadInv h s) (hr : s.resets (.upd hw) = false) (hy : s.yields = true)
    (halone : s.proc.restarting = false) (hn : s.upd.counts = false)
    (hs : s'.fileBuf = s.fileBuf ∧ s'.codeDownloadLength = s.codeDownloadLength ∧ s'.proc = s.proc)
    (hu : s'.upd.inDownload = true)
    (hloop : s'.upd.LoopInv (stored h) (loaded h) (handedBack h) s.codeDownloadLength s.fileBuf) :
    DownloadInv ((s, .upd hw) :: h) s' := by
  obtain ⟨hfb, hcdl, hproc⟩ := hs
  obtain ⟨hbk, hld⟩ := counts_upd (h := h) hr hn
  refine hI.inside hr hy halone hproc (fun i => by rw [hfb]) (fun i _ hne => by rwa [hfb] at hne) ?_ hu ?_
  · rw [hbk, hfb]; exact hI.ring
  · rw [hbk, hld, hcdl, hfb]; exact hloop

theorem DownloadInv.upd (hI : DownloadInv h s) (hr : s.resets (.upd hw) = false) (hy : s.yields = true)
    (hfree : s.upd ≠ .take → s.updateSem.taker = .free) (hp : s.updStep hw = some s') :
    DownloadInv ((s, .upd hw) :: h) s' := by
  have halone : s.upd.consumes = true → s.proc.restarting = false := fun hc => by
    cases hre : s.proc.restarting with
    | false => rfl
    | true => rw [hI.restart hre] at hc; cases hc
  have hloop := hI.loop
  have hst := updStep_cases hp hr
  generalize hpc : s.upd = pc at hst hloop
  cases hst with
  | @loop _ i q hlt =>
    have hno : s.proc.restarting = false := by
      cases hre : s.proc.restarting with
      | false => rfl
      | true => rw [hI.length (awaitsLength_of_yields hy hre)] at hlt; cases hlt
    exact hI.stays hr hy hno (by rw [hpc]; rfl) ⟨rfl, rfl, rfl⟩ rfl hloop
  | found hb =>
    obtain ⟨hlt, hst, hseq⟩ := getFileIndex_some hb
    obtain ⟨hit, hi⟩ := hloop
    rw [hit.seq, ← hit.back] at hseq
    have hk := hI.ring.seq_eq_of_mod hlt hst hseq
    exact hI.stays hr hy (halone (by rw [hpc]; rfl)) (by rw [hpc]; rfl) ⟨rfl, rfl, rfl⟩ rfl
      ⟨⟨hit, hi⟩, hlt, hst, by rw [hk, hit.back]⟩
  | wait | setProgress =>
    exact hI.stays hr hy (halone (by rw [hpc]; rfl)) (by rw [hpc]; rfl) ⟨rfl, rfl, rfl⟩ rfl hloop
  | wordsRest h4 =>
    exact hI.stays hr hy (halone (by rw [hpc]; rfl)) (by rw [hpc]; rfl) ⟨rfl, rfl, rfl⟩ rfl
      ⟨hloop.1, hloop.2, rfl, h4⟩
  | words h4 =>
    have hpad := padZero_read (hloop.2.dataLen hI.ring).2
    rw [FileBuf.padZero, if_neg (not_not_intro h4)] at hpad
    exact hI.stays hr hy (halone (by rw [hpc]; rfl)) (by rw [hpc]; rfl) ⟨rfl, rfl, rfl⟩ rfl
      ⟨hloop.1, hloop.2, ⟨rfl, hpad⟩, Nat.zero_le _⟩
  | zeroArgs =>
    obtain ⟨hit, hready, hn, h4⟩ := hloop
    exact hI.stays hr hy (halone (by rw [hpc]; rfl)) (by rw [hpc]; rfl) ⟨rfl, rfl, rfl⟩ rfl
      ⟨hit, hready, hn ▸ .start h4⟩
  | zeroByte =>
    obtain ⟨hit, hready, hz⟩ := hloop
    obtain ⟨hbk, hld⟩ := counts_upd (h := h) hr (by rw [hpc]; rfl)
    refine hI.inside hr hy (halone (by rw [hpc]; rfl)) rfl (fun _ => FileBufs.zeroByte_seq)
      (fun _ _ hne => by rwa [FileBufs.zeroByte_state] at hne) ?_ rfl ?_
    · rw [hbk]
      exact hI.ring.congr (fun _ => FileBufs.zeroByte_seq) (fun _ => FileBufs.zeroByte_payload hz.behind)
        fun _ => FileBufs.zeroByte_state
    · rw [hbk, hld]
      exact ⟨hit, hready.zeroByte, hz.zeroByte⟩
  | zeroDone hge =>
    obtain ⟨hit, hready, hz⟩ := hloop
    exact hI.stays hr hy (halone (by rw [hpc]; rfl)) (by rw [hpc]; rfl) ⟨rfl, rfl, rfl⟩ rfl
      ⟨hit, hready, hz.padded (hready.dataLen hI.ring).2 hge, Nat.zero_le _⟩
  | fetch hlt =>
    obtain ⟨hit, hready, hpad, -⟩ := hloop
    exact hI.stays hr hy (halone (by rw [hpc]; rfl)) (by rw [hpc]; rfl) ⟨rfl, rfl, rfl⟩ rfl
      ⟨hit, hready, hpad, hlt, wordOf_eq hpad hlt⟩
  | fetchDone =>
    exact hI.stays hr hy (halone (by rw [hpc]; rfl)) (by rw [hpc]; rfl) ⟨rfl, rfl, rfl⟩ rfl
      ⟨hloop.1, hloop.2.1⟩
  | program =>
    obtain ⟨hit, hready, hpad, hj, -⟩ := hloop
    exact hI.stays hr hy (halone (by rw [hpc]; rfl)) (by rw [hpc]; rfl) ⟨rfl, rfl, rfl⟩ rfl
      ⟨hit, hready, hpad, hj⟩
  | release =>
    obtain ⟨⟨hit, hi⟩, hready⟩ := hloop
    have hbk : handedBack ((s, .upd hw) :: h) = handedBack h + 1 := by
      rw [handedBack_cons hr rfl]; simp [handsBack, hpc]
    have hld : loaded ((s, .upd hw) :: h) = loaded h := by
      rw [loaded_cons hr rfl]; simp [loads, hpc]
    refine hI.inside hr hy (halone (by rw [hpc]; rfl)) rfl (fun _ => FileBufs.release_seq)
      (fun _ _ => hready.used_of_release) ?_ rfl ?_
    · rw [hbk]
      refine hI.ring.release hready.lt hready.state ?_
      have := hI.ring.bound _ (hI.ring.slot_mem_seqs hready.lt (by rw [hready.state]; rintro ⟨⟩))
      rw [hready.seq] at this ⊢
      rw [hit.back, Nat.mod_eq_of_lt this]
    · rw [hbk, hld]
      refine ⟨⟨⟨hit.seq, hit.offset, by rw [hit.back]⟩, hi⟩, ?_⟩
      rw [FileBufs.release_dataLen]; exact (hready.dataLen hI.ring).1
  | addLength =>
    obtain ⟨⟨hrel, hi⟩, hlen⟩ := hloop
    refine hI.stays hr hy (halone (by rw [hpc]; rfl)) (by rw [hpc]; rfl) ⟨rfl, rfl, rfl⟩ rfl ⟨hrel, ?_⟩
    obtain ⟨hle, hc⟩ := offsetOf_le (n := loaded h + 1) hI.ring (by rw [hrel.back])
    rw [hi, hrel.offset, hlen, ← offsetOf_succ, u32, Nat.mod_eq_of_lt (by omega)]
  | setLength =>
    obtain ⟨hrel, hi⟩ := hloop
    have hbk : handedBack ((s, .upd hw) :: h) = handedBack h := by
      rw [handedBack_cons hr rfl]; simp [handsBack, hpc]
    have hld : loaded ((s, .upd hw) :: h) = loaded h + 1 := by
      rw [loaded_cons hr rfl]; simp [loads, hpc]
    refine hI.inside hr hy (halone (by rw [hpc]; rfl)) rfl (fun _ => rfl) (fun _ _ => id) ?_ rfl ?_
    · rw [hbk]; exact hI.ring
    · rw [hbk, hld]
      exact ⟨⟨by rw [hrel.seq]; omega, hi, hrel.back⟩, rfl⟩
  | downloadEnter =>
    obtain ⟨hbk0, hld0, hcdl0⟩ := hI.fresh (.inr (.inr hpc))
    obtain ⟨hbk, hld⟩ := counts_upd (h := h) hr (by rw [hpc]; rfl)
    refine ⟨?_, hI.save, ?_, ?_, hI.length, fun _ => rfl⟩
    · rw [stored_ne_proc hr (by rintro ⟨⟩), hbk]; exact hI.ring
    · rw [hbk, hld, hbk0, hld0, hcdl0]; exact ⟨⟨rfl, rfl, rfl⟩, rfl⟩
    · rw [hbk, hld]; exact fun _ => ⟨hbk0, hld0, hcdl0⟩
  | block hx =>
    refine hI.outside hr (by rw [hpc]; rfl) ⟨rfl, rfl, rfl, rfl⟩ rfl ?_
    simp [erasing, (Semaphore.count_of_block hx).2]
  | take hx =>
    exact hI.outside hr (by rw [hpc]; rfl) ⟨rfl, rfl, rfl, rfl⟩ rfl fun _ => by
      rw [erasing, hpc, Semaphore.count_of_take hx]; exact decide_eq_true (Nat.succ_pos _)
  | drained h0 =>
    refine hI.outside hr (by rw [hpc]; rfl) ⟨rfl, rfl, rfl, rfl⟩ rfl ?_
    simp [erasing, Semaphore.count_of_free (hfree (by rw [hpc]; rintro ⟨⟩)), h0]
  | _ =>
    exact hI.outside hr (by rw [hpc]; rfl) ⟨rfl, rfl, rfl, rfl⟩ rfl (by simp [erasing, hpc])

/-! ### Runs -/

theorem DownloadInv.next (hI : DownloadInv h s) (hfree : s.upd ≠ .take → s.updateSem.taker = .free)
    (hg : DownloadGuard h s a) (ha : step a s = some s') : DownloadInv ((s, a) :: h) s' := by
  have same : ∀ {f e n b : Mem} {t x r k : Nat} {v : Semaphore} {m : Mode} {cm : Bool}, s.resets a = false → a ≠ .proc →
      s.handsBack a = none → s.loads a = false →
      DownloadInv ((s, a) :: h) { s with
        flash := f, eeprom := e, netLocalAddr := n, pRecvBuf := b, tick := t, sockAddr := x, recvSem := r
        netWorkRecvSem := v, mode := m, commu := cm, currentProgress := k } := by
    intro f e n b t x r k v m cm hr hne hb hl
    have hst := stored_ne_proc (s := s) (h := h) hr hne
    obtain ⟨hbk, hld⟩ := counts_cons (h := h) hr (clears_ne_proc hne) hb hl
    refine ⟨?_, hI.save, ?_, ?_, hI.length, hI.restart⟩
    · rw [hst, hbk]; exact hI.ring
    · rw [hst, hbk, hld]; exact hI.loop
    · rw [hbk, hld]; exact hI.fresh
  cases step_cases ha with
  | reset e he hr hs =>
    have hst : stored ((s, a) :: h) = [] := Lts.foldSince_of_reset hr
    have hbk : handedBack ((s, a) :: h) = 0 := Lts.foldSince_of_reset hr
    rw [hs]
    refine ⟨?_, trivial, trivial, ?_, (by rintro ⟨⟩), (by rintro ⟨⟩)⟩
    · rw [hst, hbk]; exact .clear
    · rintro (h | h | h) <;> cases h
  | recv d addr hc hs =>
    rcases s.deliver_cases d addr with ⟨-, -, -, hs'⟩ | ⟨-, c, hs'⟩ <;> rw [hs, hs'] <;>
      exact same rfl (by rintro ⟨⟩) rfl rfl
  | proc hr hp => exact hI.proc hg hr hp
  | upd hw hr hy hp => exact hI.upd hr hy hfree hp
  | other e n t m c hr h₁ h₂ h₃ hs =>
    rw [hs]
    refine same hr h₂ ?_ ?_ <;> cases a <;> first | rfl | exact absurd rfl (h₃ _)

theorem DownloadInv.of_run (hr : system.Run h s) (hg : Lts.Guarded DownloadGuard h) : DownloadInv h s := by
  induction hr with
  | init hi =>
    rw [show _ = Device.reset _ _ from hi]
    refine ⟨.clear, trivial, trivial, ?_, (by rintro ⟨⟩), (by rintro ⟨⟩)⟩
    rintro (h | h | h) <;> cases h
  | step hr ha ih => exact (ih hg.2).next (taker_free hr) hg.1 ha

/-- With one `ERASE_FLASH`, the variables are not cleared while `Download` runs. -/
theorem downloadGuard_of_one (hr : system.Run h s) (ho : Lts.Guarded OneErase h)
    (hk : Lts.Guarded LengthGuard h) : Lts.Guarded DownloadGuard h := by
  induction hr with
  | init => trivial
  | step hr ha ih =>
    refine ⟨⟨fun hc => ?_, hk.1⟩, ih ho.2 hk.2⟩
    rw [((EraseInv.of_run hr).idle (ho.1 hc)).1]; rfl

theorem DownloadInv.offsetOk (hI : DownloadInv h s) : OffsetOk h s := by
  have hcons : ∀ {n k}, n ≤ handedBack h → k < n → k ∈ seqs (stored h) := fun hn hk =>
    hI.ring.consumed _ (Nat.lt_of_lt_of_le hk hn)
  have hloop := hI.loop
  constructor
  · intro hu
    cases hpc : s.upd with
    | loopTest i q => rw [hpc] at hloop; exact ⟨fun _ => hcons hloop.1.back.ge, hloop.1.offset⟩
    | getIndex i q t => rw [hpc] at hloop; exact ⟨fun _ => hcons hloop.1.back.ge, hloop.1.offset⟩
    | setProgress i q => rw [hpc] at hloop; exact ⟨fun _ => hcons hloop.1.back.ge, hloop.1.offset⟩
    | words i q b => rw [hpc] at hloop; exact ⟨fun _ => hcons hloop.1.1.back.ge, hloop.1.1.offset⟩
    | zeroArgs i q b n => rw [hpc] at hloop; exact ⟨fun _ => hcons hloop.1.1.back.ge, hloop.1.1.offset⟩
    | zeroRest i q b n m => rw [hpc] at hloop; exact ⟨fun _ => hcons hloop.1.1.back.ge, hloop.1.1.offset⟩
    | fetch i q b n j => rw [hpc] at hloop; exact ⟨fun _ => hcons hloop.1.1.back.ge, hloop.1.1.offset⟩
    | program i q b n j d => rw [hpc] at hloop; exact ⟨fun _ => hcons hloop.1.1.back.ge, hloop.1.1.offset⟩
    | release i q b => rw [hpc] at hloop; exact ⟨fun _ => hcons hloop.1.1.back.ge, hloop.1.1.offset⟩
    | addLength i q b =>
      rw [hpc] at hloop
      exact ⟨fun _ => hcons (by rw [hloop.1.1.back]; omega), hloop.1.1.offset⟩
    | setLength i q => rw [hpc] at hloop; exact ⟨fun _ => hcons (by rw [hloop.1.back]; omega), hloop.1.offset⟩
    | _ => rw [hpc] at hu; cases hu
  · intro x hx
    cases hpc : s.upd with
    | program i q b n j d =>
      rw [hpc] at hx hloop
      cases hx
      obtain ⟨-, hb, -, -, hd⟩ := hloop
      rw [← hb.payload hI.ring]; exact hd
    | _ => rw [hpc] at hx; cases hx

/-- In a run of one session whose packets keep the lengths that `Download` reads back, every packet is
programmed behind the packets before. -/
theorem offsetOk_of_run (hr : system.Run h s) (ho : Lts.Guarded OneErase h)
    (hk : Lts.Guarded LengthGuard h) : OffsetOk h s :=
  (DownloadInv.of_run hr (downloadGuard_of_one hr ho hk)).offsetOk

/-- A session of two packets of five and three bytes; the second is being programmed. -/
theorem offsetOk_of_run_two : ∃ h s, system.Run h s ∧ loaded h = 1 ∧ s.codeDownloadLength = 5 ∧
    s.upd.word = some (0, [6, 7, 8, 0]) ∧ OffsetOk h s := by
  obtain ⟨h, s, hr, hl, hcdl, hw, ho, hk⟩ := Lts.exists_run_of_exec (S := system)
    (P := fun h s => loaded h = 1 ∧ s.codeDownloadLength = 5 ∧ s.upd.word = some (0, [6, 7, 8, 0]) ∧
      Lts.Guarded OneErase h ∧ Lts.Guarded LengthGuard h)
    (bootActs ++ [.recv (eraseFrame 8 36) 7] ++ procs 14 ++ [.recv (downloadFrame 0 [1, 2, 3, 4, 5]) 7] ++
      procs 20 ++ [.recv (downloadFrame 1 [6, 7, 8]) 7] ++ procs 19 ++ upds 2065)
    (init_reset (fun _ => 0) (eepromOf 1)) (by decide +kernel)
  exact ⟨h, s, hr, hl, hcdl, hw, offsetOk_of_run hr ho hk⟩

/-- Packet 40 is stored in slot 0 between the moment at which `Download` hands the slot of packet 0 back
and the one at which it reads the length of packet 0. -/
theorem offset_of_later_packet : ∃ h s, system.Run h s ∧ Lts.Guarded OneErase h ∧ ¬ OffsetOk h s :=
  Lts.exists_run_of_exec
    (bootActs ++ [.recv (eraseFrame 100 0) 7] ++ procs 14 ++ [.recv (downloadFrame 0 [1, 2, 3, 4]) 7] ++
      procs 19 ++ [.recv (downloadFrame 39 [5]) 7] ++ procs 17 ++ upds 12 ++
      [.recv (downloadFrame 40 [6]) 7] ++ procs 17 ++ upds 2)
    (init_reset (fun _ => 0) (eepromOf 1)) (by decide +kernel)

end Device

end Bootloader
