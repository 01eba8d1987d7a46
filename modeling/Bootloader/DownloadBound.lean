import Bootloader.Isolation

/-!
# How long Download runs

An iteration of `Download` need not advance, because a packet of length 0 is consumed like any other, and
`fileseq` has 16 bits. What bounds a call is packet 0: once it is consumed, its slot 0 never becomes
`FILE_STATE_INIT` again and no other slot takes it, so no packet matches when the counter has wrapped. No
condition on the packets is needed, only that `ERASE_FLASH` does not clear the slots during the call.
-/

namespace Bootloader

/-! ### The slots -/

/-- The slots that a call of `Download` may find. -/
structure SlotInv (fb : FileBufs) : Prop where
  dataLen : ∀ i, (fb i).dataLen ≤ 1024
  /-- The packets 0 to 39 are received in slots of their own. -/
  own : ∀ i, (fb i).state = .receiveOk → (fb i).seq < fileBufferNum → (fb i).seq = i

/-- Packet 0 has been consumed. -/
structure Gone (fb : FileBufs) : Prop where
  used : (fb 0).state ≠ .init
  absent : ∀ i, (fb i).state = .receiveOk → (fb i).seq ≠ 0

/-- `fb'` is `fb` with bytes of the slots zeroed and slots handed back. -/
structure Sheds (fb fb' : FileBufs) : Prop where
  dataLen : ∀ i, (fb' i).dataLen = (fb i).dataLen
  seq : ∀ i, (fb' i).seq = (fb i).seq
  state : ∀ i, (fb' i).state = (fb i).state ∨ (fb' i).state = .downloadOk

section
variable {fb fb' : FileBufs} {b i q : Nat} {l : List UInt8}

theorem Sheds.refl : Sheds fb fb := ⟨fun _ => .refl _, fun _ => .refl _, fun _ => .inl (.refl _)⟩

theorem Sheds.zeroByte {k : Nat} : Sheds fb (fb.zeroByte b k) :=
  ⟨fun _ => FileBufs.zeroByte_dataLen, fun _ => FileBufs.zeroByte_seq, fun _ => .inl FileBufs.zeroByte_state⟩

theorem Sheds.release : Sheds fb (fb.release b) := by
  refine ⟨fun _ => FileBufs.release_dataLen, fun _ => FileBufs.release_seq, fun i => ?_⟩
  by_cases hi : i = b
  · rw [hi]; exact .inr FileBufs.release_state_self
  · rw [FileBufs.release_of_ne hi]; exact .inl (.refl _)

theorem Sheds.received (hs : Sheds fb fb') (h : (fb' i).state = .receiveOk) : (fb i).state = .receiveOk := by
  rcases hs.state i with hi | hi
  · rw [← hi]; exact h
  · rw [hi] at h; cases h

theorem SlotInv.clear : SlotInv .clear := ⟨fun _ => Nat.zero_le _, by rintro _ ⟨⟩⟩

theorem SlotInv.sheds (h : SlotInv fb) (hs : Sheds fb fb') : SlotInv fb' := by
  refine ⟨fun i => ?_, fun i hi hlt => ?_⟩
  · rw [hs.dataLen]; exact h.dataLen i
  · rw [hs.seq] at hlt ⊢
    exact h.own i (hs.received hi) hlt

theorem Gone.sheds (h : Gone fb) (hs : Sheds fb fb') : Gone fb' := by
  refine ⟨fun hi => ?_, fun i hi => ?_⟩
  · rcases hs.state 0 with h0 | h0
    · exact h.used (h0 ▸ hi)
    · rw [h0] at hi; cases hi
  · rw [hs.seq]; exact h.absent i (hs.received hi)

theorem not_receiveOk_of_pollSlot (hi : pollSlot fb q = .store i) : (fb i).state ≠ .receiveOk := by
  rcases pollSlot_store hi with ⟨-, -, h⟩ | ⟨-, -, -, -, -, h⟩ <;> (rw [h]; rintro ⟨⟩)

theorem SlotInv.store (h : SlotInv fb) (hl : l.length ≤ 1024) (hi : pollSlot fb q = .store i) :
    SlotInv (fb.store i q l) := by
  refine ⟨fun j => ?_, fun j hj hlt => ?_⟩ <;> by_cases hji : j = i
  · rw [hji, FileBufs.store, FileBufs.set_self]; exact hl
  · rw [FileBufs.store, FileBufs.set_of_ne hji]; exact h.dataLen j
  · subst hji
    rw [FileBufs.store, FileBufs.set_self] at hlt ⊢
    rcases pollSlot_store hi with ⟨-, hj, -⟩ | ⟨hge, -⟩
    · exact hj.symm
    · exact absurd hlt (Nat.not_lt.2 hge)
  · rw [FileBufs.store, FileBufs.set_of_ne hji] at hj hlt ⊢
    exact h.own j hj hlt

/-- A packet that is stored is not packet 0, because slot 0 is not `FILE_STATE_INIT`. -/
theorem Gone.store (h : Gone fb) (hi : pollSlot fb q = .store i) : Gone (fb.store i q l) := by
  have hq : q ≠ 0 := by
    rcases pollSlot_store hi with ⟨-, rfl, hinit⟩ | ⟨hge, -⟩
    · intro h0
      rw [h0] at hinit
      exact h.used hinit
    · unfold fileBufferNum at hge; omega
  refine ⟨fun h0 => ?_, fun j hj => ?_⟩
  · by_cases hi0 : 0 = i
    · rw [← hi0, FileBufs.store, FileBufs.set_self] at h0; cases h0
    · rw [FileBufs.store, FileBufs.set_of_ne hi0] at h0; exact h.used h0
  · by_cases hji : j = i
    · rw [hji, FileBufs.store, FileBufs.set_self]; exact hq
    · rw [FileBufs.store, FileBufs.set_of_ne hji] at hj ⊢
      exact h.absent j hj

/-- Packet 0 is consumed from slot 0. -/
theorem SlotInv.gone (h : SlotInv fb) (hst : (fb b).state = .receiveOk) (hseq : (fb b).seq = 0) :
    Gone (fb.release b) := by
  have hb : b = 0 := by rw [← h.own b hst (by rw [hseq]; decide), hseq]
  subst hb
  refine ⟨by rw [FileBufs.release_state_self]; rintro ⟨⟩, fun i hi h0 => ?_⟩
  have hi0 : i ≠ 0 := fun he => by rw [he, FileBufs.release_state_self] at hi; cases hi
  rw [FileBufs.release_of_ne hi0] at hi h0
  exact hi0 ((h.own i hi (by rw [h0]; decide)).symm.trans h0)

theorem SlotInv.wordDataNum_le (h : SlotInv fb) : (fb b).wordDataNum ≤ 256 := by
  have := h.dataLen b
  unfold FileBuf.wordDataNum; split <;> omega

end

/-! ### The locals of Download -/

/-- What the process thread is about to store. -/
def ProcPc.Fits (fb : FileBufs) : ProcPc → Prop
  | .saveFile _ n | .poll _ n _ | .sleep _ n _ => n ≤ 1024
  | .copy i iSeq n copied => n ≤ 1024 ∧ copied.length ≤ n ∧ pollSlot fb iSeq = .store i
  | _ => True

/-- The counter and the offset after `k` iterations of a call. -/
structure Counted (k i fileseq : Nat) : Prop where
  seq : fileseq = k % 65536
  offset : i ≤ 1024 * k

/-- Slot `b` holds the packet that is consumed next, and the counter has not wrapped. -/
structure Held (fb : FileBufs) (k fileseq b : Nat) : Prop where
  lt : k < 65536
  state : (fb b).state = .receiveOk
  seq : (fb b).seq = fileseq
  gone : 0 < k → Gone fb

/-- The locals of `Download` after `k` iterations of a call. -/
def UpdPc.BoundInv (fb : FileBufs) (k : Nat) : UpdPc → Prop
  | .loopTest i fileseq | .getIndex i fileseq _ | .setProgress i fileseq =>
    Counted k i fileseq ∧ (0 < k → Gone fb)
  | .words i fileseq b | .release i fileseq b => Counted k i fileseq ∧ Held fb k fileseq b
  | .zeroArgs i fileseq b n => Counted k i fileseq ∧ Held fb k fileseq b ∧ n ≤ 256
  | .zeroRest i fileseq b n m => Counted k i fileseq ∧ Held fb k fileseq b ∧ n ≤ 256 ∧ m ≤ 1024
  | .fetch i fileseq b n j => Counted k i fileseq ∧ Held fb k fileseq b ∧ n ≤ 256 ∧ j ≤ n
  | .program i fileseq b n j _ => Counted k i fileseq ∧ Held fb k fileseq b ∧ n ≤ 256 ∧ j < n
  | .addLength i fileseq _ => Counted k i fileseq ∧ k < 65536 ∧ Gone fb
  | .setLength i fileseq => (fileseq = k % 65536 ∧ i ≤ 1024 * (k + 1)) ∧ k < 65536 ∧ Gone fb
  | _ => True

/-- `Download` is entered or an iteration ends. -/
def UpdPc.turns : UpdPc → Bool
  | .downloadEnter | .setLength .. => true
  | _ => false

/-- The steps that an iteration may have made, with at most 1024 bytes zeroed and 256 words; `Download`
reaches `setProgress` with the next iteration. -/
def UpdPc.rank : UpdPc → Nat
  | .setProgress .. => 0
  | .loopTest .. => 1
  | .getIndex .. => 2
  | .words .. => 3
  | .zeroArgs .. => 4
  | .zeroRest _ _ _ _ m => 5 + m
  | .fetch _ _ _ _ j => 1030 + 2 * j
  | .program _ _ _ _ j _ => 1031 + 2 * j
  | .release .. => 1543
  | .addLength .. => 1544
  | .setLength .. => 1545
  | _ => 1546

section
variable {fb fb' : FileBufs} {pc : UpdPc} {k i q : Nat} {l : List UInt8}

theorem UpdPc.BoundInv.of_not_inDownload (hu : pc.inDownload = false) : pc.BoundInv fb k := by
  cases pc <;> trivial

theorem UpdPc.rank_of_not_inDownload (hu : pc.inDownload = false) : pc.rank = 1546 := by
  cases pc <;> first | rfl | cases hu

theorem UpdPc.BoundInv.rank_le (h : pc.BoundInv fb k) : pc.rank ≤ 1546 := by
  cases pc with
  | zeroRest i q b n m =>
    have hm : m ≤ 1024 := h.2.2.2
    show 5 + m ≤ 1546
    omega
  | fetch i q b n j =>
    obtain ⟨-, -, hn, hj⟩ := h
    show 1030 + 2 * j ≤ 1546
    omega
  | program i q b n j data =>
    obtain ⟨-, -, hn, hj⟩ := h
    show 1031 + 2 * j ≤ 1546
    omega
  | _ => exact Nat.le_of_ble_eq_true rfl

theorem Held.store {b : Nat} (h : Held fb k q b) {t : Nat} (hi : pollSlot fb t = .store i) :
    Held (fb.store i t l) k q b := by
  have hb : b ≠ i := fun he => not_receiveOk_of_pollSlot hi (he ▸ h.state)
  refine ⟨h.lt, ?_, ?_, fun hk => (h.gone hk).store hi⟩ <;> rw [FileBufs.store, FileBufs.set_of_ne hb]
  exacts [h.state, h.seq]

theorem Held.zeroByte {b m : Nat} (h : Held fb k q b) : Held (fb.zeroByte b m) k q b :=
  ⟨h.lt, FileBufs.zeroByte_state.trans h.state, FileBufs.zeroByte_seq.trans h.seq, fun hk =>
    (h.gone hk).sheds .zeroByte⟩

theorem Held.release {b : Nat} (h : Held fb k q b) (hc : Counted k i q) (hs : SlotInv fb) :
    Gone (fb.release b) := by
  rcases Nat.eq_zero_or_pos k with h0 | hk
  · exact hs.gone h.state (by rw [h.seq, hc.seq, h0])
  · exact (h.gone hk).sheds .release

theorem UpdPc.BoundInv.store (h : pc.BoundInv fb k) (hi : pollSlot fb q = .store i) :
    pc.BoundInv (fb.store i q l) k := by
  cases pc with
  | loopTest i' q' | getIndex i' q' t | setProgress i' q' => exact ⟨h.1, fun hk => (h.2 hk).store hi⟩
  | words i' q' b | release i' q' b => exact ⟨h.1, h.2.store hi⟩
  | zeroArgs i' q' b n | zeroRest i' q' b n m | fetch i' q' b n j | program i' q' b n j data =>
    exact ⟨h.1, h.2.1.store hi, h.2.2⟩
  | addLength i' q' b | setLength i' q' => exact ⟨h.1, h.2.1, h.2.2.store hi⟩
  | _ => trivial

end

namespace Device

/-- The step is one of a call of `Download`, other than a pass of `GetFileIndexFromBuf` that finds nothing. -/
def works (s : Device) : Act → Bool
  | .upd _ =>
    match s.upd with
    | .getIndex _ fileseq _ => (getFileIndex s.fileBuf fileseq).isSome
    | pc => pc.inDownload
  | _ => false

/-- The variables have not been cleared during the last call of `Download`. -/
def undisturbed : List (Device × Act) → Bool :=
  Lts.foldSince resets (fun b s a => if s.starts a then true else b && !(s.clears a && s.upd.inDownload)) true

/-- The iterations that the last call of `Download` has completed. -/
def iterations : List (Device × Act) → Nat :=
  Lts.foldSince resets (fun k s a => if s.starts a then 0 else if s.loads a then k + 1 else k) 0

/-- The steps that the last call of `Download` has made, without the waiting. -/
def worked : List (Device × Act) → Nat :=
  Lts.foldSince resets (fun w s a => if s.starts a then 0 else if s.works a then w + 1 else w) 0

/-- A call of `Download` is bounded. -/
structure Bounded (h : List (Device × Act)) (s : Device) : Prop where
  iterations : iterations h ≤ 65536
  /-- When the counter has wrapped no packet matches. -/
  wrapped : ∀ i fileseq tick, s.upd = .getIndex i fileseq tick → Device.iterations h = 65536 →
    fileseq = 0 ∧ getFileIndex s.fileBuf fileseq = none
  /-- `i` does not overflow. -/
  offset : ∀ i fileseq b, s.upd = .addLength i fileseq b → i + (s.fileBuf b).dataLen < 2 ^ 32
  worked : worked h ≤ 1546 * 65537

structure BoundInv (h : List (Device × Act)) (s : Device) : Prop where
  slots : SlotInv s.fileBuf
  fits : s.proc.Fits s.fileBuf
  iterations : undisturbed h = true → iterations h ≤ 65536
  worked : undisturbed h = true → worked h ≤ 1546 * Device.iterations h + s.upd.rank
  call : undisturbed h = true → s.upd.BoundInv s.fileBuf (Device.iterations h)

variable {h : List (Device × Act)} {s s' : Device} {a : Act} {hw : FlashStatus}

theorem undisturbed_cons (hr : s.resets a = false) (hs : s.starts a = false) :
    undisturbed ((s, a) :: h) = (undisturbed h && !(s.clears a && s.upd.inDownload)) := by
  rw [undisturbed, Lts.foldSince_cons hr, hs]; rfl

theorem iterations_cons (hr : s.resets a = false) (hs : s.starts a = false) :
    Device.iterations ((s, a) :: h) = if s.loads a then Device.iterations h + 1 else Device.iterations h := by
  rw [Device.iterations, Lts.foldSince_cons hr, hs]; rfl

theorem worked_cons (hr : s.resets a = false) (hs : s.starts a = false) :
    Device.worked ((s, a) :: h) = if s.works a then Device.worked h + 1 else Device.worked h := by
  rw [Device.worked, Lts.foldSince_cons hr, hs]; rfl

/-- A step that is not one of the update thread. -/
theorem BoundInv.frame (hI : BoundInv h s) (hr : s.resets a = false) (ha : ∀ hw, a ≠ .upd hw)
    (hslots : SlotInv s'.fileBuf) (hfits : s'.proc.Fits s'.fileBuf) (hu : s'.upd = s.upd)
    (hcall : (s.clears a && s.upd.inDownload) = false → s.upd.BoundInv s.fileBuf (Device.iterations h) →
      s.upd.BoundInv s'.fileBuf (Device.iterations h)) : BoundInv ((s, a) :: h) s' := by
  have hno : s.starts a = false ∧ s.loads a = false ∧ s.works a = false := by
    cases a with
    | upd hw => exact absurd rfl (ha hw)
    | _ => exact ⟨rfl, rfl, rfl⟩
  obtain ⟨hs, hl, hwk⟩ := hno
  have hund := undisturbed_cons (h := h) hr hs
  have hit := iterations_cons (h := h) hr hs
  have hwd := worked_cons (h := h) hr hs
  rw [hl] at hit
  rw [hwk] at hwd
  refine ⟨hslots, hfits, fun h => ?_, fun h => ?_, fun h => ?_⟩ <;>
    rw [hund, Bool.and_eq_true, Bool.not_eq_true'] at h <;> rw [hit]
  · exact hI.iterations h.1
  · rw [hwd, hu]; exact hI.worked h.1
  · rw [hu]; exact hcall h.2 (hI.call h.1)

/-- While the update thread runs, the process thread stores nothing. -/
theorem fits_of_yields {fb fb' : FileBufs} (hy : s.yields = true) (h : s.proc.Fits fb) : s.proc.Fits fb' := by
  cases hpc : s.proc with
  | sleep q n t => rw [hpc] at h; exact h
  | idle | ackTake c b hdr | ackWait c => trivial
  | _ => rw [yields, hpc] at hy; cases hy

theorem summaries_upd (hr : s.resets (.upd hw) = false) (hn : s.upd.turns = false) :
    undisturbed ((s, .upd hw) :: h) = undisturbed h ∧ Device.iterations ((s, .upd hw) :: h) = Device.iterations h ∧
      Device.worked ((s, .upd hw) :: h) = if s.works (.upd hw) then Device.worked h + 1 else Device.worked h := by
  have hs : s.starts (.upd hw) = false := beq_eq_false_iff_ne.2 fun hpc => by rw [hpc] at hn; cases hn
  have hl : s.loads (.upd hw) = false := by
    cases hpc : s.upd with
    | setLength i q => rw [hpc] at hn; cases hn
    | _ => simp [loads, hpc]
  exact ⟨(undisturbed_cons hr hs).trans (Bool.and_true _), by rw [iterations_cons hr hs, hl]; rfl,
    worked_cons hr hs⟩

/-- A step of the update thread that is neither the entry of `Download` nor the end of an iteration. -/
theorem BoundInv.goes_on (hI : BoundInv h s) (hr : s.resets (.upd hw) = false) (hy : s.yields = true)
    (hn : s.upd.turns = false) (hproc : s'.proc = s.proc) (hsh : Sheds s.fileBuf s'.fileBuf)
    (hnext : Device.iterations h ≤ 65536 → s.upd.BoundInv s.fileBuf (Device.iterations h) →
      (s.upd.rank < s'.upd.rank ∨ s.works (.upd hw) = false ∧ s.upd.rank ≤ s'.upd.rank) ∧
        s'.upd.BoundInv s'.fileBuf (Device.iterations h)) : BoundInv ((s, .upd hw) :: h) s' := by
  obtain ⟨hund, hit, hwd⟩ := summaries_upd (h := h) hr hn
  refine ⟨hI.slots.sheds hsh, ?_, ?_, fun h => ?_, ?_⟩
  · rw [hproc]; exact fits_of_yields hy hI.fits
  · rw [hund, hit]; exact hI.iterations
  · rw [hund] at h
    have := hI.worked h
    rw [hit, hwd]
    rcases (hnext (hI.iterations h) (hI.call h)).1 with hlt | ⟨hwk, hle⟩
    · split <;> omega
    · rw [hwk, if_neg Bool.false_ne_true]; omega
  · rw [hund, hit]; exact fun h => (hnext (hI.iterations h) (hI.call h)).2

theorem works_of_not_inDownload (hu : s.upd.inDownload = false) : s.works (.upd hw) = false := by
  rw [works]
  split
  · next hpc => rw [hpc] at hu; cases hu
  · exact hu

theorem BoundInv.leaves (hI : BoundInv h s) (hr : s.resets (.upd hw) = false) (hy : s.yields = true)
    (hn : s.upd.turns = false) (hproc : s'.proc = s.proc) (hfb : s'.fileBuf = s.fileBuf)
    (hu : s'.upd.inDownload = false)
    (hrank : s.upd.BoundInv s.fileBuf (Device.iterations h) → s.upd.rank < 1546) :
    BoundInv ((s, .upd hw) :: h) s' := by
  refine hI.goes_on hr hy hn hproc (hfb ▸ .refl) fun _ hc => ⟨.inl ?_, .of_not_inDownload hu⟩
  rw [UpdPc.rank_of_not_inDownload hu]; exact hrank hc

theorem BoundInv.outside (hI : BoundInv h s) (hr : s.resets (.upd hw) = false) (hy : s.yields = true)
    (hn : s.upd.turns = false) (hproc : s'.proc = s.proc) (hfb : s'.fileBuf = s.fileBuf)
    (hu : s.upd.inDownload = false) (hu' : s'.upd.inDownload = false) : BoundInv ((s, .upd hw) :: h) s' := by
  refine hI.goes_on hr hy hn hproc (hfb ▸ .refl) fun _ _ =>
    ⟨.inr ⟨works_of_not_inDownload hu, ?_⟩, .of_not_inDownload hu'⟩
  rw [UpdPc.rank_of_not_inDownload hu, UpdPc.rank_of_not_inDownload hu']

/-- A pass of `GetFileIndexFromBuf` that does not lead on has found nothing. -/
theorem works_of_wait {i q t : Nat} (hp : s.updStep hw = some s') (hpc : s.upd = .getIndex i q t)
    (hpc' : s'.upd = .getIndex i q t) : s.works (.upd hw) = false := by
  cases hg : getFileIndex s.fileBuf q with
  | none => simp only [works, hpc, hg, Option.isSome_none]
  | some b => simp only [updStep, hpc, hg, Option.some.injEq] at hp; rw [← hp] at hpc'; cases hpc'

theorem BoundInv.enter (hI : BoundInv h s) (hr : s.resets (.upd hw) = false) (hpc : s.upd = .downloadEnter)
    (hproc : s'.proc = s.proc) (hfb : s'.fileBuf = s.fileBuf) (hu : s'.upd = .loopTest 0 0) :
    BoundInv ((s, .upd hw) :: h) s' := by
  have hs : s.starts (.upd hw) = true := by simp [starts, hpc]
  have hit : Device.iterations ((s, .upd hw) :: h) = 0 := by
    rw [Device.iterations, Lts.foldSince_cons hr, hs]; rfl
  have hwd : Device.worked ((s, .upd hw) :: h) = 0 := by
    rw [Device.worked, Lts.foldSince_cons hr, hs]; rfl
  refine ⟨hfb ▸ hI.slots, by rw [hproc, hfb]; exact hI.fits, fun _ => ?_, fun _ => ?_, fun _ => ?_⟩
  · rw [hit]; exact Nat.zero_le _
  · rw [hwd]; exact Nat.zero_le _
  · rw [hit, hu]; exact ⟨⟨rfl, Nat.le_refl 0⟩, fun h => absurd h (Nat.lt_irrefl 0)⟩

theorem BoundInv.turn {i q : Nat} (hI : BoundInv h s) (hr : s.resets (.upd hw) = false) (hy : s.yields = true)
    (hpc : s.upd = .setLength i q) (hproc : s'.proc = s.proc) (hfb : s'.fileBuf = s.fileBuf)
    (hu : s'.upd = .setProgress i ((q + 1) % 65536)) : BoundInv ((s, .upd hw) :: h) s' := by
  have hs : s.starts (.upd hw) = false := by simp [starts, hpc]
  have hund : undisturbed ((s, .upd hw) :: h) = undisturbed h :=
    (undisturbed_cons hr hs).trans (Bool.and_true _)
  have hit : Device.iterations ((s, .upd hw) :: h) = Device.iterations h + 1 := by
    rw [iterations_cons hr hs]; simp [loads, hpc]
  have hwd : Device.worked ((s, .upd hw) :: h) = Device.worked h + 1 := by
    rw [worked_cons hr hs]; simp [works, hpc, UpdPc.inDownload, UpdPc.consumes]
  have hcall := hI.call
  have hrank := hI.worked
  rw [hpc] at hcall hrank
  refine ⟨hfb ▸ hI.slots, ?_, fun h => ?_, fun h => ?_, fun h => ?_⟩
  · rw [hproc]; exact fits_of_yields hy hI.fits
  · rw [hit]; exact (hcall (hund ▸ h)).2.1
  · have hle : Device.worked _ ≤ 1546 * Device.iterations _ + 1545 := hrank (hund ▸ h)
    rw [hit, hwd, hu]
    show _ ≤ 1546 * (Device.iterations _ + 1) + 0
    omega
  · obtain ⟨⟨hq, hi⟩, -, hgone⟩ := hcall (hund ▸ h)
    rw [hit, hu, hfb]
    exact ⟨⟨by rw [hq, Nat.mod_add_mod], hi⟩, fun _ => hgone⟩

theorem BoundInv.upd (hI : BoundInv h s) (hr : s.resets (.upd hw) = false) (hy : s.yields = true)
    (hp : s.updStep hw = some s') : BoundInv ((s, .upd hw) :: h) s' := by
  have hst := updStep_cases hp hr
  generalize hpc : s.upd = pc at hst
  have hn : pc.turns = false → s.upd.turns = false := by rw [hpc]; exact id
  cases hst with
  | downloadEnter => exact hI.enter hr hpc rfl rfl rfl
  | setLength => exact hI.turn hr hy hpc rfl rfl rfl
  | loopDone | timeOut =>
    exact hI.leaves hr hy (hn rfl) rfl rfl rfl fun _ => by rw [hpc]; exact Nat.le_of_ble_eq_true rfl
  | @programFails i q b n j data =>
    refine hI.leaves hr hy (hn rfl) rfl rfl rfl fun hc => ?_
    rw [hpc] at hc ⊢
    obtain ⟨-, -, hn, hj⟩ := hc
    show 1031 + 2 * j < 1546
    omega
  | @found _ i q t b hb =>
    refine hI.goes_on hr hy (hn rfl) rfl .refl fun hk hc => ⟨.inl (by rw [hpc]; exact Nat.lt_succ_self 2), ?_⟩
    rw [hpc] at hc
    obtain ⟨hcnt, hgone⟩ := hc
    obtain ⟨-, hst, hseq⟩ := getFileIndex_some hb
    refine ⟨hcnt, Nat.lt_of_le_of_ne hk fun he => ?_, hst, hseq, hgone⟩
    -- the counter has wrapped, and packet 0 is gone
    rw [hcnt.seq, he] at hseq
    exact (hgone (by omega)).absent b hst hseq
  | wait =>
    have hwk := works_of_wait hp hpc rfl
    exact hI.goes_on hr hy (hn rfl) rfl .refl fun _ hc => ⟨.inr ⟨hwk, by rw [hpc]⟩, by rw [hpc] at hc; exact hc⟩
  | loop | setProgress =>
    exact hI.goes_on hr hy (hn rfl) rfl .refl fun _ hc =>
      ⟨.inl (by rw [hpc]; exact Nat.lt_succ_self _), by rw [hpc] at hc; exact hc⟩
  | wordsRest =>
    refine hI.goes_on hr hy (hn rfl) rfl .refl fun _ hc => ⟨.inl (by rw [hpc]; exact Nat.lt_succ_self _), ?_⟩
    rw [hpc] at hc
    exact ⟨hc.1, hc.2, hI.slots.wordDataNum_le⟩
  | words =>
    refine hI.goes_on hr hy (hn rfl) rfl .refl fun _ hc => ⟨.inl (by rw [hpc]; exact Nat.le_add_right 4 1026), ?_⟩
    rw [hpc] at hc
    exact ⟨hc.1, hc.2, hI.slots.wordDataNum_le, Nat.zero_le _⟩
  | zeroArgs =>
    refine hI.goes_on hr hy (hn rfl) rfl .refl fun _ hc => ⟨.inl (by rw [hpc]; exact Nat.le_add_right 5 _), ?_⟩
    rw [hpc] at hc
    exact ⟨hc.1, hc.2.1, hc.2.2, hI.slots.dataLen _⟩
  | zeroByte hk =>
    refine hI.goes_on hr hy (hn rfl) rfl .zeroByte fun _ hc =>
      ⟨.inl (by rw [hpc]; exact Nat.lt_succ_self _), ?_⟩
    rw [hpc] at hc
    exact ⟨hc.1, hc.2.1.zeroByte, hc.2.2.1, hk⟩
  | @zeroDone _ i q b n m =>
    refine hI.goes_on hr hy (hn rfl) rfl .refl fun _ hc => ?_
    rw [hpc] at hc ⊢
    obtain ⟨hcnt, hheld, hn, hm⟩ := hc
    refine ⟨.inl ?_, hcnt, hheld, hn, Nat.zero_le _⟩
    show 5 + m < 1030 + 2 * 0
    omega
  | fetch hj =>
    refine hI.goes_on hr hy (hn rfl) rfl .refl fun _ hc => ?_
    rw [hpc] at hc ⊢
    exact ⟨.inl (Nat.add_lt_add_right (Nat.lt_succ_self 1030) _), hc.1, hc.2.1, hc.2.2.1, hj⟩
  | @program i q b n j data =>
    refine hI.goes_on hr hy (hn rfl) rfl .refl fun _ hc => ?_
    rw [hpc] at hc ⊢
    refine ⟨.inl ?_, hc⟩
    show 1031 + 2 * j < 1030 + 2 * (j + 1)
    omega
  | @fetchDone _ i q b n j hle =>
    refine hI.goes_on hr hy (hn rfl) rfl .refl fun _ hc => ?_
    rw [hpc] at hc ⊢
    obtain ⟨hcnt, hheld, hn, hj⟩ := hc
    refine ⟨.inl ?_, hcnt, hheld⟩
    show 1030 + 2 * j < 1543
    omega
  | release =>
    refine hI.goes_on hr hy (hn rfl) rfl .release fun _ hc => ⟨.inl (by rw [hpc]; exact Nat.lt_succ_self _), ?_⟩
    rw [hpc] at hc
    obtain ⟨hcnt, hheld⟩ := hc
    exact ⟨hcnt, hheld.lt, hheld.release hcnt hI.slots⟩
  | @addLength _ i q b =>
    refine hI.goes_on hr hy (hn rfl) rfl .refl fun _ hc => ⟨.inl (by rw [hpc]; exact Nat.lt_succ_self _), ?_⟩
    rw [hpc] at hc
    obtain ⟨hcnt, hlt, hgone⟩ := hc
    have hoff := hcnt.offset
    have hlen := hI.slots.dataLen b
    exact ⟨⟨hcnt.seq, Nat.le_trans (Nat.mod_le _ _) (by omega)⟩, hlt, hgone⟩
  | _ => exact hI.outside hr hy (hn rfl) rfl rfl (by rw [hpc]; rfl) rfl

/-! ### Runs -/

theorem procStep_fits (hp : s.procStep = some s') (hr : s.resets .proc = false) (hI : s.proc.Fits s.fileBuf) :
    s'.proc.Fits s'.fileBuf := by
  have hst := procStep_cases hp hr
  generalize s.proc = pc at hst hI
  cases hst with
  | lenRead hle => exact hle
  | saveFile | sleep | pollSleep => exact hI
  | pollStore hi => exact ⟨hI, Nat.zero_le _, hi⟩
  | copy hlt => exact ⟨hI.1, by rw [List.length_append, List.length_singleton]; exact hlt, hI.2.2⟩
  | _ => trivial

theorem BoundInv.proc (hI : BoundInv h s) (hr : s.resets .proc = false) (hp : s.procStep = some s') :
    BoundInv ((s, .proc) :: h) s' := by
  have hfits := procStep_fits hp hr hI.fits
  have hu := (procStep_frame hp hr).2.2
  rcases procStep_fileBuf hp hr with ⟨hc, -, hfb⟩ | ⟨hc, i, q, n, l, hpc, -, -, hfb⟩ | ⟨-, -, hfb⟩
  · refine hI.frame hr (by rintro _ ⟨⟩) (hfb ▸ .clear) hfits hu fun hno _ => ?_
    rw [hc, Bool.true_and] at hno
    exact .of_not_inDownload hno
  · have hf := hI.fits
    rw [hpc] at hf
    obtain ⟨hn, hl, hi⟩ := hf
    refine hI.frame hr (by rintro _ ⟨⟩) ?_ hfits hu fun _ hcall => ?_ <;> rw [hfb]
    · exact hI.slots.store (Nat.le_trans hl hn) hi
    · exact hcall.store hi
  · refine hI.frame hr (by rintro _ ⟨⟩) (hfb ▸ hI.slots) hfits hu fun _ hcall => ?_
    rw [hfb]; exact hcall

theorem BoundInv.reset {flash eeprom : Mem} (h0 : Device.iterations h = 0) (h1 : Device.worked h = 0) :
    BoundInv h (Device.reset flash eeprom) := by
  refine ⟨.clear, trivial, fun _ => ?_, fun _ => ?_, fun _ => trivial⟩
  · rw [h0]; exact Nat.zero_le _
  · rw [h1]; exact Nat.zero_le _

theorem BoundInv.next (hI : BoundInv h s) (ha : step a s = some s') : BoundInv ((s, a) :: h) s' := by
  cases step_cases ha with
  | reset e he hr hs => rw [hs]; exact .reset (Lts.foldSince_of_reset hr) (Lts.foldSince_of_reset hr)
  | recv d addr hc hs =>
    rcases s.deliver_cases d addr with ⟨-, -, -, hs'⟩ | ⟨-, c, hs'⟩ <;> rw [hs, hs'] <;>
      exact hI.frame rfl (by rintro _ ⟨⟩) hI.slots hI.fits rfl fun _ => id
  | proc hr hp => exact hI.proc hr hp
  | upd hw hr hy hp => exact hI.upd hr hy hp
  | other e n t m c hr h₁ h₂ h₃ hs =>
    rw [hs]
    exact hI.frame hr h₃ hI.slots hI.fits rfl fun _ => id

theorem BoundInv.of_run (hr : system.Run h s) : BoundInv h s :=
  hr.inv' (fun s hs => by
    rw [show s = Device.reset s.flash s.eeprom from hs]
    exact .reset rfl rfl) fun _ _ _ _ => BoundInv.next

/-- Every call of `Download` during which `ERASE_FLASH` does not clear the variables is bounded. -/
theorem bounded_of_run (hr : system.Run h s) (hund : undisturbed h = true) : Bounded h s := by
  have hI := BoundInv.of_run hr
  have hk := hI.iterations hund
  have hw := hI.worked hund
  have hcall := hI.call hund
  refine ⟨hk, fun i q t hpc he => ?_, fun i q b hpc => ?_, ?_⟩
  · rw [hpc] at hcall
    obtain ⟨hcnt, hgone⟩ := hcall
    have hq : q = 0 := by rw [hcnt.seq, he]
    refine ⟨hq, Option.eq_none_iff_forall_ne_some.2 fun b hb => ?_⟩
    obtain ⟨-, hst, hseq⟩ := getFileIndex_some hb
    exact (hgone (by omega)).absent b hst (hseq.trans hq)
  · rw [hpc] at hcall
    have hoff := hcall.1.offset
    have hlen := hI.slots.dataLen b
    omega
  · have := hcall.rank_le
    omega

/-- A packet of length 0: an iteration that does not advance. -/
theorem bounded_of_run_empty : ∃ h s, system.Run h s ∧ Device.iterations h = 1 ∧ s.codeDownloadLength = 0 ∧
    Bounded h s := by
  obtain ⟨h, s, hr, hit, hcdl, hund⟩ := Lts.exists_run_of_exec (S := system)
    (P := fun h s => Device.iterations h = 1 ∧ s.codeDownloadLength = 0 ∧ undisturbed h = true)
    (bootActs ++ [.recv (eraseFrame 8 36) 7] ++ procs 14 ++ [.recv (downloadFrame 0 []) 7] ++ procs 16 ++ upds 12)
    (init_reset (fun _ => 0) (eepromOf 1)) (by decide +kernel)
  exact ⟨h, s, hr, hit, hcdl, bounded_of_run hr hund⟩

end Device

end Bootloader
