import Bootloader.Download

/-!
# The words that Download programs

`EraseFlash` erases the sectors of the length that it finds, `Download` programs word by word from
`CodeDownloadLength` on. A word is erased when it is programmed, and belongs to the session of the last
`ERASE_FLASH`, as long as `ERASE_FLASH` does not clear the variables while `Download` runs, the packets
start at multiples of four and do not run past the sectors erased.
-/

namespace Bootloader

/-! ### Erased cells -/

/-- The cells from `a` on are erased up to `b`. -/
def Erased (flash : Mem) (a b : Nat) : Prop := ∀ x, a ≤ x → x < b → flash x = 0xFF

def up4 (x : Nat) : Nat := (x + 3) / 4 * 4

section
variable {flash : Mem} {a a' b k : Nat}

theorem Erased.mono (h : Erased flash a b) (ha : a ≤ a') : Erased flash a' b :=
  fun x hx => h x (Nat.le_trans ha hx)

theorem Erased.sector (h : Erased flash a (addrFlashSector k)) :
    Erased (flashEraseSector flash (flashSector k) .complete) a (addrFlashSector (k + 1)) := by
  intro x hx hlt
  show (if inSector (flashSector k) x then 0xFF else flash x) = 0xFF
  split
  · rfl
  · next hin =>
    rw [inSector, flashSector, Nat.mul_div_cancel_left _ (by decide)] at hin
    exact h x hx (Nat.lt_of_not_le fun hle => hin ⟨hle, hlt⟩)

theorem Erased.program {l : List UInt8} (h : Erased flash a b) (hl : a + l.length ≤ a') :
    Erased (flash.program a l) a' b := by
  intro x hx hlt
  rw [Mem.program_of_ge (by omega)]
  exact h x (by omega) hlt

theorem Erased.read {n : Nat} (h : Erased flash a b) (hn : a + n ≤ b) :
    flash.read a n = List.replicate n 0xFF := by
  refine List.ext_getElem (by simp) fun k h₁ h₂ => ?_
  rw [List.length_replicate] at h₂
  rw [Mem.getElem_read, List.getElem_replicate]
  exact h _ (by omega) (by omega)

theorem addrFlashSector_le : addrFlashSector k ≤ flashEndAddr := by
  by_cases hk : k < 12
  · interval_cases k <;> decide
  · rw [flashEndAddr, show addrFlashSector k = 0x08100000 by unfold addrFlashSector; split <;> omega]
    decide

end

/-! ### What is still erased -/

/-- The word of its packet that `Download` programs next. -/
def UpdPc.index : UpdPc → Nat
  | .fetch _ _ _ _ j | .program _ _ _ _ j _ => j
  | _ => 0

/-- The offset from which on the flash is still erased. -/
def UpdPc.edge (codeDownloadLength : Nat) (fb : FileBufs) : UpdPc → Nat
  | .fetch _ _ _ _ j | .program _ _ _ _ j _ => up4 codeDownloadLength + 4 * j
  | .release _ _ b | .addLength _ _ b => up4 (codeDownloadLength + (fb b).dataLen)
  | .setLength i _ => up4 i
  | _ => up4 codeDownloadLength

namespace Device

def starts (s : Device) : Act → Bool
  | .upd _ => s.upd == .downloadEnter
  | _ => false

def entersErase (s : Device) : Act → Bool
  | .upd _ => s.upd == .eraseEnter
  | _ => false

def programs (s : Device) : Act → Option (Nat × List UInt8)
  | .upd _ => s.upd.word
  | _ => none

/-- `Download` has been entered since the last `ERASE_FLASH` cleared the variables. -/
def started : List (Device × Act) → Bool :=
  Lts.foldSince resets (fun b s a => if s.clears a then false else b || s.starts a) false

/-- The end of the sectors that `EraseFlash` was to erase when it was entered last. -/
def erasedTo : List (Device × Act) → Nat :=
  Lts.foldSince resets (fun x s a => if s.entersErase a then erasedEnd s.codeTotalLength else x) 0

/-- A word is programmed by a `Download` entered since the last `ERASE_FLASH`; it is one of the next packet
stored since, at the offset of that packet, and the cells are erased. -/
def IsolationOk (h : List (Device × Act)) (s : Device) (a : Act) : Prop :=
  ∀ x ∈ s.programs a, started h = true ∧ loaded h ∈ seqs (stored h) ∧
    x.2 = wordOf (payloadOf (stored h) (loaded h)) x.1 ∧
    s.codeDownloadLength = offsetOf (stored h) (loaded h) ∧
    s.flash.read (u32 (flashUserStartAddr + s.codeDownloadLength + 4 * x.1)) 4 = List.replicate 4 0xFF

instance (h : List (Device × Act)) (s : Device) (a : Act) : Decidable (IsolationOk h s a) :=
  inferInstanceAs (Decidable (∀ x ∈ s.programs a, _ ∧ _ ∧ _ ∧ _ ∧ _))

/-- The variables are not cleared while `Download` runs, the lengths that it reads back are kept, and a
word is programmed at a multiple of four below the end of the sectors erased. -/
def IsolationGuard (h : List (Device × Act)) (s : Device) (a : Act) : Prop :=
  DownloadGuard h s a ∧ ∀ x ∈ s.programs a, s.codeDownloadLength % 4 = 0 ∧
    flashUserStartAddr + s.codeDownloadLength + 4 * x.1 + 4 ≤ erasedTo h

instance (h : List (Device × Act)) (s : Device) (a : Act) : Decidable (IsolationGuard h s a) :=
  inferInstanceAs (Decidable (_ ∧ ∀ x ∈ s.programs a, _))

def edge (s : Device) : Nat := s.upd.edge s.codeDownloadLength s.fileBuf

structure IsolationInv (h : List (Device × Act)) (s : Device) : Prop where
  started : s.upd.inDownload = true → started h = true
  erase : ∀ c e, s.upd = .eraseLoop c e → ∃ k m, c = flashSector k ∧ e = flashSector m ∧
    erasedTo h = addrFlashSector (m + 1) ∧ (k ≤ m + 1 ∨ k = 5) ∧
    Erased s.flash flashUserStartAddr (addrFlashSector k)
  erased : s.upd.inDownload = true ∨ s.upd = .downloadEnter →
    Erased s.flash (flashUserStartAddr + s.edge) (erasedTo h)
  aligned : 0 < s.upd.index → s.codeDownloadLength % 4 = 0

variable {h : List (Device × Act)} {s s' : Device} {a : Act} {hw : FlashStatus}

theorem started_cons (hr : s.resets a = false) (hc : s.clears a = false) :
    Device.started ((s, a) :: h) = (Device.started h || s.starts a) := by
  rw [Device.started, Lts.foldSince_cons hr, hc]; rfl

theorem erasedTo_cons (hr : s.resets a = false) (he : s.entersErase a = false) :
    erasedTo ((s, a) :: h) = erasedTo h := by
  rw [erasedTo, Lts.foldSince_cons hr, he]; rfl

theorem index_of_not_inDownload {pc : UpdPc} (hu : pc.inDownload = false) : pc.index = 0 := by
  cases pc <;> first | rfl | cases hu

theorem address_eq {j : Nat} (hend : flashUserStartAddr + s.codeDownloadLength + 4 * j + 4 ≤ erasedTo h)
    (hto : erasedTo h ≤ flashEndAddr) :
    u32 (flashUserStartAddr + s.codeDownloadLength + 4 * j) =
      flashUserStartAddr + s.codeDownloadLength + 4 * j :=
  Nat.mod_eq_of_lt (by have : flashEndAddr = 0x08100000 := rfl; omega)

theorem erasedTo_le : ∀ {h : List (Device × Act)}, erasedTo h ≤ flashEndAddr
  | [] => Nat.zero_le _
  | (s, a) :: h => by
    cases hr : s.resets a with
    | true => rw [erasedTo, Lts.foldSince_of_reset hr]; exact Nat.zero_le _
    | false =>
      cases he : s.entersErase a with
      | true => rw [erasedTo, Lts.foldSince_cons hr, he]; exact addrFlashSector_le
      | false => rw [erasedTo_cons hr he]; exact erasedTo_le

/-- Outside the cycle from `EraseFlash` to the end of `Download` there is nothing to show. -/
theorem IsolationInv.outside (hu : s.upd.inDownload = false) (he : ∀ c e, s.upd ≠ .eraseLoop c e)
    (hd : s.upd ≠ .downloadEnter) : IsolationInv h s := by
  refine ⟨fun h => ?_, fun c e h => absurd h (he c e), fun h => ?_, fun h => ?_⟩
  · rw [hu] at h; cases h
  · rcases h with h | h
    · rw [hu] at h; cases h
    · exact absurd h hd
  · rw [index_of_not_inDownload hu] at h; cases h

theorem IsolationInv.same (hI : IsolationInv h s) (hr : s.resets a = false) (hc : s.clears a = false)
    (he : s.entersErase a = false)
    (hs : s'.flash = s.flash ∧ s'.upd = s.upd ∧ s'.codeDownloadLength = s.codeDownloadLength)
    (hedge : s.upd.inDownload = true ∨ s.upd = .downloadEnter → s'.edge = s.edge) :
    IsolationInv ((s, a) :: h) s' := by
  obtain ⟨hf, hu, hcdl⟩ := hs
  refine ⟨fun h => ?_, ?_, fun h => ?_, ?_⟩
  · rw [started_cons hr hc, hI.started (hu ▸ h)]; rfl
  · rw [hu, hf, erasedTo_cons hr he]; exact hI.erase
  · rw [hu] at h
    rw [hf, hedge h, erasedTo_cons hr he]; exact hI.erased h
  · rw [hu, hcdl]; exact hI.aligned

theorem IsolationInv.inside (hI : IsolationInv h s) (hr : s.resets (.upd hw) = false)
    (hu : s.upd.inDownload = true) (he : ∀ c e, s'.upd ≠ .eraseLoop c e)
    (herased : Erased s'.flash (flashUserStartAddr + s'.edge) (erasedTo h))
    (hal : 0 < s'.upd.index → s'.codeDownloadLength % 4 = 0) : IsolationInv ((s, .upd hw) :: h) s' := by
  have hen : s.entersErase (.upd hw) = false := by
    rw [entersErase, beq_eq_false_iff_ne]
    intro hpc
    rw [hpc] at hu; cases hu
  refine ⟨fun _ => ?_, fun c e h => absurd h (he c e), fun _ => ?_, hal⟩
  · rw [started_cons hr rfl, hI.started hu]; rfl
  · rw [erasedTo_cons hr hen]; exact herased

theorem IsolationInv.stays (hI : IsolationInv h s) (hr : s.resets (.upd hw) = false)
    (hu : s.upd.inDownload = true) (he : ∀ c e, s'.upd ≠ .eraseLoop c e) (hf : s'.flash = s.flash)
    (hedge : s.edge ≤ s'.edge) (hx : s'.upd.index = 0) : IsolationInv ((s, .upd hw) :: h) s' := by
  refine hI.inside hr hu he ?_ fun h => ?_
  · rw [hf]; exact (hI.erased (.inl hu)).mono (Nat.add_le_add_left hedge _)
  · rw [hx] at h; exact absurd h (Nat.lt_irrefl 0)

theorem up4_add {x n l : Nat} (hn : 4 * n = up4 l) (hal : 0 < n → x % 4 = 0) :
    up4 (x + l) = up4 x + 4 * n := by
  unfold up4 at *
  by_cases h0 : n = 0
  · omega
  · have := hal (Nat.pos_of_ne_zero h0); omega

theorem wordDataNum_eq (b : FileBuf) : 4 * b.wordDataNum = up4 b.dataLen := by
  unfold FileBuf.wordDataNum up4; split <;> omega

/-- A step within `Download` does not lower the offset, and one that programs a word raises it by four. -/
theorem edge_upd (hD : DownloadInv h s) (hr : s.resets (.upd hw) = false) (hp : s.updStep hw = some s')
    (hu : s.upd.inDownload = true) (hu' : s'.upd.inDownload = true)
    (hal : 0 < s.upd.index → s.codeDownloadLength % 4 = 0) :
    s.edge + 4 * (s.programs (.upd hw)).toList.length ≤ s'.edge := by
  have hloop := hD.loop
  have hst := updStep_cases hp hr
  have hno : s.upd.word = none → s.edge ≤ s'.edge →
      s.edge + 4 * (s.programs (.upd hw)).toList.length ≤ s'.edge := fun hno hle => by
    rw [show s.programs (.upd hw) = none from hno]; exact hle
  generalize hpc : s.upd = pc at hst hloop
  rw [hpc] at hu hal hno
  cases hst with
  | loop | found | wait | wordsRest | words | zeroArgs | zeroByte | zeroDone | fetch | setLength | setProgress =>
    exact hno rfl (by rw [edge, hpc]; exact Nat.le_refl _)
  | fetchDone hle =>
    obtain ⟨-, -, hpad, hj⟩ := hloop
    obtain rfl := Nat.le_antisymm hj hle
    refine hno rfl ?_
    rw [edge, hpc]
    exact Nat.le_of_eq (up4_add (hpad.num ▸ wordDataNum_eq _) hal).symm
  | @program i q b n j data =>
    rw [show s.programs (.upd .complete) = some (j, data) by rw [programs, hpc]; rfl, edge, hpc]
    exact Nat.le_of_eq (Nat.add_assoc _ _ _)
  | @release _ i q b =>
    refine hno rfl ?_
    rw [edge, hpc]
    show _ ≤ up4 (s.codeDownloadLength + (s.fileBuf.release b b).dataLen)
    rw [FileBufs.release_dataLen]; exact Nat.le_refl _
  | addLength =>
    obtain ⟨⟨hrel, hi⟩, hlen⟩ := hloop
    refine hno rfl ?_
    obtain ⟨hle, hc⟩ := offsetOf_le (n := loaded h + 1) hD.ring (by rw [hrel.back])
    rw [offsetOf_succ, ← hrel.offset, ← hlen] at hle
    rw [edge, hpc, hi]
    show _ ≤ up4 (u32 _)
    rw [u32, Nat.mod_eq_of_lt (by omega)]; exact Nat.le_refl _
  | loopDone | timeOut | programFails => cases hu'
  | _ => cases hu

theorem IsolationInv.upd (hD : DownloadInv h s) (hI : IsolationInv h s) (hg : IsolationGuard h s (.upd hw))
    (hr : s.resets (.upd hw) = false) (hp : s.updStep hw = some s') :
    IsolationInv ((s, .upd hw) :: h) s' := by
  have hloop := hD.loop
  have hst := updStep_cases hp hr
  generalize hpc : s.upd = pc at hst hloop
  cases hst with
  | eraseEnter =>
    obtain ⟨m, hm, hsec⟩ := getSector_eq (u32 (flashUserStartAddr + s.codeTotalLength))
    have hto : erasedTo ((s, .upd hw) :: h) = erasedEnd s.codeTotalLength := by
      have he : s.entersErase (.upd hw) = true := by simp [entersErase, hpc]
      rw [erasedTo, Lts.foldSince_cons hr, he]; rfl
    refine ⟨(by rintro ⟨⟩), fun c e he => ?_, (by rintro (h | h) <;> cases h), (by rintro ⟨⟩)⟩
    cases he
    refine ⟨5, m, rfl, hsec, ?_, .inr rfl, fun x h₁ h₂ => absurd h₁ (Nat.not_le.2 h₂)⟩
    rw [hto, erasedEnd, hsec, flashSector, Nat.mul_div_cancel_left _ (by decide)]
  | @eraseSector c e hle =>
    obtain ⟨k, m, rfl, rfl, hto, hk, her⟩ := hI.erase c e hpc
    have hle : k ≤ m := by unfold flashSector at hle; omega
    refine ⟨(by rintro ⟨⟩), fun c e he => ?_, (by rintro (h | h) <;> cases h), (by rintro ⟨⟩)⟩
    cases he
    refine ⟨k + 1, m, rfl, rfl, ?_, .inl (Nat.succ_le_succ hle), her.sector⟩
    rw [erasedTo_cons hr (by simp [entersErase, hpc])]; exact hto
  | @eraseDone _ c e hlt =>
    obtain ⟨k, m, rfl, rfl, hto, hk, her⟩ := hI.erase c e hpc
    have hlt : m < k := by unfold flashSector at hlt; omega
    refine ⟨(by rintro ⟨⟩), (by rintro _ _ ⟨⟩), fun _ => ?_, (by rintro ⟨⟩)⟩
    rw [erasedTo_cons hr (by simp [entersErase, hpc]), hto]
    rcases hk with hk | rfl
    · rw [Nat.le_antisymm hk hlt] at her
      exact her.mono (Nat.le_add_right _ _)
    · intro x h₁ h₂
      have : addrFlashSector (m + 1) ≤ flashUserStartAddr := by
        have : m ≤ 4 := by omega
        interval_cases m <;> decide
      omega
  | downloadEnter =>
    have her := hI.erased (.inr hpc)
    refine ⟨fun _ => ?_, (by rintro _ _ ⟨⟩), fun _ => ?_, (by rintro ⟨⟩)⟩
    · rw [started_cons hr rfl, show s.starts (.upd hw) = true by simp [starts, hpc], Bool.or_true]
    · rw [erasedTo_cons hr (by simp [entersErase, hpc])]
      rw [edge, hpc] at her; exact her
  | loop | found | wait | wordsRest | words | zeroArgs | zeroByte | zeroDone | fetchDone | release | addLength
  | setLength | setProgress =>
    have hedge := edge_upd hD hr hp (by rw [hpc]; rfl) rfl hI.aligned
    exact hI.stays hr (by rw [hpc]; rfl) (by rintro _ _ ⟨⟩) rfl (Nat.le_of_add_right_le hedge) rfl
  | fetch =>
    have her := hI.erased (.inl (by rw [hpc]; rfl))
    have hal := hI.aligned
    rw [edge, hpc] at her
    rw [hpc] at hal
    exact hI.inside hr (by rw [hpc]; rfl) (by rintro _ _ ⟨⟩) her hal
  | @program i q b n j data =>
    obtain ⟨-, -, -, -, hdata⟩ := hloop
    obtain ⟨h4, hend⟩ := hg.2 (j, data) (by rw [programs, hpc]; rfl)
    have her := hI.erased (.inl (by rw [hpc]; rfl))
    have haddr := address_eq hend erasedTo_le
    have hlen : data.length ≤ 4 := by rw [hdata, wordOf]; exact List.length_take_le _ _
    have hup : up4 s.codeDownloadLength = s.codeDownloadLength := by unfold up4; omega
    rw [edge, hpc, UpdPc.edge, hup, ← Nat.add_assoc] at her
    refine hI.inside hr (by rw [hpc]; rfl) (by rintro _ _ ⟨⟩) ?_ fun _ => h4
    show Erased (s.flash.program (u32 _) data) (_ + (up4 s.codeDownloadLength + 4 * (j + 1))) _
    rw [haddr, hup]
    exact her.program (by omega)
  | _ => exact .outside rfl (by rintro _ _ ⟨⟩) (by rintro ⟨⟩)

/-- A packet stored by the process thread leaves what is still erased as it is. -/
theorem edge_store {fb : FileBufs} {st : List (Nat × List UInt8)} {pc : UpdPc} {k c x i q : Nat}
    {l : List UInt8} (h : RingInv fb st c) (hI : pc.LoopInv st k c x fb) (hnew : alreadySaved fb q = false)
    (hi : pollSlot fb q = .store i) (hkeep : ∀ b ∈ pc.readsBack, i = b → l.length = (fb b).dataLen) :
    pc.edge x (fb.store i q l) = pc.edge x fb := by
  cases pc with
  | release i' q' b =>
    have hne : b ≠ i := fun he => by
      have := (h.store_slot hnew hi).2.2.1
      rw [← he, hI.2.state] at this
      exact this rfl
    rw [UpdPc.edge, FileBufs.store, FileBufs.set_of_ne hne]; rfl
  | addLength i' q' b =>
    by_cases hib : b = i
    · rw [UpdPc.edge, FileBufs.store, hib, FileBufs.set_self, UpdPc.edge]
      show up4 (x + l.length) = _
      rw [hkeep b rfl hib.symm, hib]
    · rw [UpdPc.edge, FileBufs.store, FileBufs.set_of_ne hib]; rfl
  | _ => rfl

/-- The process thread moves the edge only where it clears the slots. -/
theorem edge_procStep (hD : DownloadInv h s) (hg : DownloadGuard h s .proc) (hp : s.procStep = some s')
    (hr : s.resets .proc = false) (hc : s.clears .proc = false) : s'.edge = s.edge := by
  obtain ⟨⟨-, hcdl⟩, -⟩ := procStep_request hp hr hc
  rw [edge, edge, (procStep_frame hp hr).2.2, hcdl]
  rcases procStep_fileBuf hp hr with ⟨hc', -, -⟩ | ⟨-, i, q, n, l, hpc, hge, -, hfb⟩ | ⟨-, -, hfb⟩
  · rw [hc] at hc'; cases hc'
  · have hsv := hD.save
    rw [hpc] at hsv
    rw [hfb]
    exact edge_store hD.ring hD.loop hsv.2.1 hsv.2.2.2 (hg.2.keeps hpc hge)
  · rw [hfb]

theorem IsolationInv.proc (hD : DownloadInv h s) (hI : IsolationInv h s) (hg : IsolationGuard h s .proc)
    (hr : s.resets .proc = false) (hp : s.procStep = some s') : IsolationInv ((s, .proc) :: h) s' := by
  obtain ⟨hf, -, hu⟩ := procStep_frame hp hr
  cases hc : s.clears .proc with
  | true =>
    have hno := hg.1.1 hc
    have hs := procStep_clear hp hc
    subst hs
    refine ⟨fun h => ?_, ?_, fun h => ?_, fun h => ?_⟩
    · rw [hu, hno] at h; cases h
    · rw [erasedTo_cons hr rfl]; exact hI.erase
    · have h : s.upd = .downloadEnter := h.resolve_left (by rw [hu, hno]; rintro ⟨⟩)
      have her := hI.erased (.inr h)
      rw [edge, h, (hD.fresh (.inr (.inr h))).2.2] at her
      rw [erasedTo_cons hr rfl]
      show Erased s.flash (_ + UpdPc.edge 0 _ s.upd) _
      rw [h]; exact her
    · rw [hu, index_of_not_inDownload hno] at h; cases h
  | false =>
    obtain ⟨⟨-, hcdl⟩, -⟩ := procStep_request hp hr hc
    exact hI.same hr hc rfl ⟨hf, hu, hcdl⟩ fun _ => edge_procStep hD hg.1 hp hr hc

/-! ### Runs -/

theorem IsolationInv.next (hD : DownloadInv h s) (hI : IsolationInv h s) (hg : IsolationGuard h s a)
    (ha : step a s = some s') : IsolationInv ((s, a) :: h) s' := by
  cases step_cases ha with
  | reset e he hr hs => rw [hs]; exact .outside rfl (by rintro _ _ ⟨⟩) (by rintro ⟨⟩)
  | recv d addr hc hs =>
    rcases s.deliver_cases d addr with ⟨-, -, -, hs'⟩ | ⟨-, c, hs'⟩ <;> rw [hs, hs'] <;>
      exact hI.same rfl rfl rfl ⟨rfl, rfl, rfl⟩ fun _ => rfl
  | proc hr hp => exact hI.proc hD hg hr hp
  | upd hw hr hy hp => exact hI.upd hD hg hr hp
  | other e n t m c hr h₁ h₂ h₃ hs =>
    rw [hs]
    refine hI.same hr (clears_ne_proc h₂) ?_ ⟨rfl, rfl, rfl⟩ fun _ => rfl
    cases a with
    | upd hw => exact absurd rfl (h₃ hw)
    | _ => rfl

theorem IsolationInv.isolationOk (hD : DownloadInv h s) (hI : IsolationInv h s) (hg : IsolationGuard h s a) :
    IsolationOk h s a := by
  intro x hx
  obtain ⟨h4, hend⟩ := hg.2 x hx
  cases a with
  | upd hw =>
    cases hpc : s.upd with
    | program i q b n j data =>
      simp only [programs, hpc, UpdPc.word, Option.mem_some_iff] at hx
      subst hx
      have hloop := hD.loop
      rw [hpc] at hloop
      obtain ⟨⟨hit, -⟩, hb, -, -, hd⟩ := hloop
      have hmem := hD.ring.slot_mem_seqs hb.lt (by rw [hb.state]; rintro ⟨⟩)
      rw [hb.seq] at hmem
      have her := hI.erased (.inl (by rw [hpc]; rfl))
      have hup : up4 s.codeDownloadLength = s.codeDownloadLength := by unfold up4; omega
      rw [edge, hpc, UpdPc.edge, hup, ← Nat.add_assoc] at her
      refine ⟨hI.started (by rw [hpc]; rfl), hmem, by rw [← hb.payload hD.ring]; exact hd, hit.offset, ?_⟩
      rw [address_eq hend erasedTo_le]; exact her.read hend
    | _ => simp only [programs, hpc, UpdPc.word] at hx; cases hx
  | _ => cases hx

/-- In a run whose steps meet the condition, every word programmed is one of the next packet of the
session, and the cells are erased. -/
theorem isolationOk_of_run (hr : system.Run h s) (hg : Lts.Guarded IsolationGuard h) :
    Lts.Guarded IsolationOk h := by
  suffices IsolationInv h s ∧ Lts.Guarded IsolationOk h from this.2
  induction hr with
  | init hi =>
    rw [show _ = reset _ _ from hi]
    exact ⟨.outside rfl (by rintro _ _ ⟨⟩) (by rintro ⟨⟩), trivial⟩
  | step hr ha ih =>
    obtain ⟨hI, hok⟩ := ih hg.2
    have hD := DownloadInv.of_run hr (hg.2.mono fun _ _ _ h => h.1)
    exact ⟨hI.next hD hg.1 ha, hI.isolationOk hD hg.1, hok⟩

/-- A second session, begun while the update thread waits for a request: its packet is programmed. -/
theorem isolationOk_of_run_again : ∃ h s, system.Run h s ∧ loaded h = 0 ∧
    (h.head?.bind fun x => x.1.programs x.2) = some (0, [5, 6, 7, 8]) ∧ Lts.Guarded IsolationOk h := by
  obtain ⟨h, s, hr, hl, hw, hg⟩ := Lts.exists_run_of_exec (S := system)
    (P := fun h _ => loaded h = 0 ∧ (h.head?.bind fun x => x.1.programs x.2) = some (0, [5, 6, 7, 8]) ∧
      Lts.Guarded IsolationGuard h)
    (bootActs ++ [.recv (eraseFrame 8 36) 7] ++ procs 14 ++ [.recv (downloadFrame 0 [1, 2, 3, 4]) 7] ++
      procs 20 ++ upds 16 ++ [.elapse 501] ++ upds 2 ++ [.recv (eraseFrame 8 36) 7] ++ procs 14 ++
      [.recv (downloadFrame 0 [5, 6, 7, 8]) 7] ++ procs 20 ++ upds 10)
    (init_reset (fun _ => 0) (eepromOf 1)) (by decide +kernel)
  exact ⟨h, s, hr, hl, hw, isolationOk_of_run hr hg⟩

/-- `ERASE_FLASH` comes while `Download` waits for packet 1: the `Download` of the old session programs
packet 1 of the new one, over the words of the old packet 0. -/
theorem program_of_restarted : ∃ h s, system.Run h s ∧ ¬ Lts.Guarded IsolationOk h :=
  Lts.exists_run_of_exec
    (bootActs ++ [.recv (eraseFrame 8 36) 7] ++ procs 14 ++ [.recv (downloadFrame 0 [1, 2, 3, 4]) 7] ++
      procs 20 ++ upds 16 ++ [.recv (eraseFrame 8 36) 7] ++ procs 14 ++
      [.recv (downloadFrame 1 [5, 6, 7, 8]) 7] ++ procs 20 ++ upds 4)
    (init_reset (fun _ => 0) (eepromOf 1)) (by decide +kernel)

end Device

end Bootloader
