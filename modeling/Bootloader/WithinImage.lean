import Bootloader.Discipline
import Bootloader.EraseCoverage

/-!
# The bounds of the image

The loop of `Download` compares the bytes consumed so far with `CodeTotalLength`, never those of the packet
that it takes up: the last packet may run past the announced length, and past the sectors that `EraseFlash`
has erased for it. The words, `CodeDownloadLength` and the progress stay within the image if every packet
that is taken up fits.
-/

namespace Bootloader

/-- Packet `n` ends within the length `L`, and its words within the image and the sectors that are erased
for it. -/
def FitsImage (st : List (Nat × List UInt8)) (n L : Nat) : Prop :=
  offsetOf st n + (payloadOf st n).length ≤ L ∧
    (0 < (payloadOf st n).length → offsetOf st n + up4 (payloadOf st n).length ≤ up4 L ∧
      flashUserStartAddr + offsetOf st n + up4 (payloadOf st n).length ≤ erasedEnd L)

instance {st : List (Nat × List UInt8)} {n L : Nat} : Decidable (FitsImage st n L) :=
  inferInstanceAs (Decidable (_ ∧ (_ → _)))

section
variable {st : List (Nat × List UInt8)} {a m n x L : Nat} {p : Nat × List UInt8}

/-- The packets of an image that the flash holds, cut at multiples of four, fit. -/
theorem fitsImage_of_le (hL : flashUserStartAddr + L ≤ flashEndAddr) (h4 : offsetOf st n % 4 = 0)
    (hle : offsetOf st n + (payloadOf st n).length ≤ L) : FitsImage st n L := by
  have hend : flashEndAddr = flashUserStartAddr + 0xE0000 := rfl
  have hu : u32 (flashUserStartAddr + L) = flashUserStartAddr + L :=
    Nat.mod_eq_of_lt (by have : flashEndAddr = 0x08100000 := rfl; omega)
  have her : erasedEnd L = flashUserStartAddr + 0x20000 * (min 6 (L / 0x20000) + 1) := by
    rw [erasedEnd, hu, getSector_user, flashSector, Nat.mul_div_cancel_left _ (by decide), Nat.add_assoc,
      addrFlashSector_user (by omega)]
  refine ⟨hle, fun _ => ?_⟩
  rw [her]
  unfold up4
  omega

theorem FitsImage.congr (hst : ∀ k, k < n → k ∈ seqs st) (hn : n ∈ seqs st) :
    FitsImage (p :: st) n L ↔ FitsImage st n L := by
  rw [FitsImage, offsetOf_cons hst, payloadOf_cons hn]; rfl

theorem progress_le (h : x ≤ L) : 100 * x / L ≤ 100 := by
  rcases Nat.eq_zero_or_pos L with rfl | hL
  · rw [Nat.div_zero]; exact Nat.zero_le _
  · exact Nat.div_le_of_le_mul (by rw [Nat.mul_comm L]; exact Nat.mul_le_mul_left 100 h)

theorem progress_eq (h : x ≤ L) : progress x L = 100 * x / L :=
  Nat.mod_eq_of_lt (Nat.lt_of_le_of_lt (progress_le h) (by decide))

end

/-- `Download` has taken up a packet and not yet counted it. -/
def UpdPc.takenUp : UpdPc → Bool
  | .zeroArgs .. | .zeroRest .. | .fetch .. | .program .. | .release .. | .addLength .. | .setLength .. => true
  | _ => false

namespace Device

/-- The update thread works on a request or has one to work on. -/
def serving (s : Device) : Bool :=
  s.erasing || s.upd.inDownload || s.upd == .downloadEnter || s.upd == .downloadDone

/-- `Download` takes up the packet that it has found. -/
def takesUp (s : Device) : Act → Bool
  | .upd _ =>
    match s.upd with
    | .words .. => true
    | _ => false
  | _ => false

/-- The sector that the step erases. -/
def erases (s : Device) : Act → Option Nat
  | .upd .complete =>
    match s.upd with
    | .eraseLoop sectorCounter sectorEnd => if sectorCounter ≤ sectorEnd then some sectorCounter else none
    | _ => none
  | _ => none

/-- The sectors that the last call of `EraseFlash` has erased, the latest first. -/
def erasedSectors : List (Device × Act) → List Nat :=
  Lts.foldSince resets (fun l s a => if s.entersErase a then [] else (s.erases a).toList ++ l) []

/-- `ERASE_FLASH` clears the variables only between two sessions, the lengths that `Download` reads back are
kept, and the packets that it takes up fit. -/
def ImageGuard (h : List (Device × Act)) (s : Device) (a : Act) : Prop :=
  (s.clears a = true → s.serving = false) ∧ LengthGuard h s a ∧
    (s.takesUp a = true → FitsImage (stored h) (loaded h) s.codeTotalLength)

instance (h : List (Device × Act)) (s : Device) (a : Act) : Decidable (ImageGuard h s a) :=
  inferInstanceAs (Decidable ((_ → _) ∧ _ ∧ (_ → _)))

/-- The words programmed, `CodeDownloadLength` and the progress stay within the image. -/
structure WithinImage (h : List (Device × Act)) (s : Device) : Prop where
  below : ∀ a, ∀ x ∈ s.programs a, s.wordAddress x.1 + 4 ≤ flashUserStartAddr + up4 s.codeTotalLength
  erased : ∀ a, ∀ x ∈ s.programs a, ∀ d < 4, ∃ sector ∈ erasedSectors h, inSector sector (s.wordAddress x.1 + d)
  length : s.codeDownloadLength ≤ s.codeTotalLength
  progress : s.currentProgress ≤ 100
  rises : ∀ a s', step a s = some s' → s.resets a = false → s.clears a = false →
    s.currentProgress ≤ s'.currentProgress

structure ImageInv (h : List (Device × Act)) (s : Device) : Prop where
  fresh : s.Pending → s.currentProgress = 0
  /-- While an `ERASE_FLASH` is being processed, the update thread has nothing to do. -/
  alone : s.proc.restarting = true → s.serving = false
  erase : ∀ c e, s.upd = .eraseLoop c e → e = getSector (u32 (flashUserStartAddr + s.codeTotalLength)) ∧
    ∃ k, c = flashSector k ∧ ∀ i, 5 ≤ i → i < k → flashSector i ∈ erasedSectors h
  erased : s.upd.inDownload = true ∨ s.upd = .downloadEnter → ∀ i, 5 ≤ i →
    flashSector i ≤ getSector (u32 (flashUserStartAddr + s.codeTotalLength)) → flashSector i ∈ erasedSectors h
  fits : s.upd.takenUp = true → FitsImage (stored h) (loaded h) s.codeTotalLength
  length : s.codeDownloadLength ≤ s.codeTotalLength
  progress : s.currentProgress ≤ 100
  behind : s.upd.inDownload = true → s.currentProgress ≤ 100 * s.codeDownloadLength / s.codeTotalLength

variable {h : List (Device × Act)} {s s' : Device} {a : Act} {hw : FlashStatus}

theorem ImageGuard.download (hg : ImageGuard h s a) : DownloadGuard h s a := by
  refine ⟨fun hc => ?_, hg.2.1⟩
  have := hg.1 hc
  simp only [serving, Bool.or_eq_false_iff] at this
  exact this.1.1.2

theorem serving_of_erasing (h : s.erasing = true) : s.serving = true := by simp [serving, h]

theorem serving_of_inDownload (h : s.upd.inDownload = true) : s.serving = true := by simp [serving, h]

theorem serving_of_downloadEnter (h : s.upd = .downloadEnter) : s.serving = true := by simp [serving, h]

/-- The update thread begins to work only on a request that is there for it. -/
theorem serving_upd (hfree : s.upd ≠ .take → s.updateSem.taker = .free)
    (hp : s.updStep hw = some s') (hr : s.resets (.upd hw) = false) (hs : s'.serving = true) :
    s.serving = true := by
  simp only [serving, Bool.or_eq_true, beq_iff_eq] at hs
  rcases hs with ((hs | hs) | hs) | hs
  · exact serving_of_erasing (erasing_upd hfree hp hr (.inl hs))
  · rcases inDownload_upd hp hr hs with hu | hu
    · exact serving_of_inDownload hu
    · exact serving_of_downloadEnter hu
  · exact serving_of_erasing (erasing_upd hfree hp hr (.inr hs))
  · have hst := updStep_cases hp hr
    generalize hpc : s.upd = pc at hst
    cases hst with
    | loopDone => exact serving_of_inDownload (by rw [hpc]; rfl)
    | _ => cases hs

theorem inDownload_of_takenUp {pc : UpdPc} (hu : pc.takenUp = true) : pc.inDownload = true := by
  cases pc <;> first | rfl | cases hu

theorem loaded_mem_takenUp (hD : DownloadInv h s) (hu : s.upd.takenUp = true) : loaded h ∈ seqs (stored h) := by
  have hloop := hD.loop
  cases hpc : s.upd with
  | zeroArgs | zeroRest | fetch | program =>
    rw [hpc] at hloop
    obtain ⟨-, hb, -⟩ := hloop
    rw [← hb.seq]
    exact hD.ring.slot_mem_seqs hb.lt (by rw [hb.state]; rintro ⟨⟩)
  | release | addLength | setLength => exact loaded_mem hD (by rw [hpc]; rfl)
  | _ => rw [hpc] at hu; cases hu

theorem not_serving_of_restarting (hI : ImageInv h s) (hs : s.serving = true) : s.proc.restarting = false := by
  cases hre : s.proc.restarting with
  | false => rfl
  | true => rw [hI.alone hre] at hs; cases hs

theorem erasedSectors_cons (hr : s.resets a = false) (he : s.entersErase a = false) :
    erasedSectors ((s, a) :: h) = (s.erases a).toList ++ erasedSectors h := by
  rw [erasedSectors, Lts.foldSince_cons hr, he]; rfl

theorem erasedSectors_same (hr : s.resets a = false) (he : s.entersErase a = false) (hs : s.erases a = none) :
    erasedSectors ((s, a) :: h) = erasedSectors h := by
  rw [erasedSectors_cons hr he, hs]; rfl

/-! ### The process thread -/

theorem procStep_image (hp : s.procStep = some s') (hr : s.resets .proc = false) (hc : s.clears .proc = false) :
    s'.currentProgress = s.currentProgress ∧
    (s'.codeTotalLength = s.codeTotalLength ∨ s.proc.restarting = true) ∧
    (s'.proc.restarting = true → s'.updateSem = s.updateSem) := by
  have hst := procStep_cases hp hr
  generalize hpc : s.proc = pc at hst
  cases hst with
  | eraseClear => rw [clears, hpc] at hc; cases hc
  | eraseLength => exact ⟨rfl, .inr rfl, fun _ => rfl⟩
  | eraseRelease => exact ⟨rfl, .inl rfl, (by rintro ⟨⟩)⟩
  | _ => exact ⟨rfl, .inl rfl, fun _ => rfl⟩

theorem serving_congr (hu : s'.upd = s.upd) (hsem : s'.updateSem = s.updateSem) : s'.serving = s.serving := by
  rw [serving, serving, erasing_congr hu (congrArg Semaphore.count hsem), hu]

/-- A step that clears nothing and is not one of the update thread; the length changes only while the update
thread has nothing to do. -/
theorem ImageInv.frame (hD : DownloadInv h s) (hI : ImageInv h s)
    (hfree : s.upd ≠ .take → s.updateSem.taker = .free) (hr : s.resets a = false)
    (hne : ∀ hw, a ≠ .upd hw) (hc : s.clears a = false) (ha : step a s = some s') (hu : s'.upd = s.upd)
    (hcdl : s'.codeDownloadLength = s.codeDownloadLength) (hcp : s'.currentProgress = s.currentProgress)
    (ht : s'.codeTotalLength = s.codeTotalLength ∨ s.proc.restarting = true)
    (hre : s'.proc.restarting = true → s.proc.restarting = true ∧ s'.updateSem = s.updateSem) :
    ImageInv ((s, a) :: h) s' := by
  have hno : s.entersErase a = false ∧ s.erases a = none ∧ s.loads a = false := by
    cases a with
    | upd hw => exact absurd rfl (hne hw)
    | _ => exact ⟨rfl, rfl, rfl⟩
  have hes := erasedSectors_same (h := h) hr hno.1 hno.2.1
  have hld : loaded ((s, a) :: h) = loaded h := loaded_same hr hc hno.2.2
  have ht' : s.serving = true → s'.codeTotalLength = s.codeTotalLength := fun hs =>
    ht.resolve_right (by rw [not_serving_of_restarting hI hs]; rintro ⟨⟩)
  have hst := stored_eq (h := h) hr hc
  refine ⟨fun hP => ?_, fun h => ?_, fun c e h => ?_, fun h => ?_, fun h => ?_, ?_, ?_, fun h => ?_⟩
  · rw [hcp]; exact hI.fresh (pending_of_step hfree ha hr hc hP)
  · rw [serving_congr hu (hre h).2]; exact hI.alone (hre h).1
  · rw [hu] at h
    rw [ht' (serving_of_erasing (by rw [erasing, h])), hes]
    exact hI.erase c e h
  · rw [hu] at h
    have hs : s.serving = true := by
      rcases h with h | h
      · exact serving_of_inDownload h
      · exact serving_of_downloadEnter h
    rw [ht' hs, hes]; exact hI.erased h
  · rw [hu] at h
    have hin := inDownload_of_takenUp h
    rw [ht' (serving_of_inDownload hin), hld]
    rcases hst with hst | ⟨p, hst⟩ <;> rw [hst]
    · exact hI.fits h
    · exact (FitsImage.congr (fun k hk => mem_of_lt_loaded hD hin hk) (loaded_mem_takenUp hD h)).2 (hI.fits h)
  · rw [hcdl]
    rcases ht with ht | hre
    · rw [ht]; exact hI.length
    · rw [(hD.fresh (.inl hre)).2.2]; exact Nat.zero_le _
  · rw [hcp]; exact hI.progress
  · rw [hu] at h
    rw [hcp, hcdl, ht' (serving_of_inDownload h)]; exact hI.behind h

theorem ImageInv.proc (hD : DownloadInv h s) (hI : ImageInv h s) (hg : ImageGuard h s .proc)
    (hfree : s.upd ≠ .take → s.updateSem.taker = .free)
    (hr : s.resets .proc = false) (ha : step .proc s = some s') (hp : s.procStep = some s') :
    ImageInv ((s, .proc) :: h) s' := by
  have hu := (procStep_frame hp hr).2.2
  cases hc : s.clears .proc with
  | true =>
    have hno := hg.1 hc
    have hs : s'.serving = false := by
      rw [procStep_clear hp hc]; exact hno
    have hin : s'.upd.inDownload = false := by
      cases hin : s'.upd.inDownload with
      | false => rfl
      | true => rw [serving_of_inDownload hin] at hs; cases hs
    rw [procStep_clear hp hc] at hs hin ⊢
    refine ⟨fun _ => rfl, fun _ => hs, fun c e h => ?_, fun h => ?_, fun h => ?_, Nat.le_refl 0, Nat.zero_le _,
      fun h => ?_⟩
    · rw [serving_of_erasing (by rw [erasing, h])] at hs; cases hs
    · rcases h with h | h
      · rw [h] at hin; cases hin
      · rw [serving_of_downloadEnter h] at hs; cases hs
    · rw [inDownload_of_takenUp h] at hin; cases hin
    · rw [h] at hin; cases hin
  | false =>
    obtain ⟨⟨-, hcdl⟩, hre, -, -⟩ := procStep_request hp hr hc
    obtain ⟨hcp, ht, hsem⟩ := procStep_image hp hr hc
    exact hI.frame hD hfree hr (by rintro _ ⟨⟩) hc ha hu hcdl hcp ht fun h => ⟨hre h, hsem h⟩

/-! ### The update thread -/

theorem updStep_progress (hp : s.updStep hw = some s') (hr : s.resets (.upd hw) = false) :
    s'.currentProgress = s.currentProgress ∨ (s.upd = .downloadEnter ∧ s'.currentProgress = 0) ∨
    ((∃ i q, s.upd = .setProgress i q) ∧ s'.currentProgress = progress s.codeDownloadLength s.codeTotalLength ∧
      s'.codeDownloadLength = s.codeDownloadLength) ∨
    (s.upd = .downloadDone ∧ s'.currentProgress = 100 ∧ s'.upd.inDownload = false) := by
  have hst := updStep_cases hp hr
  generalize hpc : s.upd = pc at hst
  cases hst with
  | downloadEnter => exact .inr (.inl ⟨rfl, rfl⟩)
  | setProgress => exact .inr (.inr (.inl ⟨⟨_, _, rfl⟩, rfl, rfl⟩))
  | downloadDone => exact .inr (.inr (.inr ⟨rfl, rfl, rfl⟩))
  | _ => exact .inl rfl

theorem ImageInv.rises (hI : ImageInv h s) (ha : step a s = some s') (hr : s.resets a = false)
    (hc : s.clears a = false) : s.currentProgress ≤ s'.currentProgress := by
  cases step_cases ha with
  | reset e he hr' hs => rw [hr] at hr'; cases hr'
  | recv d addr hcan hs =>
    rcases s.deliver_cases d addr with ⟨-, -, -, hs'⟩ | ⟨-, c, hs'⟩ <;> rw [hs, hs']
  | proc hr' hp => rw [(procStep_image hp hr hc).1]
  | upd hw hr' hy hp =>
    rcases updStep_progress hp hr with h | ⟨hu, -⟩ | ⟨⟨i, q, hu⟩, h, -⟩ | ⟨-, h, -⟩
    · rw [h]
    · rw [hI.fresh (.inr (.inr hu))]; exact Nat.zero_le _
    · rw [h, progress_eq hI.length]; exact hI.behind (by rw [hu]; rfl)
    · rw [h]; exact hI.progress
  | other e n t m c hr' h₁ h₂ h₃ hs => rw [hs]

/-- `CodeDownloadLength` changes at the end of an iteration only, to the end of a packet that fits. -/
theorem ImageInv.length_upd (hD : DownloadInv h s) (hI : ImageInv h s) (hp : s.updStep hw = some s')
    (hr : s.resets (.upd hw) = false) : s'.codeTotalLength = s.codeTotalLength ∧
      s.codeDownloadLength ≤ s'.codeDownloadLength ∧ s'.codeDownloadLength ≤ s.codeTotalLength := by
  have hloop := hD.loop
  have hfits := hI.fits
  have hst := updStep_cases hp hr
  generalize s.upd = pc at hst hloop hfits
  cases hst with
  | setLength =>
    obtain ⟨hrel, hi⟩ := hloop
    rw [offsetOf_succ] at hi
    refine ⟨rfl, ?_, ?_⟩
    · rw [hrel.offset]
      exact hi ▸ Nat.le_add_right _ _
    · exact hi ▸ (hfits rfl).1
  | _ => exact ⟨rfl, Nat.le_refl _, hI.length⟩

/-- A packet that `Download` has taken up stays the one that is consumed next until it is counted. -/
theorem ImageInv.fits_upd (hI : ImageInv h s) (hg : ImageGuard h s (.upd hw)) (hp : s.updStep hw = some s')
    (hr : s.resets (.upd hw) = false) (hu : s'.upd.takenUp = true) :
    FitsImage (stored h) (loaded ((s, .upd hw) :: h)) s.codeTotalLength := by
  have hsame : s.loads (.upd hw) = false → loaded ((s, .upd hw) :: h) = loaded h := loaded_same hr rfl
  have hfits := hI.fits
  have hst := updStep_cases hp hr
  generalize hpc : s.upd = pc at hst hfits
  cases hst with
  | wordsRest | words =>
    rw [hsame (by rw [loads, hpc])]
    exact hg.2.2 (by simp [takesUp, hpc])
  | zeroArgs | zeroByte | zeroDone | fetch | program | fetchDone | release | addLength =>
    rw [hsame (by rw [loads, hpc])]
    exact hfits rfl
  | _ => cases hu

/-- The loop of `EraseFlash` erases the sectors one by one. -/
theorem ImageInv.erase_upd (hI : ImageInv h s) (hp : s.updStep hw = some s') (hr : s.resets (.upd hw) = false)
    {c e : Nat} (hu : s'.upd = .eraseLoop c e) : e = getSector (u32 (flashUserStartAddr + s.codeTotalLength)) ∧
      ∃ k, c = flashSector k ∧ ∀ i, 5 ≤ i → i < k → flashSector i ∈ erasedSectors ((s, .upd hw) :: h) := by
  have hst := updStep_cases hp hr
  generalize hpc : s.upd = pc at hst
  cases hst with
  | eraseEnter =>
    cases hu
    exact ⟨rfl, 5, rfl, fun i h₁ h₂ => absurd h₂ (Nat.not_lt.2 h₁)⟩
  | @eraseSector c e hle =>
    cases hu
    obtain ⟨he, k, rfl, hk⟩ := hI.erase _ _ hpc
    have her : s.erases (.upd .complete) = some (flashSector k) := by simp [erases, hpc, hle]
    refine ⟨he, k + 1, rfl, fun i h₁ h₂ => ?_⟩
    rw [erasedSectors_cons hr (by simp [entersErase, hpc]), her]
    rcases Nat.lt_succ_iff_lt_or_eq.1 h₂ with h₂ | rfl
    · exact List.mem_cons_of_mem _ (hk i h₁ h₂)
    · exact List.mem_cons_self
  | _ => cases hu

theorem erases_of_ne (hu : ∀ c e, s.upd ≠ .eraseLoop c e) : s.erases (.upd hw) = none := by
  cases hw with
  | failed junk => rfl
  | complete =>
    rw [erases]
    split
    · next c e hpc => exact absurd hpc (hu c e)
    · rfl

theorem ImageInv.erased_upd (hI : ImageInv h s) (hp : s.updStep hw = some s') (hr : s.resets (.upd hw) = false)
    (hu : s'.upd.inDownload = true ∨ s'.upd = .downloadEnter) {i : Nat} (h5 : 5 ≤ i)
    (hi : flashSector i ≤ getSector (u32 (flashUserStartAddr + s.codeTotalLength))) :
    flashSector i ∈ erasedSectors ((s, .upd hw) :: h) := by
  by_cases hin : s.upd.inDownload = true ∨ s.upd = .downloadEnter
  · have he : s.entersErase (.upd hw) = false := beq_eq_false_iff_ne.2 fun hpc => by
      rw [hpc] at hin
      rcases hin with h | h <;> cases h
    have hno : s.erases (.upd hw) = none := erases_of_ne fun c e hpc => by
      rw [hpc] at hin
      rcases hin with h | h <;> cases h
    rw [erasedSectors_same hr he hno]; exact hI.erased hin i h5 hi
  · have hst := updStep_cases hp hr
    generalize hpc : s.upd = pc at hst hin
    cases hst with
    | @eraseDone _ c e hlt =>
      obtain ⟨rfl, k, rfl, hk⟩ := hI.erase _ _ hpc
      have hno : s.erases (.upd hw) = none := by
        cases hw <;> simp [erases, hpc, hlt]
      rw [erasedSectors_same hr (by simp [entersErase, hpc]) hno]
      refine hk i h5 ?_
      unfold flashSector at hi hlt
      omega
    | downloadEnter => exact absurd (.inr rfl) hin
    | _ => first | exact absurd (.inl rfl) hin | (rcases hu with hu | hu <;> cases hu)

theorem ImageInv.upd (hD : DownloadInv h s) (hI : ImageInv h s) (hg : ImageGuard h s (.upd hw))
    (hfree : s.upd ≠ .take → s.updateSem.taker = .free)
    (hr : s.resets (.upd hw) = false) (ha : step (.upd hw) s = some s') (hp : s.updStep hw = some s') :
    ImageInv ((s, .upd hw) :: h) s' := by
  obtain ⟨ht, hge, hle⟩ := hI.length_upd hD hp hr
  have hst : stored ((s, .upd hw) :: h) = stored h := stored_ne_proc hr (by rintro ⟨⟩)
  have hcp := updStep_progress hp hr
  refine ⟨fun hP => ?_, fun h => ?_, fun c e h => ?_, fun h i => ?_, fun h => ?_, ?_, ?_, fun h => ?_⟩
  · have hP := pending_of_step hfree ha hr rfl hP
    rcases hcp with h | ⟨-, h⟩ | ⟨⟨i, q, hu⟩, -⟩ | ⟨hu, -⟩
    · rw [h]; exact hI.fresh hP
    · exact h
    · exact absurd hP (not_pending hD (by rw [hu]; rfl))
    · rcases hP with h | h | h
      · have := hI.alone h
        simp [serving, hu] at this
      · rw [erasing, hu] at h; cases h
      · rw [hu] at h; cases h
  · rw [(updStep_net hp hr).proc] at h
    cases hs : s'.serving with
    | false => rfl
    | true => rw [← hI.alone h]; exact (serving_upd hfree hp hr hs).symm
  · rw [ht]; exact hI.erase_upd hp hr h
  · rw [ht]; exact fun h5 => hI.erased_upd hp hr h h5
  · rw [hst, ht]; exact hI.fits_upd hg hp hr h
  · rw [ht]; exact hle
  · rcases hcp with h | ⟨-, h⟩ | ⟨-, h, -⟩ | ⟨-, h, -⟩ <;> rw [h]
    · exact hI.progress
    · exact Nat.zero_le _
    · rw [progress_eq hI.length]; exact progress_le hI.length
  · rw [ht]
    rcases hcp with hcp | ⟨-, hcp⟩ | ⟨-, hcp, hcdl⟩ | ⟨-, -, hno⟩
    · rw [hcp]
      rcases inDownload_upd hp hr h with hu | hu
      · exact Nat.le_trans (hI.behind hu) (Nat.div_le_div_right (Nat.mul_le_mul_left 100 hge))
      · rw [hI.fresh (.inr (.inr hu))]; exact Nat.zero_le _
    · rw [hcp]; exact Nat.zero_le _
    · rw [hcp, hcdl, progress_eq hI.length]
    · rw [hno] at h; cases h

/-! ### Runs -/

theorem ImageInv.reset {flash eeprom : Mem} : ImageInv h (Device.reset flash eeprom) :=
  ⟨fun _ => rfl, (by rintro ⟨⟩), (by rintro _ _ ⟨⟩), (by rintro (h | h) <;> cases h), (by rintro ⟨⟩),
    Nat.le_refl 0, Nat.zero_le _, (by rintro ⟨⟩)⟩

theorem ImageInv.next (hD : DownloadInv h s) (hI : ImageInv h s) (hg : ImageGuard h s a)
    (hfree : s.upd ≠ .take → s.updateSem.taker = .free)
    (ha : step a s = some s') : ImageInv ((s, a) :: h) s' := by
  cases step_cases ha with
  | reset e he hr hs => rw [hs]; exact .reset
  | recv d addr hc hs =>
    have hI := fun hu hcdl hcp ht hre => hI.frame hD hfree rfl (by rintro _ ⟨⟩) rfl ha hu hcdl hcp ht hre
    rcases s.deliver_cases d addr with ⟨-, -, -, hs'⟩ | ⟨-, c, hs'⟩ <;> rw [hs'] at hs <;> subst hs <;>
      exact hI rfl rfl rfl (.inl rfl) fun h => ⟨h, rfl⟩
  | proc hr hp => exact hI.proc hD hg hfree hr ha hp
  | upd hw hr hy hp => exact hI.upd hD hg hfree hr ha hp
  | other e n t m c hr h₁ h₂ h₃ hs =>
    subst hs
    exact hI.frame hD hfree hr h₃ (clears_ne_proc h₂) ha rfl rfl rfl (.inl rfl) fun h => ⟨h, rfl⟩

theorem ImageInv.word (hD : DownloadInv h s) (hI : ImageInv h s) {x : Nat × List UInt8} (hx : x ∈ s.programs a) :
    s.wordAddress x.1 + 4 ≤ flashUserStartAddr + up4 s.codeTotalLength ∧
      s.wordAddress x.1 + 4 ≤ erasedEnd s.codeTotalLength := by
  obtain ⟨i, q, b, n, hpc⟩ := exists_program hx
  obtain ⟨hoff, -, hlt, haddr⟩ := program_eq hD hx
  obtain ⟨-, hfits⟩ := hI.fits (by rw [hpc]; rfl)
  have hpos : 0 < (payloadOf (stored h) (loaded h)).length := by unfold up4 at hlt; omega
  obtain ⟨h₁, h₂⟩ := hfits hpos
  rw [haddr, hoff]
  have h4 : up4 (payloadOf (stored h) (loaded h)).length % 4 = 0 := Nat.mul_mod_left _ 4
  omega

/-- In every run whose steps meet the condition, the words, `CodeDownloadLength` and the progress stay within
the image. -/
theorem withinImage_of_run (hr : system.Run h s) (hg : Lts.Guarded ImageGuard h) : WithinImage h s := by
  suffices ImageInv h s by
    have hD := DownloadInv.of_run hr (hg.mono fun _ _ _ h => h.download)
    refine ⟨fun a x hx => (this.word hD hx).1, fun a x hx d hd => ?_, this.length, this.progress,
      fun a s' => this.rises⟩
    obtain ⟨i, q, b, n, hpc⟩ := exists_program hx
    have hend := (this.word hD hx).2
    obtain ⟨-, -, -, haddr⟩ := program_eq hD hx
    obtain ⟨m, hm, hsec⟩ := getSector_eq (u32 (flashUserStartAddr + s.codeTotalLength))
    rw [erasedEnd, hsec, flashSector, Nat.mul_div_cancel_left _ (by decide)] at hend
    obtain ⟨k, h5, hkm, hin⟩ := exists_inSector hm (a := s.wordAddress x.1 + d) (by omega) (by omega)
    refine ⟨flashSector k, this.erased (.inl (by rw [hpc]; rfl)) k h5 ?_, hin⟩
    rw [hsec]
    exact Nat.mul_le_mul_left 8 hkm
  induction hr with
  | init hi => rw [show _ = Device.reset _ _ from hi]; exact .reset
  | step hr ha ih =>
    exact (ih hg.2).next (DownloadInv.of_run hr (hg.2.mono fun _ _ _ h => h.download)) hg.1 (taker_free hr) ha

/-- Two packets of four bytes for a length of eight. -/
theorem withinImage_of_run_two : ∃ h s, system.Run h s ∧ words h = [flashUserStartAddr + 4, flashUserStartAddr] ∧
    s.codeDownloadLength = 8 ∧ s.currentProgress = 100 ∧ WithinImage h s := by
  obtain ⟨h, s, hr, hw, hcdl, hcp, hg⟩ := Lts.exists_run_of_exec (S := system)
    (P := fun h s => words h = [flashUserStartAddr + 4, flashUserStartAddr] ∧ s.codeDownloadLength = 8 ∧
      s.currentProgress = 100 ∧ Lts.Guarded ImageGuard h)
    (bootActs ++ [.recv (eraseFrame 8 36) 7] ++ procs 14 ++ [.recv (downloadFrame 0 [1, 2, 3, 4]) 7] ++
      procs 19 ++ [.recv (downloadFrame 1 [5, 6, 7, 8]) 7] ++ procs 20 ++ upds 25)
    (init_reset (fun _ => 0) (eepromOf 1)) (by decide +kernel)
  exact ⟨h, s, hr, hw, hcdl, hcp, withinImage_of_run hr hg⟩

/-- A packet of nine bytes for a length of one. -/
theorem overrun_of_last_packet : ∃ h s, system.Run h s ∧ Lts.Guarded OneErase h ∧ Lts.Guarded LengthGuard h ∧
    words h = [flashUserStartAddr + 8, flashUserStartAddr + 4, flashUserStartAddr] ∧ s.codeTotalLength = 1 ∧
    s.codeDownloadLength = 9 ∧ s.currentProgress = 132 ∧ ¬ WithinImage h s := by
  obtain ⟨h, s, hr, ho, hl, hw, ht, hcdl, hcp⟩ := Lts.exists_run_of_exec (S := system)
    (P := fun h s => Lts.Guarded OneErase h ∧ Lts.Guarded LengthGuard h ∧
      words h = [flashUserStartAddr + 8, flashUserStartAddr + 4, flashUserStartAddr] ∧ s.codeTotalLength = 1 ∧
      s.codeDownloadLength = 9 ∧ s.currentProgress = 132)
    (bootActs ++ [.recv (eraseFrame 1 45) 7] ++ procs 14 ++
      [.recv (downloadFrame 0 [1, 2, 3, 4, 5, 6, 7, 8, 9]) 7] ++ procs 25 ++ upds 1036)
    (init_reset (fun _ => 0) (eepromOf 1)) (by decide +kernel)
  refine ⟨h, s, hr, ho, hl, hw, ht, hcdl, hcp, fun hin => ?_⟩
  have := hin.length
  omega

end Device

end Bootloader
