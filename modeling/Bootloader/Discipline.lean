import Bootloader.Isolation

/-!
# Alignment of the words programmed

`Download` pads each packet to whole words but counts its bytes, so the packet behind one whose length is
not a multiple of four starts within the last word of that packet. The words of a session are aligned and
disjoint if and only if every packet consumed before one that has words is of whole words.
-/

namespace Bootloader

/-- The packets below `n` are of whole words. -/
def Whole (st : List (Nat × List UInt8)) (n : Nat) : Prop := ∀ k, k < n → (payloadOf st k).length % 4 = 0

instance {st : List (Nat × List UInt8)} {n : Nat} : Decidable (Whole st n) :=
  inferInstanceAs (Decidable (∀ k, k < n → _))

/-- The packets below `n` are of whole words but for one, and those behind it are empty. -/
def AlmostWhole (st : List (Nat × List UInt8)) (n : Nat) : Prop :=
  ∃ k ≤ n, Whole st k ∧ ∀ m, k < m → m < n → (payloadOf st m).length = 0

section
variable {st : List (Nat × List UInt8)} {k n : Nat} {p : Nat × List UInt8}

theorem Whole.offset (h : Whole st n) : offsetOf st n % 4 = 0 := by
  rw [← length_imageOf]; exact length_imageOf_mod h

theorem Whole.congr (hst : ∀ k, k < n → k ∈ seqs st) : Whole (p :: st) n ↔ Whole st n :=
  forall_congr' fun k => forall_congr' fun hk => by rw [payloadOf_cons (hst k hk)]

theorem Whole.almostWhole (h : Whole st n) : AlmostWhole st n :=
  ⟨n, Nat.le_refl n, h, fun _ h₁ h₂ => absurd h₂ (Nat.lt_asymm h₁)⟩

theorem Whole.almostWhole_succ (h : Whole st n) : AlmostWhole st (n + 1) :=
  ⟨n, Nat.le_succ n, h, fun _ h₁ h₂ => absurd h₂ (Nat.not_lt.2 h₁)⟩

theorem AlmostWhole.succ (h : AlmostWhole st n) (h0 : (payloadOf st n).length = 0) : AlmostWhole st (n + 1) := by
  obtain ⟨k, hk, hw, hz⟩ := h
  refine ⟨k, Nat.le_succ_of_le hk, hw, fun m h₁ h₂ => ?_⟩
  rcases Nat.lt_succ_iff_lt_or_eq.1 h₂ with h₂ | rfl
  · exact hz m h₁ h₂
  · exact h0

theorem AlmostWhole.cons (hst : ∀ k, k < n → k ∈ seqs st) (h : AlmostWhole st n) : AlmostWhole (p :: st) n := by
  obtain ⟨k, hk, hw, hz⟩ := h
  refine ⟨k, hk, (Whole.congr fun m hm => hst m (Nat.lt_of_lt_of_le hm hk)).2 hw, fun m h₁ h₂ => ?_⟩
  rw [payloadOf_cons (hst m h₂)]; exact hz m h₁ h₂

theorem offsetOf_eq_of_empty : ∀ {n : Nat}, k ≤ n → (∀ m, k ≤ m → m < n → (payloadOf st m).length = 0) →
    offsetOf st n = offsetOf st k
  | 0, hk, _ => by rw [Nat.le_zero.1 hk]
  | n + 1, hk, hz => by
    rcases Nat.le_succ_iff.1 hk with hk | rfl
    · rw [offsetOf_succ, hz n hk (Nat.lt_succ_self n), Nat.add_zero]
      exact offsetOf_eq_of_empty hk fun m h₁ h₂ => hz m h₁ (Nat.lt_succ_of_lt h₂)
    · rfl

/-- The sum of the lengths tells whether there is a packet that is not of whole words. -/
theorem AlmostWhole.whole (h : AlmostWhole st n) (h4 : offsetOf st n % 4 = 0) : Whole st n := by
  obtain ⟨k, hk, hw, hz⟩ := h
  rcases Nat.eq_or_lt_of_le hk with rfl | hk
  · exact hw
  rw [offsetOf_eq_of_empty (k := k + 1) hk hz, offsetOf_succ] at h4
  have := hw.offset
  intro m hm
  rcases Nat.lt_trichotomy m k with hmk | rfl | hmk
  · exact hw m hmk
  · omega
  · rw [hz m hmk hm]

end

/-- `Download` has programmed a packet and not yet counted it. -/
def UpdPc.programmed : UpdPc → Bool
  | .release .. | .addLength .. | .setLength .. => true
  | _ => false

namespace Device

/-- The address that `Download` gives to word `j` of the packet. -/
def wordAddress (s : Device) (j : Nat) : Nat := u32 (flashUserStartAddr + s.codeDownloadLength + 4 * j)

/-- The addresses of the words programmed since the last `ERASE_FLASH` or reset, the latest first. -/
def words : List (Device × Act) → List Nat :=
  Lts.foldSince resets (fun l s a => if s.clears a then [] else
    ((s.programs a).map fun x => s.wordAddress x.1).toList ++ l) []

/-- A word that is programmed is aligned and shares no cell with one programmed before in the session. -/
def ProgramsOk (h : List (Device × Act)) (s : Device) (a : Act) : Prop :=
  ∀ x ∈ s.programs a, s.wordAddress x.1 % 4 = 0 ∧
    ∀ y ∈ words h, y + 4 ≤ s.wordAddress x.1 ∨ s.wordAddress x.1 + 4 ≤ y

instance (h : List (Device × Act)) (s : Device) (a : Act) : Decidable (ProgramsOk h s a) :=
  inferInstanceAs (Decidable (∀ x ∈ s.programs a, _ ∧ ∀ y ∈ words h, _))

/-- When a word is programmed, the packets consumed before in the session are of whole words. -/
def WholeWords (h : List (Device × Act)) (s : Device) (a : Act) : Prop :=
  ∀ x ∈ s.programs a, Whole (stored h) (loaded h)

instance (h : List (Device × Act)) (s : Device) (a : Act) : Decidable (WholeWords h s a) :=
  inferInstanceAs (Decidable (∀ x ∈ s.programs a, _))

/-- The session of the last `ERASE_FLASH` has not come to the loop of `Download`. -/
def Pending (s : Device) : Prop := s.proc.restarting = true ∨ s.erasing = true ∨ s.upd = .downloadEnter

structure DisciplineInv (h : List (Device × Act)) (s : Device) : Prop where
  fresh : s.Pending → words h = []
  below : s.upd.inDownload = true → ∀ y ∈ words h, y + 4 ≤ flashUserStartAddr + s.edge
  whole : 0 < s.upd.index → Whole (stored h) (loaded h)
  almost : s.upd.inDownload = true → AlmostWhole (stored h) (loaded h)
  programmed : s.upd.programmed = true →
    Whole (stored h) (loaded h) ∨ (payloadOf (stored h) (loaded h)).length = 0

variable {h : List (Device × Act)} {s s' : Device} {a : Act} {hw : FlashStatus}

/-! ### Sessions that have not come to Download -/

theorem erasing_upd (hfree : s.upd ≠ .take → s.updateSem.taker = .free)
    (hp : s.updStep hw = some s') (hr : s.resets (.upd hw) = false)
    (he : s'.erasing = true ∨ s'.upd = .downloadEnter) : s.erasing = true := by
  have hst := updStep_cases hp hr
  generalize hpc : s.upd = pc at hst
  cases hst with
  | block hx => simp [erasing, (Semaphore.count_of_block hx).2] at he
  | take hx => rw [erasing, hpc, Semaphore.count_of_take hx]; exact decide_eq_true (Nat.succ_pos _)
  | eraseEnter | eraseSector | eraseDone => rw [erasing, hpc]
  | drained h0 =>
    simp [erasing, Semaphore.count_of_free (hfree (by rw [hpc]; rintro ⟨⟩)), h0] at he
  | _ => simp [erasing] at he

theorem pending_of_step (hfree : s.upd ≠ .take → s.updateSem.taker = .free)
    (ha : step a s = some s') (hr : s.resets a = false) (hc : s.clears a = false) (hP : s'.Pending) :
    s.Pending := by
  cases step_cases ha with
  | reset e he hr' hs => rw [hr] at hr'; cases hr'
  | recv d addr hcan hs =>
    rcases s.deliver_cases d addr with ⟨-, -, -, hs'⟩ | ⟨-, c, hs'⟩ <;> rw [hs, hs'] at hP <;> exact hP
  | proc hr' hp =>
    obtain ⟨⟨hu, -⟩, hre, -, hsem⟩ := procStep_request hp hr hc
    rcases hP with h | h | h
    · exact .inl (hre h)
    · rcases hsem with hsem | hsem
      · rw [erasing_congr hu (congrArg Semaphore.count hsem)] at h; exact .inr (.inl h)
      · exact .inl hsem
    · exact .inr (.inr (hu ▸ h))
  | upd hw hr' hy hp =>
    have hproc := (updStep_net hp hr').proc
    rcases hP with h | h | h
    · exact .inl (hproc ▸ h)
    · exact .inr (.inl (erasing_upd hfree hp hr' (.inl h)))
    · exact .inr (.inl (erasing_upd hfree hp hr' (.inr h)))
  | other e n t m c hr' h₁ h₂ h₃ hs => rw [hs] at hP; exact hP

theorem inDownload_of_consumes {pc : UpdPc} (hu : pc.consumes = true) : pc.inDownload = true := by
  cases pc <;> first | rfl | cases hu

theorem inDownload_of_index {pc : UpdPc} (hx : 0 < pc.index) : pc.inDownload = true := by
  cases pc <;> first | rfl | exact absurd hx (Nat.lt_irrefl 0)

theorem inDownload_of_programmed {pc : UpdPc} (hu : pc.programmed = true) : pc.inDownload = true := by
  cases pc <;> first | rfl | cases hu

theorem not_pending (hD : DownloadInv h s) (hu : s.upd.consumes = true) : ¬ s.Pending := by
  rintro (h | h | h)
  · rw [hD.restart h] at hu; cases hu
  · rw [not_erasing_of_inDownload (inDownload_of_consumes hu)] at h; cases h
  · rw [h] at hu; cases hu

theorem exists_program {x : Nat × List UInt8} (hx : x ∈ s.programs a) :
    ∃ i q b n, s.upd = .program i q b n x.1 x.2 := by
  cases a with
  | upd hw =>
    cases hpc : s.upd with
    | program i q b n j data =>
      rw [programs, hpc, UpdPc.word, Option.mem_some_iff] at hx
      subst hx
      exact ⟨i, q, b, n, rfl⟩
    | _ => rw [programs, hpc] at hx; cases hx
  | _ => cases hx

theorem consumes_of_programs {x : Nat × List UInt8} (hx : x ∈ s.programs a) : s.upd.consumes = true := by
  obtain ⟨i, q, b, n, hpc⟩ := exists_program hx
  rw [hpc]; rfl

theorem words_cons (hr : s.resets a = false) (hc : s.clears a = false) : words ((s, a) :: h) =
    ((s.programs a).map fun x => s.wordAddress x.1).toList ++ words h := by
  rw [words, Lts.foldSince_cons hr, hc]; rfl

theorem words_clear (hr : s.resets a = false) (hc : s.clears a = true) : words ((s, a) :: h) = [] := by
  rw [words, Lts.foldSince_cons hr, hc]; rfl

theorem words_same (hr : s.resets a = false) (hc : s.clears a = false) (hp : s.programs a = none) :
    words ((s, a) :: h) = words h := by
  rw [words_cons hr hc, hp]; rfl

/-! ### The packets of the session -/

theorem loaded_le_handedBack (hD : DownloadInv h s) (hu : s.upd.inDownload = true) : loaded h ≤ handedBack h := by
  have hloop := hD.loop
  cases hpc : s.upd with
  | loopTest | getIndex | setProgress => rw [hpc] at hloop; exact Nat.le_of_eq hloop.1.back.symm
  | words | zeroArgs | zeroRest | fetch | program | release =>
    rw [hpc] at hloop; exact Nat.le_of_eq hloop.1.1.back.symm
  | addLength => rw [hpc] at hloop; rw [hloop.1.1.back]; exact Nat.le_succ _
  | setLength => rw [hpc] at hloop; rw [hloop.1.back]; exact Nat.le_succ _
  | _ => rw [hpc] at hu; cases hu

theorem loaded_mem (hD : DownloadInv h s) (hu : s.upd.programmed = true) : loaded h ∈ seqs (stored h) := by
  have hloop := hD.loop
  cases hpc : s.upd with
  | release i q b =>
    rw [hpc] at hloop
    obtain ⟨-, hb⟩ := hloop
    rw [← hb.seq]
    exact hD.ring.slot_mem_seqs hb.lt (by rw [hb.state]; rintro ⟨⟩)
  | addLength i q b =>
    rw [hpc] at hloop
    exact hD.ring.consumed _ (by rw [hloop.1.1.back]; exact Nat.lt_succ_self _)
  | setLength i q =>
    rw [hpc] at hloop
    exact hD.ring.consumed _ (by rw [hloop.1.back]; exact Nat.lt_succ_self _)
  | _ => rw [hpc] at hu; cases hu

theorem mem_of_lt_loaded (hD : DownloadInv h s) (hu : s.upd.inDownload = true) {k : Nat} (hk : k < loaded h) :
    k ∈ seqs (stored h) := hD.ring.consumed k (Nat.lt_of_lt_of_le hk (loaded_le_handedBack hD hu))

/-- What a step of the update thread does to the locals of `Download` that the packets behind depend on. -/
theorem DisciplineInv.tail (hD : DownloadInv h s) (hI : DisciplineInv h s) (hg : WholeWords h s (.upd hw))
    (hr : s.resets (.upd hw) = false) (hp : s.updStep hw = some s') :
    (0 < s'.upd.index → Whole (stored h) (loaded ((s, .upd hw) :: h))) ∧
    (s'.upd.inDownload = true → AlmostWhole (stored h) (loaded ((s, .upd hw) :: h))) ∧
    (s'.upd.programmed = true → Whole (stored h) (loaded ((s, .upd hw) :: h)) ∨
      (payloadOf (stored h) (loaded ((s, .upd hw) :: h))).length = 0) := by
  have hsame : s.loads (.upd hw) = false → loaded ((s, .upd hw) :: h) = loaded h := loaded_same hr rfl
  have hwhole := hI.whole
  have halmost := hI.almost
  have hprog := hI.programmed
  have hloop := hD.loop
  have hst := updStep_cases hp hr
  generalize hpc : s.upd = pc at hst hwhole halmost hprog hloop
  cases hst with
  | setLength =>
    rw [loaded_cons hr rfl, if_pos (by rw [loads, hpc])]
    refine ⟨(by rintro ⟨⟩), fun _ => ?_, (by rintro ⟨⟩)⟩
    rcases hprog rfl with hw | h0
    · exact hw.almostWhole_succ
    · exact (halmost rfl).succ h0
  | downloadEnter =>
    rw [hsame (by rw [loads, hpc]), (hD.fresh (.inr (.inr hpc))).2.1]
    exact ⟨(by rintro ⟨⟩), fun _ => Whole.almostWhole fun k hk => absurd hk (Nat.not_lt_zero k), (by rintro ⟨⟩)⟩
  | fetch =>
    rw [hsame (by rw [loads, hpc])]
    exact ⟨hwhole, fun _ => halmost rfl, (by rintro ⟨⟩)⟩
  | program =>
    rw [hsame (by rw [loads, hpc])]
    exact ⟨fun _ => hg _ (by rw [programs, hpc]; rfl), fun _ => halmost rfl, (by rintro ⟨⟩)⟩
  | @fetchDone _ i q b n j hle =>
    rw [hsame (by rw [loads, hpc])]
    obtain ⟨-, hready, hpad, hj⟩ := hloop
    refine ⟨(by rintro ⟨⟩), fun _ => halmost rfl, fun _ => ?_⟩
    rcases Nat.eq_zero_or_pos j with rfl | hj0
    · -- no words: the packet is empty
      right
      rw [← (hready.dataLen hD.ring).1]
      have := hpad.num
      unfold FileBuf.wordDataNum at this
      split at this <;> omega
    · exact .inl (hwhole hj0)
  | release | addLength =>
    rw [hsame (by rw [loads, hpc])]
    exact ⟨(by rintro ⟨⟩), fun _ => halmost rfl, fun _ => hprog rfl⟩
  | loop | found | wait | wordsRest | words | zeroArgs | zeroByte | zeroDone | setProgress =>
    rw [hsame (by rw [loads, hpc])]
    exact ⟨(by rintro ⟨⟩), fun _ => halmost rfl, (by rintro ⟨⟩)⟩
  | _ => exact ⟨(by rintro ⟨⟩), (by rintro ⟨⟩), (by rintro ⟨⟩)⟩

theorem inDownload_upd (hp : s.updStep hw = some s') (hr : s.resets (.upd hw) = false)
    (hu : s'.upd.inDownload = true) : s.upd.inDownload = true ∨ s.upd = .downloadEnter := by
  have hst := updStep_cases hp hr
  generalize s.upd = pc at hst
  cases hst with
  | downloadEnter => exact .inr rfl
  | _ => first | exact .inl rfl | cases hu

theorem offset_of_index (hD : DownloadInv h s) (hx : 0 < s.upd.index) :
    s.codeDownloadLength = offsetOf (stored h) (loaded h) := by
  have hloop := hD.loop
  cases hpc : s.upd with
  | fetch | program => rw [hpc] at hloop; exact hloop.1.1.offset
  | _ => rw [hpc] at hx; exact absurd hx (Nat.lt_irrefl 0)

theorem le_up4 {x : Nat} : x ≤ up4 x := by unfold up4; omega

theorem wordAddress_le {x : Nat × List UInt8} (hx : x ∈ s.programs a) :
    s.wordAddress x.1 ≤ flashUserStartAddr + s.edge := by
  obtain ⟨i, q, b, n, hpc⟩ := exists_program hx
  rw [edge, hpc, UpdPc.edge, ← Nat.add_assoc]
  exact Nat.le_trans (Nat.mod_le _ _) (Nat.add_le_add_right (Nat.add_le_add_left le_up4 _) _)

theorem DisciplineInv.upd (hD : DownloadInv h s) (hI : DisciplineInv h s) (hg : WholeWords h s (.upd hw))
    (hfree : s.upd ≠ .take → s.updateSem.taker = .free)
    (hr : s.resets (.upd hw) = false) (ha : step (.upd hw) s = some s') (hp : s.updStep hw = some s') :
    DisciplineInv ((s, .upd hw) :: h) s' := by
  obtain ⟨hwhole, halmost, hprog⟩ := hI.tail hD hg hr hp
  have hst : stored ((s, .upd hw) :: h) = stored h := stored_ne_proc hr (by rintro ⟨⟩)
  refine ⟨fun hP => ?_, fun hu y hy => ?_, by rw [hst]; exact hwhole, by rw [hst]; exact halmost,
    by rw [hst]; exact hprog⟩
  · have hP := pending_of_step hfree ha hr rfl hP
    have hno : s.programs (.upd hw) = none := Option.eq_none_iff_forall_not_mem.2 fun x hx =>
      not_pending hD (consumes_of_programs hx) hP
    rw [words_same hr rfl hno]; exact hI.fresh hP
  · rcases inDownload_upd hp hr hu with hu' | hu'
    · have hedge := edge_upd hD hr hp hu' hu fun h => by
        rw [offset_of_index hD h]; exact (hI.whole h).offset
      rw [words_cons hr rfl] at hy
      rcases List.mem_append.1 hy with hy | hy
      · obtain ⟨x, hx, rfl⟩ := Option.map_eq_some_iff.1 (Option.mem_toList.1 hy)
        have := wordAddress_le (Option.mem_def.2 hx)
        rw [hx] at hedge
        exact Nat.le_trans (Nat.add_le_add_right this 4) (Nat.add_le_add_left hedge _)
      · have := hI.below hu' y hy
        omega
    · have hno : s.programs (.upd hw) = none := by rw [programs, hu']; rfl
      rw [words_same hr rfl hno, hI.fresh (.inr (.inr hu'))] at hy
      cases hy

/-! ### Runs -/

theorem stored_eq (hr : s.resets a = false) (hc : s.clears a = false) :
    stored ((s, a) :: h) = stored h ∨ ∃ p, stored ((s, a) :: h) = p :: stored h := by
  rw [stored_cons hr hc]
  cases s.stores a with
  | none => exact .inl rfl
  | some p => exact .inr ⟨p, rfl⟩

/-- A step that clears nothing and is not one of the update thread leaves `Download` where it is. -/
theorem DisciplineInv.frame (hD : DownloadInv h s) (hI : DisciplineInv h s)
    (hfree : s.upd ≠ .take → s.updateSem.taker = .free) (hr : s.resets a = false)
    (hne : ∀ hw, a ≠ .upd hw) (hc : s.clears a = false) (ha : step a s = some s') (hu : s'.upd = s.upd)
    (hedge : s'.edge = s.edge) : DisciplineInv ((s, a) :: h) s' := by
  have hst := stored_eq (h := h) hr hc
  have hno : s.programs a = none ∧ s.loads a = false := by
    cases a with
    | upd hw => exact absurd rfl (hne hw)
    | _ => exact ⟨rfl, rfl⟩
  have hld : loaded ((s, a) :: h) = loaded h := loaded_same hr hc hno.2
  have hw := words_same (h := h) hr hc hno.1
  refine ⟨fun h => ?_, fun h => ?_, fun h => ?_, fun h => ?_, fun h => ?_⟩
  · rw [hw]; exact hI.fresh (pending_of_step hfree ha hr hc h)
  · rw [hu] at h
    rw [hw, hedge]; exact hI.below h
  · rw [hu] at h
    have hin := inDownload_of_index h
    have hI := hI.whole h
    rw [hld]
    rcases hst with hst | ⟨p, hst⟩ <;> rw [hst]
    · exact hI
    · exact (Whole.congr fun k hk => mem_of_lt_loaded hD hin hk).2 hI
  · rw [hu] at h
    have hI := hI.almost h
    rw [hld]
    rcases hst with hst | ⟨p, hst⟩ <;> rw [hst]
    · exact hI
    · exact hI.cons fun k hk => mem_of_lt_loaded hD h hk
  · rw [hu] at h
    have hin := inDownload_of_programmed h
    have hI := hI.programmed h
    rw [hld]
    rcases hst with hst | ⟨p, hst⟩ <;> rw [hst]
    · exact hI
    · rw [payloadOf_cons (loaded_mem hD h)]
      exact hI.imp_left (Whole.congr fun k hk => mem_of_lt_loaded hD hin hk).2

theorem DisciplineInv.proc (hD : DownloadInv h s) (hI : DisciplineInv h s) (hg : DownloadGuard h s .proc)
    (hfree : s.upd ≠ .take → s.updateSem.taker = .free)
    (hr : s.resets .proc = false) (ha : step .proc s = some s') (hp : s.procStep = some s') :
    DisciplineInv ((s, .proc) :: h) s' := by
  have hu := (procStep_frame hp hr).2.2
  cases hc : s.clears .proc with
  | true =>
    have hno := hg.1 hc
    have hw := words_clear (h := h) hr hc
    have hno' : s'.upd.inDownload = false := by rw [hu]; exact hno
    refine ⟨fun _ => hw, fun h => ?_, fun h => ?_, fun h => ?_, fun h => ?_⟩
    · rw [hno'] at h; cases h
    · rw [index_of_not_inDownload hno'] at h; exact absurd h (Nat.lt_irrefl 0)
    · rw [hno'] at h; cases h
    · rw [inDownload_of_programmed h] at hno'; cases hno'
  | false =>
    exact hI.frame hD hfree hr (by rintro _ ⟨⟩) hc ha hu (edge_procStep hD hg hp hr hc)

theorem DisciplineInv.reset {flash eeprom : Mem} (hw : words h = []) :
    DisciplineInv h (Device.reset flash eeprom) :=
  ⟨fun _ => hw, (by rintro ⟨⟩), (by rintro ⟨⟩), (by rintro ⟨⟩), (by rintro ⟨⟩)⟩

theorem DisciplineInv.next (hD : DownloadInv h s) (hI : DisciplineInv h s) (hg : DownloadGuard h s a)
    (hwg : WholeWords h s a) (hfree : s.upd ≠ .take → s.updateSem.taker = .free)
    (ha : step a s = some s') : DisciplineInv ((s, a) :: h) s' := by
  cases step_cases ha with
  | reset e he hr hs => rw [hs]; exact .reset (Lts.foldSince_of_reset hr)
  | recv d addr hc hs =>
    have hI := fun hu hedge => hI.frame hD hfree rfl (by rintro _ ⟨⟩) rfl ha hu hedge
    rcases s.deliver_cases d addr with ⟨-, -, -, hs'⟩ | ⟨-, c, hs'⟩ <;> rw [hs'] at hs <;> subst hs <;>
      exact hI rfl rfl
  | proc hr hp => exact hI.proc hD hg hfree hr ha hp
  | upd hw hr hy hp => exact hI.upd hD hwg hfree hr ha hp
  | other e n t m c hr h₁ h₂ h₃ hs => subst hs; exact hI.frame hD hfree hr h₃ (clears_ne_proc h₂) ha rfl rfl

theorem program_eq (hD : DownloadInv h s) {x : Nat × List UInt8} (hx : x ∈ s.programs a) :
    s.codeDownloadLength = offsetOf (stored h) (loaded h) ∧ s.edge = up4 s.codeDownloadLength + 4 * x.1 ∧
      4 * x.1 < up4 (payloadOf (stored h) (loaded h)).length ∧
      s.wordAddress x.1 = flashUserStartAddr + s.codeDownloadLength + 4 * x.1 := by
  obtain ⟨i, q, b, n, hpc⟩ := exists_program hx
  have hloop := hD.loop
  rw [hpc] at hloop
  obtain ⟨⟨hit, -⟩, hready, hpad, hj, -⟩ := hloop
  obtain ⟨hpay, hlen⟩ := hready.dataLen hD.ring
  have hnum : 4 * n = up4 (s.fileBuf b).dataLen := hpad.num ▸ wordDataNum_eq _
  refine ⟨hit.offset, by rw [edge, hpc, UpdPc.edge], ?_, Nat.mod_eq_of_lt ?_⟩
  · rw [← hpay]; omega
  · -- the packets consumed have 16-bit numbers
    obtain ⟨hle, hc⟩ := offsetOf_le (n := loaded h) hD.ring (Nat.le_of_eq hit.back.symm)
    rw [← hit.offset] at hle
    have hstart : flashUserStartAddr = 0x08020000 := rfl
    unfold up4 at hnum
    omega

theorem DisciplineInv.programsOk_iff (hD : DownloadInv h s) (hI : DisciplineInv h s) :
    ProgramsOk h s a ↔ WholeWords h s a := by
  refine forall_congr' fun x => forall_congr' fun hx => ?_
  have hin := inDownload_of_consumes (consumes_of_programs hx)
  obtain ⟨hoff, hedge, -, haddr⟩ := program_eq hD hx
  have hstart : flashUserStartAddr = 4 * 0x2008000 := rfl
  rw [haddr]
  constructor
  · rintro ⟨h4, -⟩
    refine (hI.almost hin).whole ?_
    rw [← hoff]; omega
  · intro hw
    have h4 := hw.offset
    rw [← hoff] at h4
    refine ⟨by omega, fun y hy => .inl ?_⟩
    have := hI.below hin y hy
    unfold up4 at hedge
    omega

theorem DisciplineInv.of_run (hr : system.Run h s) (hg : Lts.Guarded DownloadGuard h)
    (hw : Lts.Guarded WholeWords h) : DisciplineInv h s := by
  induction hr with
  | init hi => rw [show _ = Device.reset _ _ from hi]; exact .reset rfl
  | step hr ha ih =>
    exact (ih hg.2 hw.2).next (DownloadInv.of_run hr hg.2) hg.1 hw.1 (taker_free hr) ha

/-- In a run in which `ERASE_FLASH` does not clear the variables while `Download` runs and the lengths read
back are kept: the words of every session are aligned and disjoint if and only if the packets in front of a
packet that has words are of whole words. -/
theorem guarded_programsOk_iff (hr : system.Run h s) (hg : Lts.Guarded DownloadGuard h) :
    Lts.Guarded ProgramsOk h ↔ Lts.Guarded WholeWords h := by
  induction hr with
  | init hi => exact Iff.rfl
  | step hr ha ih =>
    have ih := ih hg.2
    -- behind a step at which one of the two fails there is nothing left to show
    constructor
    · rintro ⟨h₁, h₂⟩
      have hw := ih.1 h₂
      exact ⟨(DisciplineInv.of_run hr hg.2 hw).programsOk_iff (DownloadInv.of_run hr hg.2) |>.1 h₁, hw⟩
    · rintro ⟨h₁, h₂⟩
      exact ⟨(DisciplineInv.of_run hr hg.2 h₂).programsOk_iff (DownloadInv.of_run hr hg.2) |>.2 h₁, ih.2 h₂⟩

/-- Two packets of four bytes. -/
theorem guarded_programsOk_iff_two : ∃ h s, system.Run h s ∧
    words h = [flashUserStartAddr + 4, flashUserStartAddr] ∧ Lts.Guarded ProgramsOk h := by
  obtain ⟨h, s, hr, hw, hg, hwh⟩ := Lts.exists_run_of_exec (S := system)
    (P := fun h _ => words h = [flashUserStartAddr + 4, flashUserStartAddr] ∧ Lts.Guarded DownloadGuard h ∧
      Lts.Guarded WholeWords h)
    (bootActs ++ [.recv (eraseFrame 8 36) 7] ++ procs 14 ++ [.recv (downloadFrame 0 [1, 2, 3, 4]) 7] ++
      procs 19 ++ [.recv (downloadFrame 1 [5, 6, 7, 8]) 7] ++ procs 20 ++ upds 21)
    (init_reset (fun _ => 0) (eepromOf 1)) (by decide +kernel)
  exact ⟨h, s, hr, hw, (guarded_programsOk_iff hr hg).2 hwh⟩

/-- Packets of five and three bytes: the word of the second one starts within the second word of the first. -/
theorem unaligned_word : ∃ h s, system.Run h s ∧ Lts.Guarded OneErase h ∧ Lts.Guarded LengthGuard h ∧
    words h = [flashUserStartAddr + 5, flashUserStartAddr + 4, flashUserStartAddr] ∧
    ¬ Lts.Guarded ProgramsOk h :=
  Lts.exists_run_of_exec
    (bootActs ++ [.recv (eraseFrame 8 36) 7] ++ procs 14 ++ [.recv (downloadFrame 0 [1, 2, 3, 4, 5]) 7] ++
      procs 20 ++ [.recv (downloadFrame 1 [6, 7, 8]) 7] ++ procs 19 ++ upds 2066)
    (init_reset (fun _ => 0) (eepromOf 1)) (by decide +kernel)

end Device

end Bootloader
