import Bootloader.Ring
import Bootloader.Image
import Bootloader.Flash

/-!
# One update session

`Download` of `networkupdate.c` against the packets of one session: the ring of `Ring.lean`, with an
iteration of the loop of `Download` as one step, and `CalChecksum` after it. The session starts when
`EraseFlash` has returned; a session is a run of the ring (`run_ring`), and in it the flash holds the
concatenation of the payloads consumed so far (`Inv.flash`).
-/

namespace Bootloader

/-- The loop that programs a packet: `n` words from word `j` on; stops at the first word that cannot
be programmed. -/
def programWords (hw : Nat → FlashStatus) (address : Nat) (data : Mem) : Nat → Nat → Mem → Mem × Bool
  | 0, _, flash => (flash, true)
  | n + 1, j, flash =>
    let flash' := flashProgramWord flash (u32 (address + 4 * j)) (data.read (4 * j) 4) (hw j)
    match hw j with
    | .complete => programWords hw address data n (j + 1) flash'
    | .failed _ => (flash', false)

theorem programWords_spec {hw : Nat → FlashStatus} {address : Nat} {data : Mem} :
    ∀ {n j : Nat} {flash flash' : Mem}, programWords hw address data n j flash = (flash', true) →
      address + 4 * (j + n) ≤ 2 ^ 32 →
      flash' = flash.program (address + 4 * j) (data.read (4 * j) (4 * n))
  | 0, j, flash, flash', h, _ => by cases h; exact Mem.program_nil.symm
  | n + 1, j, flash, flash', h, hlt => by
    rw [programWords] at h
    cases hw' : hw j with
    | failed junk => rw [hw'] at h; cases h
    | complete =>
      rw [hw'] at h
      have hu : u32 (address + 4 * j) = address + 4 * j := Nat.mod_eq_of_lt (by omega)
      rw [programWords_spec h (by omega), hu, flashProgramWord, show 4 * (n + 1) = 4 + 4 * n from by omega,
        Mem.read_add, Mem.program_append, Mem.length_read]
      rfl

theorem programWords_complete {address : Nat} {data : Mem} :
    ∀ {n j : Nat} {flash : Mem}, (programWords (fun _ => .complete) address data n j flash).2 = true
  | 0, _, _ => rfl
  | n + 1, _, _ => programWords_complete (n := n)

/-- The packet ring with the other variables of `networkupdate.c` that the session uses, the local
`i` of `Download` and what `Download` has returned. -/
structure Session where
  ring : Ring
  i : Nat
  codeTotalLength : Nat
  codeDownloadLength : Nat
  codeUpperCheckSum : Nat
  codeLowerCheckSum : Nat
  checkSumResult : Nat
  currentProgress : Nat
  flash : Mem
  result : Option Nat

inductive SessionAct
  | save (p : Packet)
  | poll (late : Bool)
  /-- An iteration of `Download`; `late`: its wait for the packet is over after 5 s. -/
  | iterate (hw : Nat → FlashStatus) (late : Bool)

inductive Iteration
  | finished
  | timedOut
  | waits
  | failed (b : Nat) (flash : Mem)
  | programmed (b : Nat) (flash : Mem)

namespace Session

def iteration (s : Session) (hw : Nat → FlashStatus) (late : Bool) : Iteration :=
  if s.i < s.codeTotalLength then
    match getFileIndex s.ring.fileBuf s.ring.fileseq with
    | none => if late then .timedOut else .waits
    | some b =>
      match programWords hw (flashUserStartAddr + s.codeDownloadLength) (s.ring.fileBuf b).padZero.data
          (s.ring.fileBuf b).wordDataNum 0 s.flash with
      | (flash, true) => .programmed b flash
      | (flash, false) => .failed b flash
  else .finished

def step : SessionAct → Session → Option Session
  | .save p, s => (Ring.step (.save p) s.ring).map fun r => { s with ring := r }
  | .poll late, s => (Ring.step (.poll late) s.ring).map fun r => { s with ring := r }
  | .iterate hw late, s =>
    if s.result.isSome then none else
      match s.iteration hw late with
      | .finished => some { s with currentProgress := 100, result := some 1 }
      | .timedOut => some { s with result := some 0 }
      | .waits => some s
      | .failed b flash =>
        some { s with
          ring := { s.ring with fileBuf := s.ring.fileBuf.pad b }
          flash := flash
          result := some 0 }
      | .programmed b flash =>
        let i := u32 (s.i + (s.ring.fileBuf b).dataLen)
        some { s with
          ring := { s.ring with
            fileBuf := (s.ring.fileBuf.pad b).release b
            fileseq := (s.ring.fileseq + 1) % 65536 }
          i := i
          codeDownloadLength := i
          currentProgress := progress i s.codeTotalLength
          flash := flash }

/-- The session of an `ERASE_FLASH` with length `codeTotalLength` and checksum `codeUpperCheckSum`,
when `EraseFlash` has left the flash as `flash`. -/
def start (flash : Mem) (codeTotalLength codeUpperCheckSum : Nat) : Session where
  ring := ⟨.clear, 0, none⟩
  i := 0
  codeTotalLength := codeTotalLength
  codeDownloadLength := 0
  codeUpperCheckSum := codeUpperCheckSum
  codeLowerCheckSum := 0
  checkSumResult := 0
  currentProgress := 0
  flash := flash
  result := none

def system (flash : Mem) (codeTotalLength codeUpperCheckSum : Nat) : Lts Session SessionAct where
  init s := s = start flash codeTotalLength codeUpperCheckSum
  step := step

/-- `CalChecksum`: the session after it and the value returned. -/
def calChecksum (s : Session) : Session × Nat :=
  let sum := lowerCheckSum s.flash s.codeTotalLength
  if sum ≠ s.codeUpperCheckSum then
    ({ s with codeLowerCheckSum := sum, checkSumResult := 2 }, 0)
  else ({ s with codeLowerCheckSum := sum, checkSumResult := 3 }, 1)

/-! ### A session is a run of the ring -/

/-- What a step of the session does to the ring. -/
def ringAct (s : Session) : SessionAct → Option RingAct
  | .save p => some (.save p)
  | .poll late => some (.poll late)
  | .iterate hw late =>
    match s.iteration hw late with
    | .failed _ _ => some .pad
    | .programmed _ _ => some .consume
    | _ => none

def ringHist : List (Session × SessionAct) → List (Ring × RingAct)
  | [] => []
  | (s, a) :: h => ((s.ringAct a).map fun ra => (s.ring, ra)).toList ++ ringHist h

def stored (h : List (Session × SessionAct)) : List (Nat × List UInt8) := Ring.stored (ringHist h)

def count (h : List (Session × SessionAct)) : Nat := (Ring.consumed (ringHist h)).length

section
variable {flash₀ : Mem} {L S : Nat} {h : List (Session × SessionAct)} {s s' : Session} {a : SessionAct}

theorem iteration_slot {hw : Nat → FlashStatus} {late : Bool} {b : Nat} {flash : Mem}
    (hi : s.iteration hw late = .failed b flash ∨ s.iteration hw late = .programmed b flash) :
    getFileIndex s.ring.fileBuf s.ring.fileseq = some b := by
  unfold iteration at hi
  split at hi
  · split at hi
    · split at hi <;> rcases hi with hi | hi <;> cases hi
    · next hb =>
      split at hi <;> rcases hi with hi | hi <;> cases hi <;> exact hb
  · rcases hi with hi | hi <;> cases hi

theorem le_of_finished {hw : Nat → FlashStatus} {late : Bool} (hi : s.iteration hw late = .finished) :
    s.codeTotalLength ≤ s.i := by
  unfold iteration at hi
  split at hi
  · split at hi
    · split at hi <;> cases hi
    · split at hi <;> cases hi
  · next hlt => exact Nat.le_of_not_lt hlt

theorem step_ring (ha : step a s = some s') :
    (s.ringAct a = none ∧ s'.ring = s.ring) ∨
    ∃ ra, s.ringAct a = some ra ∧ Ring.step ra s.ring = some s'.ring := by
  cases a with
  | save p =>
    obtain ⟨r, hr, rfl⟩ := Option.map_eq_some_iff.1 ha
    exact .inr ⟨_, rfl, hr⟩
  | poll late =>
    obtain ⟨r, hr, rfl⟩ := Option.map_eq_some_iff.1 ha
    exact .inr ⟨_, rfl, hr⟩
  | iterate hw late =>
    rw [step] at ha
    split at ha
    · cases ha
    rw [ringAct]
    cases hi : s.iteration hw late with
    | finished => rw [hi] at ha; cases ha; exact .inl ⟨rfl, rfl⟩
    | timedOut => rw [hi] at ha; cases ha; exact .inl ⟨rfl, rfl⟩
    | waits => rw [hi] at ha; cases ha; exact .inl ⟨rfl, rfl⟩
    | failed b flash =>
      rw [hi] at ha; cases ha
      exact .inr ⟨_, rfl, by rw [Ring.step, iteration_slot (.inl hi)]; rfl⟩
    | programmed b flash =>
      rw [hi] at ha; cases ha
      exact .inr ⟨_, rfl, by rw [Ring.step, iteration_slot (.inr hi)]⟩

theorem ring_step (hr : Ring.system.Run (ringHist h) s.ring) (ha : step a s = some s') :
    Ring.system.Run (ringHist ((s, a) :: h)) s'.ring := by
  rcases step_ring ha with ⟨hn, hring⟩ | ⟨ra, hs, hstep⟩
  · rw [ringHist, hn, hring]; exact hr
  · rw [ringHist, hs]; exact .step hr hstep

theorem run_step (hr : (system flash₀ L S).Run h s) (ha : step a s = some s') :
    (system flash₀ L S).Run ((s, a) :: h) s' := hr.step ha

/-- A session refines the ring. -/
theorem run_ring (hr : (system flash₀ L S).Run h s) : Ring.system.Run (ringHist h) s.ring :=
  hr.inv' (I := fun h s => Ring.system.Run (ringHist h) s.ring)
    (fun s hs => .init (by rw [show s = start flash₀ L S from hs]; rfl)) fun _ _ _ _ => ring_step

theorem stored_cons (s : Session) (a : SessionAct) (h : List (Session × SessionAct)) :
    stored ((s, a) :: h) = stored h ∨ ∃ p, stored ((s, a) :: h) = p :: stored h := by
  simp only [stored, ringHist]
  cases s.ringAct a with
  | none => exact .inl rfl
  | some ra =>
    simp only [Option.map_some, Option.toList_some, List.singleton_append, Ring.stored]
    cases s.ring.stores ra with
    | none => exact .inl rfl
    | some p => exact .inr ⟨p, rfl⟩

theorem count_cons (ha : s.ringAct a ≠ some .consume) : count ((s, a) :: h) = count h := by
  simp only [count, ringHist]
  cases hra : s.ringAct a with
  | none => rfl
  | some ra =>
    have hc : s.ring.consumes ra = none := by
      cases ra with
      | save p => rfl
      | poll late => rfl
      | pad => rfl
      | consume => exact absurd hra ha
    simp only [Option.map_some, Option.toList_some, List.singleton_append, Ring.consumed, hc,
      Option.toList_none, List.append_nil]

theorem programmed_cons {hw : Nat → FlashStatus} {late : Bool} {b : Nat} {flash : Mem}
    (hi : s.iteration hw late = .programmed b flash) (h : List (Session × SessionAct)) :
    stored ((s, .iterate hw late) :: h) = stored h ∧ count ((s, .iterate hw late) :: h) = count h + 1 := by
  constructor
  · simp [stored, ringHist, ringAct, hi, Ring.stored, Ring.stores, Ring.pass]
  · simp [count, ringHist, ringAct, hi, Ring.consumed, Ring.consumes, iteration_slot (.inr hi)]

/-! ### The flash during the session -/

/-- The flash holds the packets consumed so far, as long as no word has failed. -/
structure Inv (flash₀ : Mem) (L S : Nat) (h : List (Session × SessionAct)) (s : Session) : Prop where
  ring : Ring.Inv (ringHist h) s.ring
  total : s.codeTotalLength = L
  upper : s.codeUpperCheckSum = S
  offset : s.i = (imageOf (stored h) (count h)).length
  download : s.codeDownloadLength = s.i
  finished : s.result = some 1 → L ≤ s.i
  flash : s.result ≠ some 0 →
    (∀ k, k + 1 < count h → (payloadOf (stored h) k).length % 4 = 0) →
    s.flash = flash₀.program flashUserStartAddr (pad4 (imageOf (stored h) (count h)))

theorem Inv.start : Inv flash₀ L S [] (start flash₀ L S) :=
  ⟨.init, rfl, rfl, rfl, rfl, (by rintro ⟨⟩), fun _ _ => Mem.program_nil.symm⟩

theorem Inv.image_cons (hI : Inv flash₀ L S h s) {st : List (Nat × List UInt8)}
    (hst : st = stored h ∨ ∃ p, st = p :: stored h) :
    imageOf st (count h) = imageOf (stored h) (count h) ∧
    ∀ k, k < count h → payloadOf st k = payloadOf (stored h) k := by
  rcases hst with rfl | ⟨p, rfl⟩
  · exact ⟨rfl, fun _ _ => rfl⟩
  · exact ⟨imageOf_cons hI.ring.ring.consumed, fun k hk => payloadOf_cons (hI.ring.ring.consumed k hk)⟩

theorem Inv.frame {r : Ring} {pr : Nat} {res : Option Nat} (hI : Inv flash₀ L S h s)
    (hring : Ring.Inv (ringHist ((s, a) :: h)) r) (hcount : count ((s, a) :: h) = count h)
    (hst : stored ((s, a) :: h) = stored h ∨ ∃ p, stored ((s, a) :: h) = p :: stored h)
    (hfin : res = some 1 → L ≤ s.i) (hres : res ≠ some 0 → s.result ≠ some 0) :
    Inv flash₀ L S ((s, a) :: h) { s with ring := r, currentProgress := pr, result := res } := by
  obtain ⟨himg, hpay⟩ := hI.image_cons hst
  refine ⟨hring, hI.total, hI.upper, by rw [hcount, himg]; exact hI.offset, hI.download, hfin, ?_⟩
  intro hne h4
  rw [hcount] at h4 ⊢
  rw [himg]
  exact hI.flash (hres hne) fun k hk => by rw [← hpay k (by omega)]; exact h4 k hk

theorem Inv.ring_next (hI : Inv flash₀ L S h s) (ha : step a s = some s') :
    Ring.Inv (ringHist ((s, a) :: h)) s'.ring := by
  rcases step_ring ha with ⟨hn, hring⟩ | ⟨ra, hs, hstep⟩
  · rw [ringHist, hn, hring]; exact hI.ring
  · rw [ringHist, hs]; exact hI.ring.next hstep

theorem Inv.save {p : Packet} (hI : Inv flash₀ L S h s) (ha : step (.save p) s = some s') :
    Inv flash₀ L S ((s, .save p) :: h) s' := by
  have hring := hI.ring_next ha
  obtain ⟨r, -, rfl⟩ := Option.map_eq_some_iff.1 ha
  exact hI.frame hring (count_cons (by rintro ⟨⟩)) (stored_cons _ _ _) hI.finished id

theorem Inv.poll {late : Bool} (hI : Inv flash₀ L S h s) (ha : step (.poll late) s = some s') :
    Inv flash₀ L S ((s, .poll late) :: h) s' := by
  have hring := hI.ring_next ha
  obtain ⟨r, -, rfl⟩ := Option.map_eq_some_iff.1 ha
  exact hI.frame hring (count_cons (by rintro ⟨⟩)) (stored_cons _ _ _) hI.finished id

theorem Inv.programmed (hI : Inv flash₀ L S h s) (hL : flashUserStartAddr + L ≤ flashEndAddr)
    {hw : Nat → FlashStatus} {late : Bool} {b : Nat} {flash : Mem}
    (hi : s.iteration hw late = .programmed b flash) :
    s.i < L ∧ b < fileBufferNum ∧ (s.ring.fileBuf b).payload = payloadOf (stored h) (count h) ∧
    (s.ring.fileBuf b).payload.length = (s.ring.fileBuf b).dataLen ∧ (s.ring.fileBuf b).dataLen ≤ 1024 ∧
    flash = s.flash.program (flashUserStartAddr + s.i) (pad4 (s.ring.fileBuf b).payload) := by
  obtain ⟨hb, hst, hseq⟩ := getFileIndex_some (iteration_slot (.inr hi))
  rw [hI.ring.fileseq] at hseq
  have hc := hI.ring.ring.seq_eq_of_mod hb hst hseq
  have hmem := hI.ring.ring.slot_mem b hb (by rw [hst]; rintro ⟨⟩)
  have hlen := hI.ring.ring.len_le _ hmem
  have hpl : (s.ring.fileBuf b).payload.length = (s.ring.fileBuf b).dataLen := Mem.length_read
  rw [hpl] at hlen
  rw [hc] at hmem
  have hpay := payloadOf_of_mem hI.ring.ring.nodup hmem
  unfold iteration at hi
  split at hi
  · next hlt =>
    split at hi
    · split at hi <;> cases hi
    · split at hi
      · next flash' hp =>
        cases hi
        rw [hI.total] at hlt
        refine ⟨hlt, hb, hpay.symm, hpl, hlen, ?_⟩
        have hwd : 4 * (s.ring.fileBuf b).wordDataNum ≤ 1024 := by
          unfold FileBuf.wordDataNum; split <;> omega
        have hend : flashEndAddr = 0x08100000 := rfl
        rw [programWords_spec hp (by rw [hI.download]; unfold flashUserStartAddr at *; omega), hI.download,
          Nat.mul_zero, Nat.add_zero, padZero_read hlen]
      · cases hi
  · cases hi

theorem Inv.iterate {hw : Nat → FlashStatus} {late : Bool} (hI : Inv flash₀ L S h s)
    (hL : flashUserStartAddr + L ≤ flashEndAddr) (ha : step (.iterate hw late) s = some s') :
    Inv flash₀ L S ((s, .iterate hw late) :: h) s' := by
  have hring := hI.ring_next ha
  rw [step] at ha
  split at ha
  · cases ha
  next hres =>
  have hres : s.result = none := by simpa using hres
  cases hi : s.iteration hw late with
  | finished =>
    rw [hi] at ha; cases ha
    have hlt := le_of_finished hi
    rw [hI.total] at hlt
    exact hI.frame hring (count_cons (by simp [ringAct, hi])) (stored_cons _ _ _) (fun _ => hlt) fun _ => by
      rw [hres]; rintro ⟨⟩
  | timedOut =>
    rw [hi] at ha; cases ha
    exact hI.frame hring (count_cons (by simp [ringAct, hi])) (stored_cons _ _ _) (by rintro ⟨⟩) fun hne =>
      absurd rfl hne
  | waits =>
    rw [hi] at ha; cases ha
    exact hI.frame hring (count_cons (by simp [ringAct, hi])) (stored_cons _ _ _) hI.finished id
  | failed b flash =>
    rw [hi] at ha; cases ha
    obtain ⟨himg, -⟩ := hI.image_cons (stored_cons s (.iterate hw late) h)
    refine ⟨hring, hI.total, hI.upper, ?_, hI.download, (by rintro ⟨⟩), fun hne => absurd rfl hne⟩
    rw [count_cons (by simp [ringAct, hi]), himg]; exact hI.offset
  | programmed b flash =>
    rw [hi] at ha; cases ha
    obtain ⟨hlt, -, hpay, hpl, hlen, hflash⟩ := hI.programmed hL hi
    obtain ⟨hst, hcount⟩ := programmed_cons hi h
    have hu : u32 (s.i + (s.ring.fileBuf b).dataLen) = s.i + (s.ring.fileBuf b).dataLen := by
      have : flashEndAddr = 0x08100000 := rfl
      exact Nat.mod_eq_of_lt (by unfold flashUserStartAddr at *; omega)
    refine ⟨hring, hI.total, hI.upper, ?_, rfl, by rw [hres]; rintro ⟨⟩, ?_⟩
    · show u32 (s.i + _) = _
      rw [hu, hst, hcount, imageOf_succ, List.length_append, ← hI.offset, ← hpay, hpl]
    · intro _ h4
      rw [hst, hcount] at h4 ⊢
      have h4' : (imageOf (stored h) (count h)).length % 4 = 0 :=
        length_imageOf_mod fun k hk => h4 k (by omega)
      rw [imageOf_succ, pad4_append h4', Mem.program_append, ← hI.offset, ← hpay]
      show flash = _
      rw [hflash, hI.flash (by rw [hres]; rintro ⟨⟩) fun k hk => h4 k (by omega), pad4_of_dvd h4']

theorem Inv.of_run (hr : (system flash₀ L S).Run h s) (hL : flashUserStartAddr + L ≤ flashEndAddr) :
    Inv flash₀ L S h s :=
  hr.inv' (fun s hs => by rw [show s = _ from hs]; exact Inv.start) fun _ _ a _ hI ha => by
    cases a with
    | save p => exact hI.save ha
    | poll late => exact hI.poll ha
    | iterate hw late => exact hI.iterate hL ha

/-! ### The image in the flash -/

theorem erased_of_end {hw : Nat → FlashStatus} {flash : Mem} (he : (eraseFlash hw L flash).result = 1)
    {n : Nat} (hend : ∀ a, erasedEnd L ≤ a → a < flashUserStartAddr + n →
      (eraseFlash hw L flash).flash a = 0xFF) (a : Nat) (h₁ : flashUserStartAddr ≤ a)
    (h₂ : a < flashUserStartAddr + n) : (eraseFlash hw L flash).flash a = 0xFF := by
  by_cases ha : a < erasedEnd L
  · exact eraseFlash_erased he h₁ ha
  · exact hend a (Nat.le_of_not_lt ha) h₂

theorem read_imageOf {flash : Mem} {st : List (Nat × List UInt8)} {k n : Nat} {l : List UInt8} (hk : k < n)
    (hf : flash = flash₀.write flashUserStartAddr (imageOf st n ++ l)) :
    flash.read (flashUserStartAddr + offsetOf st k) (payloadOf st k).length = payloadOf st k := by
  obtain ⟨rest, hrest⟩ : ∃ rest, imageOf st n = imageOf st k ++ payloadOf st k ++ rest := imageOf_split hk
  rw [hf, hrest, List.append_assoc, Mem.write_append, Mem.read_write_of_disjoint]
  · rw [Mem.write_append, length_imageOf, Mem.read_write]
  · left; rw [List.length_append, length_imageOf]; omega

/-- A session in which `EraseFlash` has returned 1 and `Download` has returned 1: the flash holds the
concatenation of the packets consumed, each at the sum of the lengths of the packets before it, zero
bytes up to the next word, and nothing else has changed; and if the packets are a cut of an image of
the announced length and checksum, `CalChecksum` accepts it. What `Download` programs behind the last
erased sector, for a last packet that goes beyond the announced length, has to be erased already. -/
theorem image_of_download {hw : Nat → FlashStatus} {flash : Mem}
    (hL : flashUserStartAddr + L ≤ flashEndAddr) (he : (eraseFlash hw L flash).result = 1)
    (hr : (system (eraseFlash hw L flash).flash L S).Run h s) (hres : s.result = some 1)
    (h4 : ∀ k, k + 1 < count h → (payloadOf (stored h) k).length % 4 = 0)
    (hend : ∀ a, erasedEnd L ≤ a →
      a < flashUserStartAddr + (pad4 (imageOf (stored h) (count h))).length →
      (eraseFlash hw L flash).flash a = 0xFF) :
    (∀ k, k < count h → (k, payloadOf (stored h) k) ∈ stored h ∧
      s.flash.read (flashUserStartAddr + offsetOf (stored h) k) (payloadOf (stored h) k).length =
        payloadOf (stored h) k) ∧
    s.flash = (eraseFlash hw L flash).flash.write flashUserStartAddr
      (pad4 (imageOf (stored h) (count h))) ∧
    ((imageOf (stored h) (count h)).length = L →
      Mem.byteSum (imageOf (stored h) (count h)) % 2 ^ 32 = S →
      s.calChecksum.2 = 1 ∧ s.calChecksum.1.checkSumResult = 3) := by
  have hI := Inv.of_run hr hL
  have hflash : s.flash = (eraseFlash hw L flash).flash.write flashUserStartAddr
      (pad4 (imageOf (stored h) (count h))) := by
    rw [hI.flash (by rw [hres]; rintro ⟨⟩) h4]
    exact Mem.program_eq_write (erased_of_end he hend)
  refine ⟨fun k hk => ⟨?_, ?_⟩, hflash, fun hlen hsum => ?_⟩
  · obtain ⟨l, hl⟩ := mem_seqs.1 (hI.ring.ring.consumed k hk)
    have hpay : payloadOf (stored h) k = l := payloadOf_of_mem hI.ring.ring.nodup hl
    rw [hpay]; exact hl
  · exact read_imageOf hk hflash
  · have hread : s.flash.read flashUserStartAddr L = imageOf (stored h) (count h) := by
      rw [hflash, pad4, Mem.write_append, Mem.read_write_of_disjoint (.inl (by rw [hlen])), ← hlen,
        Mem.read_write]
    have hlt : flashUserStartAddr + L ≤ 2 ^ 32 := by
      have : flashEndAddr = 0x08100000 := rfl
      omega
    have hok : lowerCheckSum s.flash s.codeTotalLength = s.codeUpperCheckSum := by
      rw [hI.total, hI.upper, lowerCheckSum_eq, userBytes_eq hlt, hread, hsum]
    simp only [calChecksum, hok, ne_eq, not_true_eq_false, if_false, and_self]

/-- Two packets of an image of five bytes, stored in the other order and one of them twice. -/
theorem image_of_download_five : ∃ h s,
    (system (eraseFlash (fun _ => .complete) 5 fun _ => 0).flash 5 15).Run h s ∧
    s.flash.read flashUserStartAddr 8 = [1, 2, 3, 4, 5, 0, 0, 0] ∧ s.calChecksum.2 = 1 := by
  obtain ⟨h, s, hr, hres, hst, hn⟩ := Lts.exists_run_of_exec
    (S := system (eraseFlash (fun _ => .complete) 5 fun _ => 0).flash 5 15)
    (P := fun h s => s.result = some 1 ∧ stored h = [(0, [1, 2, 3, 4]), (1, [5])] ∧ count h = 2)
    [.save ⟨1, [5], by decide, by decide⟩, .save ⟨0, [1, 2, 3, 4], by decide, by decide⟩,
      .iterate (fun _ => .complete) false, .save ⟨1, [5], by decide, by decide⟩,
      .iterate (fun _ => .complete) false, .iterate (fun _ => .complete) false]
    rfl (by decide +kernel)
  have himg : imageOf (stored h) (count h) = [1, 2, 3, 4, 5] := by rw [hst, hn]; decide
  obtain ⟨-, hflash, hsum⟩ := image_of_download (by decide) (by decide +kernel) hr hres
    (fun k hk => by
      rw [hn] at hk
      rw [hst, show k = 0 from by omega]; decide)
    (fun a h₁ h₂ => by
      have h₃ : flashUserStartAddr + (pad4 [1, 2, 3, 4, 5]).length ≤ erasedEnd 5 := by decide
      rw [himg] at h₂; omega)
  refine ⟨h, s, hr, ?_, (hsum (by rw [himg]; rfl) (by rw [himg]; decide)).1⟩
  rw [hflash, himg]; decide

/-! ### A last packet that goes beyond the last erased sector

`Download` does not cut the last packet at `CodeTotalLength`, and `EraseFlash` erases the sectors of
`CodeTotalLength` only. Packets of 1020 bytes against the length 131000: the last one reaches from the
sector that is erased into the next one, which is not. -/

theorem programWords_zero {address x : Nat} {data : Mem} :
    ∀ {n j : Nat} {flash : Mem}, flash x = 0 →
      (programWords (fun _ => .complete) address data n j flash).1 x = 0
  | 0, _, _, h => h
  | n + 1, _, _, h => programWords_zero (n := n) (Mem.program_of_zero h)

/-- After a run in which `k` packets with payload `l` have been stored and consumed, the first byte of
the next sector is 0. -/
structure Overrun (l : List UInt8) (k : Nat) (h : List (Session × SessionAct)) (s : Session) : Prop where
  consumed : count h = k
  packets : stored h = (List.range k).reverse.map fun m => (m, l)
  running : s.result = none
  idle : s.ring.call = none
  empty : s.flash (flashUserStartAddr + 0x20000) = 0

theorem Overrun.mem_seqs {l : List UInt8} {k m : Nat} (ho : Overrun l k h s) :
    m ∈ seqs (stored h) ↔ m < k := by
  rw [ho.packets, Bootloader.mem_seqs]; simp

theorem Overrun.payloadOf {l : List UInt8} {k m : Nat} (ho : Overrun l k h s) (hI : Inv flash₀ L S h s)
    (hm : m < k) : payloadOf (stored h) m = l := by
  have hmem : (m, l) ∈ stored h := by rw [ho.packets]; simp [hm]
  exact payloadOf_of_mem hI.ring.ring.nodup hmem

theorem Overrun.offset {l : List UInt8} {k : Nat} (ho : Overrun l k h s) (hI : Inv flash₀ L S h s) :
    s.i = l.length * k := by
  rw [hI.offset, ho.consumed, length_imageOf, offsetOf,
    List.map_congr_left (g := fun _ => l.length) fun m hm => by
      rw [ho.payloadOf hI (List.mem_range.1 hm)]]
  simp [Nat.mul_comm]

theorem Overrun.save {l : List UInt8} {k : Nat} (ho : Overrun l k h s) (hI : Inv flash₀ L S h s)
    (hk : k < 65536) (hl : l.length ≤ 1024) :
    stored ((s, .save ⟨k, l, hk, hl⟩) :: h) = (k, l) :: stored h ∧
    step (.save ⟨k, l, hk, hl⟩) s = some { s with
      ring := { s.ring with fileBuf := s.ring.fileBuf.store (k % fileBufferNum) k l } } := by
  obtain ⟨hnew, hpoll⟩ := hI.ring.ring.pollSlot_of_next (s := k)
    (fun hmem => Nat.lt_irrefl k (ho.mem_seqs.1 hmem))
    (by have := ho.consumed; unfold count at this; unfold fileBufferNum; omega)
    (by
      by_cases h40 : k < fileBufferNum
      · exact .inl h40
      · exact .inr (ho.mem_seqs.2 (by unfold fileBufferNum at h40; omega)))
  have hsave : saveEntry s.ring.fileBuf k = .store (k % fileBufferNum) := by
    rw [saveEntry, hnew, savePass, hpoll]; rfl
  constructor
  · simp only [stored, ringHist, ringAct, Option.map_some, Option.toList_some,
      List.singleton_append, Ring.stored, Ring.stores, Ring.pass, hsave]
  · simp only [step, Ring.step, ho.idle, Option.isSome_none, hsave]; rfl

theorem Overrun.next {l : List UInt8} {k : Nat} (hl : l.length = 1020) (hk : k < 129)
    (hr : (system flash₀ 131000 S).Run h s) (ho : Overrun l k h s) :
    ∃ h' s', (system flash₀ 131000 S).Run h' s' ∧ Overrun l (k + 1) h' s' := by
  obtain ⟨hst, hsave⟩ := ho.save (.of_run hr (by decide)) (k := k) (by omega) (by omega)
  have hr₁ := run_step hr hsave
  have hI₁ := Inv.of_run hr₁ (by decide)
  have hcount : count ((s, .save ⟨k, l, by omega, by omega⟩) :: h) = k :=
    (count_cons (by rintro ⟨⟩)).trans ho.consumed
  obtain ⟨s₁, hs₁⟩ : ∃ s₁, s₁ = { s with
    ring := { s.ring with fileBuf := s.ring.fileBuf.store (k % fileBufferNum) k l } } := ⟨_, rfl⟩
  rw [← hs₁] at hr₁ hI₁
  have hslot : s₁.ring.fileBuf (k % fileBufferNum) =
      ⟨k, l.length, (s.ring.fileBuf (k % fileBufferNum)).data.write 0 l, .receiveOk⟩ := by
    rw [hs₁]; exact FileBufs.set_self
  have hfs : s₁.ring.fileseq = k := by
    have := hcount
    rw [hI₁.ring.fileseq]; unfold count at this; omega
  have hi : s₁.i = 1020 * k := by
    rw [hs₁, ← hl]; exact ho.offset (.of_run hr (by decide))
  cases hg : getFileIndex s₁.ring.fileBuf s₁.ring.fileseq with
  | none =>
    have := List.find?_eq_none.1 hg _ (List.mem_range.2 (Nat.mod_lt k (by decide)))
    exact absurd (by rw [hslot, hfs]; simp) this
  | some b =>
    obtain ⟨p, hp⟩ : ∃ p, p = programWords (fun _ => .complete) (flashUserStartAddr + s₁.codeDownloadLength)
      (s₁.ring.fileBuf b).padZero.data (s₁.ring.fileBuf b).wordDataNum 0 s₁.flash := ⟨_, rfl⟩
    have hp2 : p.2 = true := by rw [hp]; exact programWords_complete
    have hit : s₁.iteration (fun _ => .complete) false = .programmed b p.1 := by
      rw [iteration, if_pos (by rw [hI₁.total, hi]; omega), hg]
      dsimp only
      rw [← hp, ← Prod.eta p, hp2]
    have hres : s₁.result = none := by rw [hs₁]; exact ho.running
    have hstep := show step (.iterate (fun _ => .complete) false) s₁ = _ by
      rw [step, hres, hit]
    obtain ⟨hst', hcount'⟩ := programmed_cons hit ((s, .save ⟨k, l, by omega, by omega⟩) :: h)
    refine ⟨_, _, run_step hr₁ hstep, hcount'.trans (by rw [hcount]), ?_, rfl, ?_, ?_⟩
    · rw [hst', hst, ho.packets, List.range_succ, List.reverse_append]; rfl
    · rw [hs₁]; exact ho.idle
    · show p.1 _ = 0
      rw [hp]; exact programWords_zero (by rw [hs₁]; exact ho.empty)

theorem Overrun.run {l : List UInt8} (hl : l.length = 1020) (h0 : flash₀ (flashUserStartAddr + 0x20000) = 0) :
    ∀ {k : Nat}, k ≤ 129 → ∃ h s, (system flash₀ 131000 S).Run h s ∧ Overrun l k h s
  | 0, _ => ⟨[], _, .init rfl, rfl, rfl, rfl, rfl, h0⟩
  | k + 1, hk => by
    obtain ⟨h, s, hr, ho⟩ := Overrun.run hl h0 (k := k) (by omega)
    exact ho.next hl (by omega) hr

/-- `Download` returns 1 and the last packet is not in the flash. -/
theorem overrun : ∃ flash : Mem, ∃ L S h s,
    flashUserStartAddr + L ≤ flashEndAddr ∧ (eraseFlash (fun _ => .complete) L flash).result = 1 ∧
    (system (eraseFlash (fun _ => .complete) L flash).flash L S).Run h s ∧ s.result = some 1 ∧
    (∀ k, k + 1 < count h → (payloadOf (stored h) k).length % 4 = 0) ∧
    ∃ k, k < count h ∧
      s.flash.read (flashUserStartAddr + offsetOf (stored h) k) (payloadOf (stored h) k).length ≠
        payloadOf (stored h) k := by
  obtain ⟨l, hl⟩ : ∃ l, l = List.replicate 1020 (1 : UInt8) := ⟨_, rfl⟩
  have hlen : l.length = 1020 := by rw [hl, List.length_replicate]
  obtain ⟨h, s, hr, ho⟩ : ∃ h s,
      (system (eraseFlash (fun _ => .complete) 131000 fun _ => 0).flash 131000 0).Run h s ∧ Overrun l 129 h s :=
    Overrun.run hlen (by decide +kernel) (Nat.le_refl 129)
  have hI := Inv.of_run hr (by decide)
  have hi := ho.offset hI
  have hfinished : s.iteration (fun _ => .complete) false = .finished :=
    if_neg (by rw [hI.total, hi, hlen]; omega)
  have hfin : step (.iterate (fun _ => .complete) false) s =
      some { s with currentProgress := 100, result := some 1 } := by
    rw [step, ho.running, hfinished]; rfl
  have hit : s.ringAct (.iterate (fun _ => .complete) false) = none := by
    rw [ringAct, hfinished]
  have hst : stored ((s, .iterate (fun _ => .complete) false) :: h) = stored h := by
    rw [stored, ringHist, hit]; rfl
  have hcount : count ((s, .iterate (fun _ => .complete) false) :: h) = 129 :=
    (count_cons (by rw [hit]; rintro ⟨⟩)).trans ho.consumed
  refine ⟨fun _ => 0, 131000, 0, _, _, by decide, by decide +kernel, run_step hr hfin, rfl, fun k hk => ?_, 128,
    ?_, ?_⟩
  · rw [hcount] at hk
    rw [hst, ho.payloadOf hI (by omega), hlen]
  · rw [hcount]; decide
  · rw [hst, ho.payloadOf hI (by omega), hlen]
    intro heq
    -- the byte 512 of the last packet is the first one behind the sector erased
    have hoff : offsetOf (stored h) 128 = 130560 := by
      rw [offsetOf, List.map_congr_left (g := fun _ => 1020) fun m hm => by
        rw [ho.payloadOf hI (Nat.lt_trans (List.mem_range.1 hm) (by decide)), hlen]]
      simp
    have h512 := congrArg (fun l => l[512]?) heq
    simp only [hoff] at h512
    rw [Mem.getElem?_read (by omega), hl, List.getElem?_replicate_of_lt (by omega)] at h512
    have := ho.empty.symm.trans (Option.some.inj h512)
    exact absurd this (by decide)

end

end Session

end Bootloader
