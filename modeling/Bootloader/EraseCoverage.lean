import Bootloader.Flash

/-!
# What EraseFlash covers

The calls of `FLASH_EraseSector` that `EraseFlash` makes for a length. `GetSector` gives sector 11 for every
address outside its table, above the flash or below it, so the range check of `EraseFlash` never holds: a
length beyond the flash is erased up to its end, or not at all once the end address has wrapped around.
-/

namespace Bootloader

/-- The calls of `FLASH_EraseSector` in the loop of `EraseFlash`. -/
def eraseCalls (hw : Nat → FlashStatus) : List Nat → List Nat
  | [] => []
  | sector :: rest =>
    match hw sector with
    | .complete => sector :: eraseCalls hw rest
    | .failed _ => [sector]

/-- The calls of `FLASH_EraseSector` that `EraseFlash` makes. -/
def eraseFlashCalls (hw : Nat → FlashStatus) (iDataLen : Nat) : List Nat :=
  let sectorEnd := getSector (u32 (flashUserStartAddr + iDataLen))
  if flashSector 11 < sectorEnd then [] else eraseCalls hw (sectorsFrom (getSector flashUserStartAddr) sectorEnd)

/-- The sector meets the range of a program of length `iDataLen`. -/
def MeetsUser (iDataLen sector : Nat) : Prop :=
  ∃ a, flashUserStartAddr ≤ a ∧ a < flashUserStartAddr + iDataLen ∧ inSector sector a

/-- What `EraseFlash` should do: with the value 1 the range is in the flash, its sectors have been erased and
none of the boot loader; a range that does not fit is refused. -/
structure Covers (hw : Nat → FlashStatus) (iDataLen : Nat) (flash : Mem) : Prop where
  inside : (eraseFlash hw iDataLen flash).result = 1 → flashUserStartAddr + iDataLen ≤ flashEndAddr
  erased : (eraseFlash hw iDataLen flash).result = 1 → ∀ n ≤ 11, MeetsUser iDataLen (flashSector n) →
    flashSector n ∈ eraseFlashCalls hw iDataLen ∧ hw (flashSector n) = .complete ∧
      ∀ a, inSector (flashSector n) a → (eraseFlash hw iDataLen flash).flash a = 0xFF
  bootKept : (eraseFlash hw iDataLen flash).result = 1 → (∀ n ≤ 4, flashSector n ∉ eraseFlashCalls hw iDataLen) ∧
    ∀ a < flashUserStartAddr, (eraseFlash hw iDataLen flash).flash a = flash a
  refused : flashEndAddr < flashUserStartAddr + iDataLen → (eraseFlash hw iDataLen flash).result = 0 ∧
    (eraseFlash hw iDataLen flash).eraseFlashResult = 2 ∧ eraseFlashCalls hw iDataLen = []

variable {hw : Nat → FlashStatus} {iDataLen m n x : Nat} {flash flash' : Mem} {l : List Nat}

/-! ### The loop -/

/-- The loop ends behind its last sector: every sector has been erased. -/
theorem eraseSectors_true (h : eraseSectors hw l flash = (flash', true)) :
    eraseCalls hw l = l ∧ ∀ k ∈ l, hw k = .complete := by
  induction l generalizing flash with
  | nil => exact ⟨rfl, fun k hk => absurd hk List.not_mem_nil⟩
  | cons sector rest ih =>
    rw [eraseSectors] at h
    rw [eraseCalls]
    cases hs : hw sector with
    | failed junk => rw [hs] at h; cases h
    | complete =>
      rw [hs] at h
      obtain ⟨hcalls, hok⟩ := ih h
      exact ⟨by rw [hcalls], List.forall_mem_cons.2 ⟨hs, hok⟩⟩

/-- The first sector is called for, whatever it returns. -/
theorem eraseCalls_ne_nil {sector : Nat} : eraseCalls hw (sector :: l) ≠ [] := by
  rw [eraseCalls]
  split <;> exact List.cons_ne_nil _ _

theorem mem_sectorsFrom : x ∈ sectorsFrom (flashSector 5) (flashSector (5 + m)) ↔ ∃ k ≤ m, x = flashSector (5 + k) := by
  simp only [sectorsFrom, flashSector, List.mem_map, List.mem_range]
  constructor
  · rintro ⟨k, hk, rfl⟩
    exact ⟨k, by omega, by omega⟩
  · rintro ⟨k, hk, rfl⟩
    exact ⟨k, by omega, by omega⟩

theorem sectorsFrom_of_lt (hn : n < 5) : sectorsFrom (flashSector 5) (flashSector n) = [] := by
  rw [sectorsFrom, show (flashSector n + 8 - flashSector 5) / 8 = 0 by unfold flashSector; omega]; rfl

/-- The loop runs, or returns at once because the end address is in front of the user region. -/
theorem eraseFlash_eq (hw : Nat → FlashStatus) (iDataLen : Nat) (flash : Mem) :
    ∃ n ≤ 11, getSector (u32 (flashUserStartAddr + iDataLen)) = flashSector n ∧
      eraseFlashCalls hw iDataLen = eraseCalls hw (sectorsFrom (flashSector 5) (flashSector n)) ∧
      eraseFlash hw iDataLen flash =
        match eraseSectors hw (sectorsFrom (flashSector 5) (flashSector n)) flash with
        | (flash', true) => ⟨flash', 3, 1⟩
        | (flash', false) => ⟨flash', 2, 0⟩ := by
  obtain ⟨n, hn, hend⟩ := getSector_eq (u32 (flashUserStartAddr + iDataLen))
  have hle : ¬ flashSector 11 < flashSector n := by unfold flashSector; omega
  refine ⟨n, hn, hend, ?_, ?_⟩
  · rw [eraseFlashCalls, hend]
    exact if_neg hle
  · rw [eraseFlash, hend]
    exact if_neg hle

theorem eraseSectors_of_result {o : EraseOutcome} (h : o.result = 1)
    (ho : o = match eraseSectors hw l flash with
      | (flash', true) => ⟨flash', 3, 1⟩
      | (flash', false) => ⟨flash', 2, 0⟩) :
    eraseSectors hw l flash = (o.flash, true) := by
  generalize eraseSectors hw l flash = r at ho ⊢
  obtain ⟨flash', b⟩ := r
  cases b with
  | true => rw [ho]
  | false => rw [ho] at h; cases h

/-! ### The sectors of a length -/

theorem getSector_user (x : Nat) :
    getSector (flashUserStartAddr + x) = flashSector (5 + min 6 (x / 0x20000)) := by
  simp only [getSector, addrFlashSector, flashUserStartAddr]
  iterate 5 rw [if_neg (by omega)]
  iterate 6
    split
    · exact congrArg flashSector (by omega)
  exact congrArg flashSector (by omega)

/-- A sector that meets the range of a program is one of those from 5 up to the one of its end. -/
theorem MeetsUser.user (h : MeetsUser iDataLen (flashSector n)) (hn : n ≤ 11) :
    ∃ k, k ≤ min 6 (iDataLen / 0x20000) ∧ n = 5 + k := by
  obtain ⟨a, h1, h2, hin⟩ := h
  have h5 : 5 ≤ n := by
    by_contra hlt
    rw [inSector, flashSector, Nat.mul_div_cancel_left _ (by decide)] at hin
    have : addrFlashSector (n + 1) ≤ flashUserStartAddr := by
      have : n ≤ 4 := by omega
      interval_cases n <;> decide
    omega
  obtain ⟨k, rfl⟩ := Nat.exists_eq_add_of_le h5
  rw [inSector_user (by omega)] at hin
  exact ⟨k, by omega, rfl⟩

/-- `EraseFlash` meets its purpose if and only if the program fits in the flash. -/
theorem covers_iff : Covers hw iDataLen flash ↔ flashUserStartAddr + iDataLen ≤ flashEndAddr := by
  obtain ⟨n, hn, hend, hcalls, heq⟩ := eraseFlash_eq hw iDataLen flash
  constructor
  · intro h
    by_contra hgt
    obtain ⟨hres, -, hnil⟩ := h.refused (Nat.lt_of_not_le hgt)
    by_cases h5 : n < 5
    · -- the end address has wrapped around to a sector of the boot loader
      rw [sectorsFrom_of_lt h5] at heq
      rw [heq] at hres; cases hres
    · obtain ⟨m, rfl⟩ := Nat.exists_eq_add_of_le (Nat.le_of_not_lt h5)
      rw [hcalls, sectorsFrom, show (flashSector (5 + m) + 8 - flashSector 5) / 8 = m + 1 by
        unfold flashSector; omega, List.range_succ_eq_map] at hnil
      exact eraseCalls_ne_nil hnil
  · intro hfit
    have hu : u32 (flashUserStartAddr + iDataLen) = flashUserStartAddr + iDataLen :=
      Nat.mod_eq_of_lt (by have : flashEndAddr = 0x08100000 := rfl; omega)
    rw [hu, getSector_user] at hend
    have hnm : n = 5 + min 6 (iDataLen / 0x20000) := by unfold flashSector at hend; omega
    rw [hnm] at heq hcalls
    refine ⟨fun _ => hfit, fun hres k hk hmeet => ?_, fun hres => ?_, fun hgt => by omega⟩
    · have hloop := eraseSectors_of_result hres heq
      obtain ⟨hall, hok⟩ := eraseSectors_true hloop
      obtain ⟨j, hj, rfl⟩ := hmeet.user hk
      have hmem := mem_sectorsFrom.2 ⟨j, hj, rfl⟩
      refine ⟨by rw [hcalls, hall]; exact hmem, hok _ hmem, fun a ha => ?_⟩
      exact (eraseSectors_spec hloop a).1 ⟨_, hmem, ha⟩
    · have hloop := eraseSectors_of_result hres heq
      refine ⟨fun k hk hmem => ?_, fun a ha => (eraseSectors_spec hloop a).2 fun k hk hin => ?_⟩
      · rw [hcalls, (eraseSectors_true hloop).1, mem_sectorsFrom] at hmem
        obtain ⟨j, -, hj⟩ := hmem
        unfold flashSector at hj; omega
      · obtain ⟨j, hj, rfl⟩ := mem_sectorsFrom.1 hk
        rw [inSector_user (by omega)] at hin
        omega

/-- One byte more than the flash has: all sectors are erased and `EraseFlash` returns 1. -/
theorem not_covers_of_long : ¬ Covers (fun _ => .complete) 0xE0001 fun _ => 0xFF := fun h =>
  absurd (h.inside (by decide +kernel)) (by decide)

end Bootloader
