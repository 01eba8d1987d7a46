import Bootloader.Lib.Memory

/-!
# The packet buffer

`FileBuf[FILE_BUFFER_NUM]` of `networkupdate.h` and the functions of `networkupdate.c` that work on
it: `SaveFileToBuf` (split into its search for duplicates and one pass of its polling loop),
`GetFileIndexFromBuf` (one pass), and what `Download` does to a slot.
-/

namespace Bootloader

def fileBufferNum : Nat := 40

inductive FileState
  | init
  | receiveOk
  | downloadOk
deriving DecidableEq, Repr

/-- `sFileBuf`: a slot of the packet buffer. -/
structure FileBuf where
  seq : Nat
  dataLen : Nat
  data : Mem
  state : FileState

namespace FileBuf

/-- A slot after `memset(FileBuf,0,sizeof(FileBuf))`. -/
def clear : FileBuf := ⟨0, 0, fun _ => 0, .init⟩

def payload (b : FileBuf) : List UInt8 := b.data.read 0 b.dataLen

/-- `worddatanum`: the number of words `Download` programs for the slot. -/
def wordDataNum (b : FileBuf) : Nat :=
  if b.dataLen % 4 ≠ 0 then b.dataLen / 4 + 1 else b.dataLen / 4

/-- The `memset` with which `Download` zeroes `Data` behind the payload. -/
def zeroRest (b : FileBuf) : FileBuf :=
  { b with data := b.data.write b.dataLen (List.replicate (1024 - b.dataLen) 0) }

/-- `Download` zeroes the rest of `Data` when the length is not a multiple of four. -/
def padZero (b : FileBuf) : FileBuf := if b.dataLen % 4 ≠ 0 then b.zeroRest else b

end FileBuf

/-- The array `FileBuf`; only the indices below `fileBufferNum` are used. -/
abbrev FileBufs := Nat → FileBuf

namespace FileBufs

def clear : FileBufs := fun _ => .clear

def set (fb : FileBufs) (i : Nat) (b : FileBuf) : FileBufs := fun k => if k = i then b else fb k

/-- `Seq`, `DataLen`, `Data` and `State` are written by `SaveFileToBuf`; `memcpy` leaves what lies
behind the payload. -/
def store (fb : FileBufs) (i iSeq : Nat) (payload : List UInt8) : FileBufs :=
  fb.set i ⟨iSeq, payload.length, (fb i).data.write 0 payload, .receiveOk⟩

/-- One byte of the `memset` of `Download`. -/
def zeroByte (fb : FileBufs) (i k : Nat) : FileBufs := fb.set i { fb i with data := (fb i).data.write k [0] }

/-- `Download` pads the slot it reads. -/
def pad (fb : FileBufs) (i : Nat) : FileBufs := fb.set i (fb i).padZero

def release (fb : FileBufs) (i : Nat) : FileBufs := fb.set i { fb i with state := .downloadOk }

end FileBufs

/-- `CurrentProgress`, with the division of `float` values as the exact one. -/
def progress (codeDownloadLength codeTotalLength : Nat) : Nat :=
  100 * codeDownloadLength / codeTotalLength % 256

/-- The search for a duplicate with which `SaveFileToBuf` starts. -/
def alreadySaved (fb : FileBufs) (iSeq : Nat) : Bool :=
  (List.range fileBufferNum).any fun i => (fb i).seq == iSeq && (fb i).state != .init

def nextSlot (i : Nat) : Nat := if i = fileBufferNum - 1 then 0 else i + 1

/-- What one pass of the polling loop of `SaveFileToBuf` decides: store in a slot and return 1,
return 0, or test the clock and sleep. -/
inductive Poll
  | store (i : Nat)
  | fail
  | again
deriving DecidableEq, Repr

/-- One pass of the polling loop of `SaveFileToBuf`. From packet 40 on it looks for the slot of the
packet before, in whatever state that slot is. -/
def pollSlot (fb : FileBufs) (iSeq : Nat) : Poll :=
  if iSeq < fileBufferNum then
    if (fb iSeq).state = .init then .store iSeq else .fail
  else
    match (List.range fileBufferNum).find? fun i =>
        (fb i).seq == iSeq - 1 && (fb (nextSlot i)).state == .downloadOk with
    | some i => .store (nextSlot i)
    | none => .again

/-- One pass of the loop of `GetFileIndexFromBuf`. -/
def getFileIndex (fb : FileBufs) (iSeq : Nat) : Option Nat :=
  (List.range fileBufferNum).find? fun i => (fb i).state == .receiveOk && (fb i).seq == iSeq

/-! ### Slots -/

section
variable {fb : FileBufs} {i j k s : Nat} {b : FileBuf} {l : List UInt8}

@[simp] theorem FileBufs.set_self : fb.set i b i = b := if_pos rfl

theorem FileBufs.set_of_ne (h : j ≠ i) : fb.set i b j = fb j := if_neg h

@[simp] theorem FileBuf.padZero_seq : b.padZero.seq = b.seq := by unfold padZero; split <;> rfl

@[simp] theorem FileBuf.padZero_dataLen : b.padZero.dataLen = b.dataLen := by
  unfold padZero; split <;> rfl

@[simp] theorem FileBuf.padZero_state : b.padZero.state = b.state := by unfold padZero; split <;> rfl

theorem FileBuf.zeroRest_payload : b.zeroRest.payload = b.payload :=
  Mem.read_write_of_disjoint (.inl (Nat.le_of_eq (Nat.zero_add _)))

@[simp] theorem FileBuf.padZero_payload : b.padZero.payload = b.payload := by
  rw [padZero]
  split
  · exact zeroRest_payload
  · rfl

theorem FileBufs.zeroByte_of_ne (h : j ≠ i) : fb.zeroByte i k j = fb j := set_of_ne h

theorem FileBufs.zeroByte_eq (fb : FileBufs) (i k j : Nat) :
    fb.zeroByte i k j = { fb j with data := (fb.zeroByte i k j).data } := by
  by_cases hj : j = i
  · rw [hj, zeroByte, set_self]
  · rw [zeroByte_of_ne hj]

@[simp] theorem FileBufs.zeroByte_seq : (fb.zeroByte i k j).seq = (fb j).seq := by rw [zeroByte_eq]

@[simp] theorem FileBufs.zeroByte_dataLen : (fb.zeroByte i k j).dataLen = (fb j).dataLen := by rw [zeroByte_eq]

@[simp] theorem FileBufs.zeroByte_state : (fb.zeroByte i k j).state = (fb j).state := by rw [zeroByte_eq]

/-- The `memset` leaves the payload alone when it writes behind it. -/
theorem FileBufs.zeroByte_payload (h : (fb i).dataLen ≤ k) : (fb.zeroByte i k j).payload = (fb j).payload := by
  by_cases hj : j = i
  · rw [hj, zeroByte, set_self]
    exact Mem.read_write_of_disjoint (.inl (by rwa [Nat.zero_add]))
  · rw [zeroByte_of_ne hj]

theorem FileBufs.pad_eq (fb : FileBufs) (i j : Nat) : fb.pad i j = fb j ∨ fb.pad i j = (fb j).padZero := by
  by_cases hj : j = i
  · subst hj; exact .inr set_self
  · exact .inl (set_of_ne hj)

@[simp] theorem FileBufs.pad_seq : (fb.pad i j).seq = (fb j).seq := by
  rcases fb.pad_eq i j with h | h <;> rw [h]
  exact FileBuf.padZero_seq

@[simp] theorem FileBufs.pad_state : (fb.pad i j).state = (fb j).state := by
  rcases fb.pad_eq i j with h | h <;> rw [h]
  exact FileBuf.padZero_state

@[simp] theorem FileBufs.pad_payload : (fb.pad i j).payload = (fb j).payload := by
  rcases fb.pad_eq i j with h | h <;> rw [h]
  exact FileBuf.padZero_payload

theorem FileBufs.release_of_ne (h : j ≠ i) : fb.release i j = fb j := set_of_ne h

theorem FileBufs.release_eq (fb : FileBufs) (i j : Nat) :
    fb.release i j = { fb j with state := (fb.release i j).state } := by
  by_cases hj : j = i
  · subst hj; rw [release, set_self]
  · rw [release_of_ne hj]

@[simp] theorem FileBufs.release_seq : (fb.release i j).seq = (fb j).seq := by rw [release_eq]

@[simp] theorem FileBufs.release_dataLen : (fb.release i j).dataLen = (fb j).dataLen := by rw [release_eq]

@[simp] theorem FileBufs.release_payload : (fb.release i j).payload = (fb j).payload := by
  rw [release_eq]; rfl

@[simp] theorem FileBufs.release_state_self : (fb.release i i).state = .downloadOk := by
  rw [release, set_self]

theorem FileBufs.release_state_init (h : (fb i).state ≠ .init) :
    (fb.release i j).state = .init ↔ (fb j).state = .init := by
  by_cases hj : j = i
  · rw [hj, release_state_self]; exact ⟨(by rintro ⟨⟩), fun h' => absurd h' h⟩
  · rw [release_of_ne hj]

theorem FileBufs.store_payload : (fb.store i s l i).payload = l := by
  simp [store, FileBuf.payload]

theorem nextSlot_mod (h : i < fileBufferNum) : nextSlot i = (i + 1) % fileBufferNum := by
  unfold nextSlot fileBufferNum at *; split <;> omega

theorem alreadySaved_eq_false :
    alreadySaved fb s = false ↔ ∀ i, i < fileBufferNum → (fb i).state ≠ .init → (fb i).seq ≠ s := by
  simp only [alreadySaved, List.any_eq_false, List.mem_range, Bool.and_eq_true, beq_iff_eq,
    bne_iff_ne, not_and]
  exact forall_congr' fun i => forall_congr' fun _ =>
    ⟨fun h hs he => h he hs, fun h he hs => h hs he⟩

theorem alreadySaved_congr {fb' : FileBufs} (hseq : ∀ i, (fb' i).seq = (fb i).seq)
    (hu : ∀ i, i < fileBufferNum → (fb' i).state ≠ .init → (fb i).state ≠ .init)
    (hs : alreadySaved fb s = false) : alreadySaved fb' s = false := by
  rw [alreadySaved_eq_false] at hs ⊢
  intro i hi hne
  rw [hseq]; exact hs i hi (hu i hi hne)

theorem alreadySaved_eq_true :
    alreadySaved fb s = true ↔ ∃ i, i < fileBufferNum ∧ (fb i).seq = s ∧ (fb i).state ≠ .init := by
  simp [alreadySaved]

theorem pollSlot_store (h : pollSlot fb s = .store i) :
    (s < fileBufferNum ∧ i = s ∧ (fb i).state = .init) ∨
    (fileBufferNum ≤ s ∧ ∃ p, p < fileBufferNum ∧ (fb p).seq = s - 1 ∧ i = nextSlot p ∧
      (fb i).state = .downloadOk) := by
  unfold pollSlot at h
  split at h
  · next hs =>
    split at h
    · next hi => cases h; exact .inl ⟨hs, rfl, hi⟩
    · cases h
  · next hs =>
    split at h
    · next p hp =>
      cases h
      have hmem := List.mem_of_find?_eq_some hp
      have hp := List.find?_some hp
      simp only [Bool.and_eq_true, beq_iff_eq] at hp
      exact .inr ⟨Nat.le_of_not_lt hs, p, List.mem_range.1 hmem, hp.1, rfl, hp.2⟩
    · cases h

theorem getFileIndex_some (h : getFileIndex fb s = some i) :
    i < fileBufferNum ∧ (fb i).state = .receiveOk ∧ (fb i).seq = s := by
  have hmem := List.mem_of_find?_eq_some h
  have h := List.find?_some h
  simp only [Bool.and_eq_true, beq_iff_eq] at h
  exact ⟨List.mem_range.1 hmem, h⟩

end

end Bootloader
