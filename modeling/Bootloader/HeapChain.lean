import Bootloader.Heap

/-!
# The chain of headers in the heap

`Closed m base p q bs`: from offset `p` on the headers describe the blocks `bs`, the first of them knows `q` as the
block before it, and the end entry stands behind the last. One lemma for each way the allocator edits it: a header
is rewritten, a block learns its new neighbour, a block takes in the one behind it, a block is split.
-/

namespace Bootloader.Heap

open Tile

variable {m m' : Mem} {base p q w : Nat} {b : Tile} {l r bs : List Tile}

/-- `m'` is `m` but for the header at `p`. -/
def Outside (m m' : Mem) (p : Nat) : Prop := ∀ x, x < p ∨ p + 12 ≤ x → m' x = m x

theorem hdr_congr (h : ∀ x, p ≤ x → x < p + 12 → m' x = m x) : hdr m' p = hdr m p := by
  simp only [hdr, HeapMem.mk.injEq]
  refine ⟨?_, ?_, ?_, ?_⟩
  · exact Mem.word_congr fun x h₁ h₂ => h x (by omega) (by omega)
  · exact Mem.word_congr fun x h₁ h₂ => h x (by omega) (by omega)
  · exact Mem.word_congr fun x h₁ h₂ => h x (by omega) (by omega)
  · exact Mem.word_congr fun x h₁ h₂ => h x (by omega) (by omega)

theorem Outside.hdr_eq (h : Outside m m' p) (hd : w + 12 ≤ p ∨ p + 12 ≤ w) : hdr m' w = hdr m w :=
  hdr_congr fun x h₁ h₂ => h x (by omega)

theorem outside_setWord {k n v : Nat} (hk : k + n ≤ 12) : Outside m (m.setWord (p + k) n v) p := by
  rintro x (hx | hx)
  · exact Mem.setWord_of_lt (by omega)
  · exact Mem.setWord_of_ge (by omega)

/-! ### Writing the fields of a header -/

section
variable {h : Heap} {v : Nat}

theorem setMagic_outside : Outside h.mem (h.setMagic p v).mem p := outside_setWord (k := 0) (by omega)
theorem setUsed_outside : Outside h.mem (h.setUsed p v).mem p := outside_setWord (by omega)
theorem setNext_outside : Outside h.mem (h.setNext p v).mem p := outside_setWord (by omega)
theorem setPrev_outside : Outside h.mem (h.setPrev p v).mem p := outside_setWord (by omega)

theorem get_setMagic (hv : v < 2 ^ 16) : (h.setMagic p v).get p = { h.get p with magic := v } := by
  simp only [get, hdr, setMagic, HeapMem.mk.injEq]
  exact ⟨Mem.word_setWord (by omega), Mem.word_setWord_of_disjoint (by omega),
    Mem.word_setWord_of_disjoint (by omega), Mem.word_setWord_of_disjoint (by omega)⟩

theorem get_setUsed (hv : v < 2 ^ 16) : (h.setUsed p v).get p = { h.get p with used := v } := by
  simp only [get, hdr, setUsed, HeapMem.mk.injEq]
  exact ⟨Mem.word_setWord_of_disjoint (by omega), Mem.word_setWord (by omega),
    Mem.word_setWord_of_disjoint (by omega), Mem.word_setWord_of_disjoint (by omega)⟩

theorem get_setNext (hv : v < 2 ^ 32) : (h.setNext p v).get p = { h.get p with next := v } := by
  simp only [get, hdr, setNext, HeapMem.mk.injEq]
  exact ⟨Mem.word_setWord_of_disjoint (by omega), Mem.word_setWord_of_disjoint (by omega),
    Mem.word_setWord (by omega), Mem.word_setWord_of_disjoint (by omega)⟩

theorem get_setPrev (hv : v < 2 ^ 32) : (h.setPrev p v).get p = { h.get p with prev := v } := by
  simp only [get, hdr, setPrev, HeapMem.mk.injEq]
  exact ⟨Mem.word_setWord_of_disjoint (by omega), Mem.word_setWord_of_disjoint (by omega),
    Mem.word_setWord_of_disjoint (by omega), Mem.word_setWord (by omega)⟩

theorem get_setMagic_ne (hd : w + 12 ≤ p ∨ p + 12 ≤ w) : (h.setMagic p v).get w = h.get w :=
  setMagic_outside.hdr_eq hd

theorem get_setUsed_ne (hd : w + 12 ≤ p ∨ p + 12 ≤ w) : (h.setUsed p v).get w = h.get w :=
  setUsed_outside.hdr_eq hd

theorem get_setNext_ne (hd : w + 12 ≤ p ∨ p + 12 ≤ w) : (h.setNext p v).get w = h.get w :=
  setNext_outside.hdr_eq hd

theorem get_setPrev_ne (hd : w + 12 ≤ p ∨ p + 12 ≤ w) : (h.setPrev p v).get w = h.get w :=
  setPrev_outside.hdr_eq hd

end

/-! ### The chain -/

/-- The header of a block at offset `p` behind the block at offset `q`. -/
def header (b : Tile) (p q : Nat) : HeapMem := ⟨heapMagic, if b.used then 1 else 0, p + b.size, q⟩

/-- The headers of `bs` alone. -/
def Links (m : Mem) (base : Nat) : Nat → Nat → List Tile → Prop
  | _, _, [] => True
  | p, q, b :: bs => hdr m (base + p) = header b p q ∧ Links m base (p + b.size) p bs

/-- The headers of `bs` and the end entry; nobody reads its `prev`. -/
def Closed (m : Mem) (base : Nat) : Nat → Nat → List Tile → Prop
  | p, _, [] => (hdr m (base + p)).used = 1 ∧ (hdr m (base + p)).next = p
  | p, q, b :: bs => hdr m (base + p) = header b p q ∧ Closed m base (p + b.size) p bs

/-- The start of the last block, `q` if there is none. -/
def lastStart : Nat → Nat → List Tile → Nat
  | _, q, [] => q
  | p, _, b :: bs => lastStart (p + b.size) p bs

theorem lastStart_append : lastStart p q (l ++ [b]) = p + total l := by
  induction l generalizing p q with
  | nil => rfl
  | cons c l ih => rw [List.cons_append, lastStart, ih, total_cons, Nat.add_assoc]

theorem closed_append :
    Closed m base p q (l ++ r) ↔ Links m base p q l ∧ Closed m base (p + total l) (lastStart p q l) r := by
  induction l generalizing p q with
  | nil => exact ⟨fun h => ⟨trivial, h⟩, fun h => h.2⟩
  | cons b l ih =>
    rw [List.cons_append, Closed, ih, Links, total_cons, Nat.add_assoc, lastStart, and_assoc]

/-- Every block has room for its header. -/
def Roomy (bs : List Tile) : Prop := ∀ b ∈ bs, sizeofStructMem ≤ b.size

theorem Links.congr (h : Links m base p q bs) (hr : Roomy bs)
    (hm : ∀ x, base + p ≤ x → x < base + (p + total bs) → m' x = m x) : Links m' base p q bs := by
  induction bs generalizing p q with
  | nil => trivial
  | cons b bs ih =>
    have hb : 16 ≤ b.size := hr b List.mem_cons_self
    rw [total_cons] at hm
    refine ⟨(hdr_congr fun x h₁ h₂ => hm x h₁ (by omega)).trans h.1,
      ih h.2 (fun c hc => hr c (List.mem_cons_of_mem b hc)) fun x h₁ h₂ => hm x (by omega) (by omega)⟩

theorem Closed.congr (h : Closed m base p q bs) (hr : Roomy bs)
    (hm : ∀ x, base + p ≤ x → x < base + (p + total bs) + 12 → m' x = m x) : Closed m' base p q bs := by
  induction bs generalizing p q with
  | nil =>
    have he : hdr m' (base + p) = hdr m (base + p) := hdr_congr fun x h₁ h₂ => hm x h₁ (by simpa using h₂)
    rw [Closed, he]
    exact h
  | cons b bs ih =>
    have hb : 16 ≤ b.size := hr b List.mem_cons_self
    rw [total_cons] at hm
    refine ⟨(hdr_congr fun x h₁ h₂ => hm x h₁ (by omega)).trans h.1,
      ih h.2 (fun c hc => hr c (List.mem_cons_of_mem b hc)) fun x h₁ h₂ => hm x (by omega) (by omega)⟩

/-- The first block, or the end entry, learns which block stands before it. -/
theorem Closed.relink {q' : Nat} (h : Closed m base p q bs) (hr : Roomy bs)
    (hm : ∀ x, base + p + 12 ≤ x → m' x = m x)
    (hp : hdr m' (base + p) = { hdr m (base + p) with prev := q' }) : Closed m' base p q' bs := by
  cases bs with
  | nil =>
    rw [Closed, hp]
    exact h
  | cons b bs =>
    have hb : 16 ≤ b.size := hr b List.mem_cons_self
    refine ⟨by rw [hp, h.1]; rfl, h.2.congr (fun c hc => hr c (List.mem_cons_of_mem b hc)) fun x h₁ _ => ?_⟩
    exact hm x (by omega)

/-- The end entry does not care which block stands before it. -/
theorem Closed.prev_nil {q' : Nat} (h : Closed m base p q []) : Closed m base p q' [] := h

/-- A new header for a block, the rest as it was. -/
theorem Closed.rewrite (b' : Tile) (h : Closed m base p q (l ++ b :: r)) (hr : Roomy (l ++ b :: r))
    (ho : Outside m m' (base + (p + total l))) (hs : b'.size = b.size)
    (hh : hdr m' (base + (p + total l)) = header b' (p + total l) (lastStart p q l)) :
    Closed m' base p q (l ++ b' :: r) := by
  obtain ⟨hl, hb, hc⟩ := closed_append.1 h
  have hsize : 16 ≤ b.size := hr b (by simp)
  refine closed_append.2 ⟨hl.congr (fun c hc => hr c (by simp [hc])) fun x _ h₂ => ho x (.inl h₂), hh, ?_⟩
  rw [hs]
  exact hc.congr (fun c hc => hr c (by simp [hc])) fun x h₁ _ => ho x (.inr (by omega))

theorem Closed.hdr_eq (h : Closed m base p q (l ++ b :: r)) :
    hdr m (base + (p + total l)) = header b (p + total l) (lastStart p q l) := (closed_append.1 h).2.1

/-! ### What the headers say about the place behind a prefix -/

section
variable {h : Heap} {m : Mem}

end

/-! ### The bytes of the used blocks -/

/-- `m'` has the bytes of `m` behind the headers of the used blocks `us`. -/
def SameData (m m' : Mem) (base : Nat) (us : List (Nat × Nat)) : Prop :=
  ∀ o s, (o, s) ∈ us → ∀ x, base + o + 12 ≤ x → x < base + o + s → m' x = m x

theorem SameData.trans {m'' : Mem} {us : List (Nat × Nat)} (h : SameData m m' base us)
    (h' : SameData m' m'' base us) : SameData m m'' base us :=
  fun o s hu x h₁ h₂ => (h' o s hu x h₁ h₂).trans (h o s hu x h₁ h₂)

theorem SameData.refl {us : List (Nat × Nat)} : SameData m m base us := fun _ _ _ _ _ _ => rfl

/-- A header between two blocks is written: no data changes. -/
theorem Outside.sameData (ho : Outside m m' (base + w)) (hw : Boundary bs w) :
    SameData m m' base (usedFrom 0 bs) := by
  intro o s hu x h₁ h₂
  obtain h | h := hw.outside hu
  · exact ho x (.inl (by omega))
  · exact ho x (.inr (by omega))

end Bootloader.Heap
