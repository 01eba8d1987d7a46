import Bootloader.Lib.Transition
import Bootloader.HeapOps

/-!
# The heap as a store of separate blocks

What the callers of the heap rely on: a live block keeps its bytes whatever is allocated, freed, resized or written
elsewhere. `HeapUse` is the heap with the blocks its callers hold and what they know of their contents; callers pass
only live blocks to `rt_free` and `rt_realloc` and write only into them.
-/

namespace Bootloader

open Heap Tile

structure HeapUse where
  heap : Heap
  /-- The contents of the live blocks. -/
  live : Nat → Option (List UInt8)

inductive HeapAct
  | malloc (size : Nat)
  | calloc (count size : Nat)
  | realloc (p newsize : Nat)
  | free (p : Nat)
  /-- The owner of the block writes byte `i` of it. -/
  | store (p i : Nat) (v : UInt8)
deriving DecidableEq, Repr

def HeapAct.isRealloc : HeapAct → Bool
  | .realloc _ _ => true
  | _ => false

namespace HeapUse

/-- Sizes above this are rounded to 0. -/
def maxSize : Nat := 2 ^ 32 - 8

/-- The bytes of a resized block: those it had, then whatever the memory holds. -/
def resized (h : Heap) (q newsize : Nat) (l : List UInt8) : List UInt8 :=
  l.take newsize ++ h.mem.read (q + min newsize l.length) (newsize - l.length)

def step : HeapAct → HeapUse → Option HeapUse
  | .malloc size, s => do
    if maxSize < size then none
    else
      let (p, h) ← s.heap.rtMallocEx size
      some ⟨h, if p = 0 then s.live else Function.update s.live p (some (h.mem.read p size))⟩
  | .calloc count size, s => do
    if maxSize < count * size then none
    else
      let (p, h) ← s.heap.rtCalloc count size
      some ⟨h, if p = 0 then s.live else Function.update s.live p (some (List.replicate (count * size) 0))⟩
  | .realloc p newsize, s => do
    let l ← s.live p
    if maxSize < newsize then none
    else
      let (q, h) ← s.heap.rtRealloc p newsize
      some ⟨h, if q = 0 then s.live
        else Function.update (Function.update s.live p none) q (some (resized h q newsize l))⟩
  | .free p, s => do
    let _ ← s.live p
    let h ← s.heap.rtFree p
    some ⟨h, Function.update s.live p none⟩
  | .store p i v, s => do
    let l ← s.live p
    if i < l.length then
      some ⟨{ s.heap with mem := s.heap.mem.write (p + i) [v] }, Function.update s.live p (some (l.set i v))⟩
    else none

/-- The heap between `beginAddr` and `endAddr` from `rt_system_heap_init` on. -/
def lts (beginAddr endAddr : Nat) : Lts HeapUse HeapAct where
  init s := (∃ m, rtSystemHeapInit m beginAddr endAddr = some s.heap) ∧ ∀ p, s.live p = none
  step := step

end HeapUse

namespace Heap

variable {h h' : Heap} {live : Nat → Option (List UInt8)} {bs bs' : List Tile} {low : Prop} {p q size : Nat}
  {l l' : List UInt8}

/-- The live blocks are the used blocks of the heap, and the memory has their contents. -/
structure Holds (low : Prop) (h : Heap) (live : Nat → Option (List UInt8)) (bs : List Tile) : Prop where
  inv : Inv low h bs
  known : ∀ o k, (o, k) ∈ usedFrom 0 bs → (live (h.heapPtr + o + 16)).isSome
  block : ∀ p l, live p = some l → ∃ o k, (o, k) ∈ usedFrom 0 bs ∧ p = h.heapPtr + o + 16 ∧ l.length + 16 ≤ k ∧
    h.mem.read p l.length = l

theorem SameData.read_eq {m m' : Mem} {base o k n : Nat} {us : List (Nat × Nat)} (hd : SameData m m' base us)
    (hu : (o, k) ∈ us) (hn : n + 16 ≤ k) : m'.read (base + o + 16) n = m.read (base + o + 16) n :=
  Mem.read_congr fun x h₁ h₂ => hd o k hu x (by omega) (by omega)

theorem Shape.used_size {o s : Nat} (hs : Shape h bs) (hu : (o, s) ∈ usedFrom 0 bs) : 16 ≤ s := by
  obtain ⟨l, r, rfl, -⟩ := mem_usedFrom_iff.1 hu
  exact hs.room

/-- A function that replaces the used blocks `old` by `new`, both at the start `o` if at all. -/
theorem Holds.replace {low' : Prop} {A B : List (Nat × Nat)} (old new : List (Nat × Nat)) {o : Nat}
    {v : Option (List UInt8)}
    (H : Holds low h live bs) (hu : usedFrom 0 bs = A ++ (old ++ B)) (hb : Becomes low' h h' bs' (A ++ (new ++ B)))
    (hold : ∀ x ∈ old, x.1 = o) (hne : ∀ x ∈ A ++ B, x.1 ≠ o)
    (hnew : new = [] ∧ v = none ∨ ∃ s l, new = [(o, s)] ∧ v = some l ∧ l.length + 16 ≤ s ∧
      h'.mem.read (h.heapPtr + o + 16) l.length = l) :
    Holds low' h' (Function.update live (h.heapPtr + o + 16) v) bs' := by
  have hmem {x : Nat × Nat} : x ∈ usedFrom 0 bs ↔ x ∈ old ∨ x ∈ A ++ B := by
    rw [hu, List.mem_append, List.mem_append, List.mem_append]
    exact or_left_comm
  have hmem' {x : Nat × Nat} : x ∈ usedFrom 0 bs' ↔ x ∈ new ∨ x ∈ A ++ B := by
    rw [hb.used, List.mem_append, List.mem_append, List.mem_append]
    exact or_left_comm
  refine ⟨hb.inv, ?_, ?_⟩
  · intro o' k hx
    rw [hb.heapPtr]
    obtain hx | hx := hmem'.1 hx
    · obtain ⟨rfl, -⟩ | ⟨s, l, rfl, rfl, -⟩ := hnew
      · exact absurd hx List.not_mem_nil
      · obtain ⟨rfl, rfl⟩ := Prod.mk.inj (List.mem_singleton.1 hx)
        rw [Function.update_self]
        rfl
    · have := hne _ hx
      rw [Function.update_of_ne (by simp only at this; omega)]
      exact H.known o' k (hmem.2 (.inr hx))
  · intro p l hp
    rw [hb.heapPtr]
    by_cases hpo : p = h.heapPtr + o + 16
    · subst hpo
      rw [Function.update_self] at hp
      obtain ⟨-, rfl⟩ | ⟨s, l', rfl, rfl, hl, hr⟩ := hnew
      · exact absurd hp (by rintro ⟨⟩)
      · cases hp
        exact ⟨o, s, hmem'.2 (.inl List.mem_cons_self), rfl, hl, hr⟩
    · rw [Function.update_of_ne hpo] at hp
      obtain ⟨o', k, hx, rfl, hk, hr⟩ := H.block p l hp
      obtain hx | hx := hmem.1 hx
      · exact absurd (by rw [← hold _ hx]) hpo
      · refine ⟨o', k, hmem'.2 (.inr hx), rfl, hk, (hb.data.read_eq ?_ hk).trans hr⟩
        rw [← hb.used]
        exact hmem'.2 (.inr hx)

/-- The other used blocks start elsewhere. -/
theorem Shape.others_ne {A B : List (Nat × Nat)} {o s : Nat} (hs : Shape h bs)
    (hu : usedFrom 0 bs = A ++ (o, s) :: B) : ∀ x ∈ A ++ B, x.1 ≠ o := by
  have hmem {x : Nat × Nat} (hx : x = (o, s) ∨ x ∈ A ++ B) : x ∈ usedFrom 0 bs := by
    rw [hu, List.mem_append, List.mem_cons]
    rw [List.mem_append] at hx
    exact or_left_comm.1 hx
  intro x hx
  have h₁ := hs.used_size (hmem (.inl rfl))
  have h₂ := hs.used_size (o := x.1) (s := x.2) (hmem (.inr hx))
  exact start_ne hu (by omega) hx (by omega)

theorem Holds.add {A B : List (Nat × Nat)} {o s : Nat} (H : Holds low h live bs) (hu : usedFrom 0 bs = A ++ B)
    (hb : Becomes low h h' bs' (A ++ (o, s) :: B)) (hl : l.length + 16 ≤ s)
    (hm : h'.mem.read (h.heapPtr + o + 16) l.length = l) :
    Holds low h' (Function.update live (h.heapPtr + o + 16) (some l)) bs' :=
  H.replace [] [(o, s)] hu hb (fun _ hx => absurd hx List.not_mem_nil)
    (hb.inv.shape.others_ne hb.used) (.inr ⟨s, l, rfl, rfl, hl, hm⟩)

/-- A new block was not live. -/
theorem Holds.fresh {A B : List (Nat × Nat)} {o s : Nat} (H : Holds low h live bs) (hu : usedFrom 0 bs = A ++ B)
    (hb : Becomes low h h' bs' (A ++ (o, s) :: B)) : live (h.heapPtr + o + 16) = none := by
  cases hlive : live (h.heapPtr + o + 16) with
  | none => rfl
  | some l' =>
    obtain ⟨o', k, hx, he, -⟩ := H.block _ l' hlive
    rw [hu] at hx
    exact absurd (by simp only; omega) (hb.inv.shape.others_ne hb.used _ hx)

theorem Holds.remove {A B : List (Nat × Nat)} {o s : Nat} (H : Holds low h live bs)
    (hu : usedFrom 0 bs = A ++ (o, s) :: B) (hb : Becomes low h h' bs' (A ++ B)) :
    Holds low h' (Function.update live (h.heapPtr + o + 16) none) bs' :=
  H.replace [(o, s)] [] hu hb (fun x hx => by rw [List.mem_singleton.1 hx])
    (H.inv.shape.others_ne hu) (.inl ⟨rfl, rfl⟩)

theorem Holds.resize {A B : List (Nat × Nat)} {o s s' : Nat} (H : Holds low h live bs)
    (hu : usedFrom 0 bs = A ++ (o, s) :: B) (hb : Becomes False h h' bs' (A ++ (o, s') :: B)) (hl : l.length + 16 ≤ s')
    (hm : h'.mem.read (h.heapPtr + o + 16) l.length = l) :
    Holds False h' (Function.update live (h.heapPtr + o + 16) (some l)) bs' :=
  H.replace [(o, s)] [(o, s')] hu hb (fun x hx => by rw [List.mem_singleton.1 hx])
    (H.inv.shape.others_ne hu) (.inr ⟨s', l, rfl, rfl, hl, hm⟩)

/-- The data of a live block is written, or less of it is looked at. -/
theorem Holds.write {o k : Nat} (H : Holds low h live bs) (m' : Mem) (hu : (o, k) ∈ usedFrom 0 bs)
    (hm : ∀ x, x < h.heapPtr + o + 16 ∨ h.heapPtr + o + k ≤ x → m' x = h.mem x) (hl : l.length + 16 ≤ k)
    (hr : m'.read (h.heapPtr + o + 16) l.length = l) :
    Holds low { h with mem := m' } (Function.update live (h.heapPtr + o + 16) (some l)) bs := by
  refine ⟨H.inv.write_data hu hm, ?_, ?_⟩
  · intro o' k' hx
    by_cases hpo : h.heapPtr + o' + 16 = h.heapPtr + o + 16
    · change (Function.update live _ _ (h.heapPtr + o' + 16)).isSome = true
      rw [hpo, Function.update_self]
      rfl
    · change (Function.update live _ _ (h.heapPtr + o' + 16)).isSome = true
      rw [Function.update_of_ne hpo]
      exact H.known o' k' hx
  · intro p l' hp
    by_cases hpo : p = h.heapPtr + o + 16
    · subst hpo
      rw [Function.update_self, Option.some.injEq] at hp
      subst hp
      exact ⟨o, k, hu, rfl, hl, hr⟩
    · rw [Function.update_of_ne hpo] at hp
      obtain ⟨o', k', hx, rfl, hk, hr'⟩ := H.block p l' hp
      refine ⟨o', k', hx, rfl, hk, (Mem.read_congr fun x h₁ h₂ => hm x ?_).trans hr'⟩
      -- the bytes of another used block
      obtain hd | hd := disjoint_of_mem hx hu (by omega)
      · exact .inl (by omega)
      · exact .inr (by omega)

/-! ### The functions on live blocks -/

theorem le_rtAlign (hs : size ≤ HeapUse.maxSize) : size ≤ rtAlign size := by
  rw [HeapUse.maxSize] at hs
  rw [rtAlign, add32_eq (by omega)]
  omega

theorem rtAlign_rtAlign (hs : size ≤ HeapUse.maxSize) : rtAlign (rtAlign size) = rtAlign size := by
  rw [HeapUse.maxSize] at hs
  rw [rtAlign, rtAlign, add32_eq (b := 7) (a := size) (by omega), add32_eq (by omega)]
  omega

/-- The heap lies where it was. -/
def SameRegion (h h' : Heap) : Prop := h'.heapPtr = h.heapPtr ∧ h'.memSizeAligned = h.memSizeAligned

theorem SameRegion.trans {h'' : Heap} (hs : SameRegion h h') (hs' : SameRegion h' h'') : SameRegion h h'' :=
  ⟨hs'.1.trans hs.1, hs'.2.trans hs.2⟩

theorem Becomes.sameRegion {us' : List (Nat × Nat)} (hb : Becomes low h h' bs' us') : SameRegion h h' :=
  ⟨hb.heapPtr, hb.memSizeAligned⟩

/-- `rt_malloc` gives a block that was not live, or `RT_NULL` and nothing changes. -/
theorem Holds.malloc (H : Holds low h live bs) (h0 : size ≠ 0) (hsize : rtAlign size ≤ h.memSizeAligned) :
    h.rtMallocEx size = some (0, h) ∨
      ∃ h' bs' o s, h.rtMallocEx size = some (h.heapPtr + o + 16, h') ∧ SameRegion h h' ∧
        (o, s) ∈ usedFrom 0 bs' ∧ granted size + 16 ≤ s ∧ live (h.heapPtr + o + 16) = none ∧
        (∀ x ∈ usedFrom 0 bs, x ∈ usedFrom 0 bs') ∧
        ∀ n, n + 16 ≤ s →
          Holds low h' (Function.update live (h.heapPtr + o + 16) (some (h'.mem.read (h.heapPtr + o + 16) n))) bs' := by
  obtain ⟨l, r, -, -, ⟨he, -⟩ | ⟨l', b, r', -, -, -, h', bs', s, A, B, he, hu, hs, hb⟩⟩ :=
    rtMallocEx_spec H.inv h0 hsize
  · exact .inl he
  · refine .inr ⟨h', bs', _, s, he, hb.sameRegion, ?_, hs, H.fresh hu hb, ?_, fun n hn => H.add hu hb ?_ ?_⟩
    · rw [hb.used]
      exact List.mem_append_right _ List.mem_cons_self
    · intro x hx
      rw [hu, List.mem_append] at hx
      rw [hb.used, List.mem_append, List.mem_cons]
      tauto
    · rwa [Mem.length_read]
    · rw [Mem.length_read]

/-- `rt_free` returns for a live block, and the others stay. -/
theorem Holds.free (H : Holds low h live bs) (hp : live p = some l) :
    ∃ h' bs', h.rtFree p = some h' ∧ SameRegion h h' ∧ Holds low h' (Function.update live p none) bs' := by
  obtain ⟨o, k, hu, rfl, -⟩ := H.block p l hp
  obtain ⟨h', bs', A, B, he, hu', hb⟩ := rtFree_spec H.inv hu
  exact ⟨h', bs', he, hb.sameRegion, H.remove hu' hb⟩

theorem read_min {m : Mem} (hr : m.read p l.length = l) (n : Nat) : m.read p (min n l.length) = l.take n := by
  have ht := Mem.take_read (m := m) (a := p) (Nat.min_le_right n l.length)
  rw [hr] at ht
  rw [← ht, ← List.take_take, List.take_length]

/-- What a resized block holds is what the memory has, if that starts with the old contents. -/
theorem resized_eq {newsize : Nat} (hr : h.mem.read p (min newsize l.length) = l.take newsize) :
    HeapUse.resized h p newsize l = h.mem.read p newsize := by
  have hsum : newsize = min newsize l.length + (newsize - l.length) := by omega
  rw [HeapUse.resized, ← hr, ← Mem.read_add, ← hsum]

/-- The owner looks at `n` bytes of its block. -/
theorem Holds.look {o k n : Nat} (H : Holds low h live bs) (hu : (o, k) ∈ usedFrom 0 bs) (hn : n + 16 ≤ k) :
    Holds low h (Function.update live (h.heapPtr + o + 16) (some (h.mem.read (h.heapPtr + o + 16) n))) bs :=
  H.write h.mem hu (fun _ _ => rfl) (by rwa [Mem.length_read]) (by rw [Mem.length_read])

/-- The contents go to a new block and the old one is freed. -/
theorem Holds.move {o₁ s₁ c : Nat} {x : Option (List UInt8)} (newsize : Nat) (hq : q = h.heapPtr + o₁ + 16)
    (H : Holds low h (Function.update live q x) bs) (hu : (o₁, s₁) ∈ usedFrom 0 bs) (hc : c + 16 ≤ s₁)
    (hn : newsize + 16 ≤ s₁) (hmin : min newsize l.length ≤ c) (hp : live p = some l) (hne : p ≠ q) :
    ∃ h' bs', ({ h with mem := h.mem.write q (h.mem.read p c) } : Heap).rtFree p = some h' ∧
      SameRegion h h' ∧ Holds low h' (Function.update (Function.update live p none) q
        (some (HeapUse.resized h' q newsize l))) bs' := by
  subst hq
  set q := h.heapPtr + o₁ + 16 with hq
  set d := h.mem.read p c with hd
  have hdc : d.length = c := Mem.length_read
  have H₂ : Holds low { h with mem := h.mem.write q d } _ bs :=
    H.write _ hu (l := (h.mem.write q d).read q newsize)
      (by
        rintro y (hy | hy)
        · exact Mem.write_of_lt (by omega)
        · exact Mem.write_of_ge (by omega))
      (by rwa [Mem.length_read]) (by rw [Mem.length_read])
  rw [Function.update_idem] at H₂
  have hp₂ : Function.update live q (some ((h.mem.write q d).read q newsize)) p = some l := by
    rw [Function.update_of_ne hne, hp]
  obtain ⟨h', bs', hf, hreg, H'⟩ := H₂.free hp₂
  rw [Function.update_comm hne.symm] at H'
  refine ⟨h', bs', hf, hreg, ?_⟩
  -- what is read is what was copied
  obtain ⟨-, -, -, -, -, hr'⟩ := H'.block q _ (Function.update_self ..)
  rw [Mem.length_read] at hr'
  have hr : h.mem.read p l.length = l := by
    obtain ⟨-, -, -, -, -, hr⟩ := H.block p l (by rw [Function.update_of_ne hne, hp])
    exact hr
  have hwr : (h.mem.write q d).read q c = d := by
    have := Mem.read_write (m := h.mem) (a := q) (l := d)
    rwa [hdc] at this
  have hcopy : h'.mem.read q (min newsize l.length) = l.take newsize := by
    rw [← Mem.take_read (Nat.min_le_left ..), hr', Mem.take_read (Nat.min_le_left ..), ← Mem.take_read hmin, hwr, hd,
      Mem.take_read hmin, read_min hr]
  rw [resized_eq hcopy, hr']
  exact H'

/-- `rt_realloc`: `RT_NULL` and nothing changes, or a block that starts with the old contents. With no bytes to keep
it does not return if the block has no room for a split. -/
theorem Holds.realloc {newsize : Nat} (H : Holds low h live bs) (hp : live p = some l)
    (hn : newsize ≤ HeapUse.maxSize) :
    newsize = 0 ∧ h.rtRealloc p newsize = none ∨
      ∃ q h', h.rtRealloc p newsize = some (q, h') ∧ (q = 0 ∧ h' = h ∨ q ≠ 0 ∧ SameRegion h h' ∧ ∃ bs', Holds False h'
        (Function.update (Function.update live p none) q (some (HeapUse.resized h' q newsize l))) bs') := by
  have hle := le_rtAlign hn
  have h8 : 8 ∣ rtAlign newsize := Nat.dvd_mul_left 8 _
  obtain ⟨o, k, hu, rfl, hk, hr⟩ := H.block p l hp
  have hin := H.inv.inside o k hu
  have hend := H.inv.shape.end_eq
  have hbound := H.inv.shape.bound
  have hok := end_le_of_mem hu
  have htot := H.inv.shape.total_eq
  rw [sizeofStructMem] at hend htot
  obtain ⟨pr, hget⟩ : ∃ pr, h.get (h.heapPtr + o) = header ⟨k, true⟩ o pr := by
    obtain ⟨a, b, rfl, rfl⟩ := mem_usedFrom_iff.1 hu
    rw [Nat.zero_add]
    exact ⟨_, H.inv.shape.get_eq⟩
  have hptr : sub32 (h.heapPtr + o) h.heapPtr = o := by
    rw [sub32_eq (by omega) (by omega), Nat.add_sub_cancel_left]
  have hsize : sub32 (sub32 (o + k) o) sizeofStructMem = k - 16 := by
    rw [sub32_eq (b := o) (by omega) (by omega), Nat.add_sub_cancel_left, sizeofStructMem,
      sub32_eq (by omega) (by omega)]
  have hsub : h.heapPtr + o + 16 - sizeofStructMem = h.heapPtr + o := Nat.add_sub_cancel ..
  have hread := read_min hr newsize
  have hp0 : h.heapPtr + o + 16 ≠ 0 := by omega
  rw [rtRealloc]
  simp only [hsub, hptr, hget, header, hsize]
  by_cases hms : rtAlign newsize > h.memSizeAligned
  · rw [if_pos hms]
    exact .inr ⟨0, h, rfl, .inl ⟨rfl, rfl⟩⟩
  rw [if_neg hms, if_neg hp0, if_neg (by omega)]
  by_cases hsame : k - 16 = rtAlign newsize
  · -- the block has the size already
    rw [if_pos hsame]
    refine .inr ⟨_, h, rfl, .inr ⟨hp0, ⟨rfl, rfl⟩, bs, ?_⟩⟩
    rw [Function.update_idem, resized_eq hread]
    have Hl := H.look hu (n := newsize) (by omega)
    exact ⟨Hl.inv.mono False.elim, Hl.known, Hl.block⟩
  rw [if_neg hsame]
  by_cases hfit : rtAlign newsize + sizeofStructMem + 12 < k - 16
  · -- it is split
    rw [if_pos hfit]
    rw [sizeofStructMem] at hfit
    obtain ⟨h', bs', A, B, hs, hu', hb⟩ := shrink_spec H.inv hu h8 (by omega)
    rw [hs]
    refine .inr ⟨_, h', rfl, .inr ⟨hp0, hb.sameRegion, bs', ?_⟩⟩
    have hmem : (o, 16 + rtAlign newsize) ∈ A ++ (o, 16 + rtAlign newsize) :: B := by simp
    have hr₁ : h'.mem.read (h.heapPtr + o + 16) (min newsize l.length) = l.take newsize :=
      (hb.data.read_eq hmem (by omega)).trans hread
    rw [Function.update_idem, resized_eq hr₁]
    exact H.resize hu' hb (by rw [Mem.length_read]; omega) (by rw [Mem.length_read])
  -- it moves
  rw [if_neg hfit]
  by_cases h0 : rtAlign newsize = 0
  · refine .inl ⟨by omega, ?_⟩
    rw [h0, rtMallocEx, rtAssert, if_neg (fun hc => hc rfl)]
    rfl
  obtain hm | ⟨h₁, bs₁, o₁, s₁, hm, hb₁, hu₁, hs₁, hnone, hsub₁, Hm⟩ :=
    H.malloc h0 (by rw [rtAlign_rtAlign hn]; omega)
  · rw [hm]
    exact .inr ⟨0, h, rfl, .inl ⟨rfl, rfl⟩⟩
  have hg := (granted_spec (rtAlign newsize)).2.1
  rw [rtAlign_rtAlign hn] at hg
  have hne : h.heapPtr + o + 16 ≠ h.heapPtr + o₁ + 16 := by
    intro hc
    rw [← hc, hp] at hnone
    exact absurd hnone (by rintro ⟨⟩)
  have Hn := Hm newsize (by omega)
  obtain ⟨h₃, bs₃, hf, hb₃, H₃⟩ := Hn.move newsize (by rw [hb₁.1]) hu₁
    (c := if k - 16 < rtAlign newsize then k - 16 else rtAlign newsize)
    (by split <;> omega) (by omega) (by split <;> omega) hp hne
  refine .inr ⟨h.heapPtr + o₁ + 16, h₃, ?_, .inr ⟨by omega, hb₁.trans hb₃, bs₃, H₃.inv.mono False.elim, H₃.known,
    H₃.block⟩⟩
  rw [hm]
  simp only [Option.bind_eq_bind, Option.bind_some]
  rw [if_pos (by omega), hf]
  rfl

/-- `rt_memset` of a new block. -/
theorem Holds.zero {h₀ : Heap} {o k n : Nat} {x : Option (List UInt8)} (hreg : SameRegion h₀ h)
    (H : Holds low h (Function.update live (h₀.heapPtr + o + 16) x) bs) (hu : (o, k) ∈ usedFrom 0 bs)
    (hn : n + 16 ≤ k) :
    Holds low { h with mem := h.mem.write (h₀.heapPtr + o + 16) (List.replicate n 0) }
      (Function.update live (h₀.heapPtr + o + 16) (some (List.replicate n 0))) bs := by
  rw [← hreg.1] at H ⊢
  have Hw := H.write (h.mem.write (h.heapPtr + o + 16) (List.replicate n 0)) hu (l := List.replicate n 0)
    (by
      rintro y (hy | hy)
      · exact Mem.write_of_lt hy
      · exact Mem.write_of_ge (by rw [List.length_replicate]; omega))
    (by rwa [List.length_replicate]) Mem.read_write
  rwa [Function.update_idem] at Hw

theorem read_set {m : Mem} {i : Nat} {v : UInt8} (hr : m.read p l.length = l) :
    (m.write (p + i) [v]).read p (l.set i v).length = l.set i v := by
  refine Mem.read_eq_iff.2 fun j hj => ?_
  rw [List.length_set] at hj
  rw [List.getElem_set]
  split
  · rename_i hij
    rw [← hij]
    exact Mem.write_self
  · rw [Mem.write_of_ne (by omega)]
    exact Mem.read_eq_iff.1 hr j hj

/-- The owner of a block writes a byte of it. -/
theorem Holds.store {i : Nat} (H : Holds low h live bs) (hp : live p = some l) (hi : i < l.length) (v : UInt8) :
    Holds low { h with mem := h.mem.write (p + i) [v] } (Function.update live p (some (l.set i v))) bs := by
  obtain ⟨o, k, hu, rfl, hk, hr⟩ := H.block p l hp
  refine H.write _ hu ?_ (by rwa [List.length_set]) (read_set hr)
  rintro y (hy | hy)
  · exact Mem.write_of_lt (by omega)
  · exact Mem.write_of_ge (by rw [List.length_singleton]; omega)

/-- A call with a size that `RT_ASSERT` lets through is the only one that returns. -/
theorem rtMallocEx_asserts {x : Nat × Heap} (he : h.rtMallocEx size = some x) :
    size ≠ 0 ∧ rtAlign size ≤ h.memSizeAligned := by
  rw [rtMallocEx] at he
  by_cases h0 : size ≠ 0
  · refine ⟨h0, ?_⟩
    by_contra hs
    rw [rtAssert_bind h0, rtAssert, if_neg hs] at he
    exact absurd he (by rintro ⟨⟩)
  · rw [rtAssert, if_neg h0] at he
    exact absurd he (by rintro ⟨⟩)

/-- One step keeps the store; without `rt_realloc` it keeps `lfree` the lowest free block. -/
theorem step_holds {a : HeapAct} {s s' : HeapUse} (H : Holds low s.heap s.live bs)
    (hlow : low → a.isRealloc = false) (hs : HeapUse.step a s = some s') :
    SameRegion s.heap s'.heap ∧ ∃ bs', Holds low s'.heap s'.live bs' := by
  cases a with
  | malloc size =>
    rw [HeapUse.step] at hs
    by_cases hn : HeapUse.maxSize < size
    · rw [if_pos hn] at hs
      exact absurd hs (by rintro ⟨⟩)
    · rw [if_neg hn] at hs
      obtain ⟨⟨p, h⟩, hm, hs⟩ := Option.bind_eq_some_iff.1 hs
      obtain ⟨h0, hle⟩ := rtMallocEx_asserts hm
      rw [Option.some.injEq] at hs
      subst hs
      obtain he | ⟨h', bs', o, k, he, hreg, hu, hk, -, -, Hm⟩ := H.malloc h0 hle
      · rw [hm] at he
        obtain ⟨rfl, rfl⟩ := Prod.mk.inj (Option.some.inj he)
        exact ⟨⟨rfl, rfl⟩, bs, H⟩
      · rw [hm] at he
        obtain ⟨rfl, rfl⟩ := Prod.mk.inj (Option.some.inj he)
        have hg := (granted_spec size).2.1
        have hl := le_rtAlign (Nat.le_of_not_lt hn)
        simp only
        rw [if_neg (by omega)]
        exact ⟨hreg, bs', Hm size (by omega)⟩
  | calloc count size =>
    rw [HeapUse.step] at hs
    by_cases hn : HeapUse.maxSize < count * size
    · rw [if_pos hn] at hs
      exact absurd hs (by rintro ⟨⟩)
    · rw [if_neg hn] at hs
      obtain ⟨⟨p, h⟩, hm, hs⟩ := Option.bind_eq_some_iff.1 hs
      rw [Option.some.injEq] at hs
      subst hs
      have hl := le_rtAlign (Nat.le_of_not_lt hn)
      have hmod : count * size % 2 ^ 32 = count * size := by
        rw [HeapUse.maxSize] at hn
        exact Nat.mod_eq_of_lt (by omega)
      rw [rtCalloc, hmod] at hm
      obtain ⟨⟨p₁, h₁⟩, hm₁, hm⟩ := Option.bind_eq_some_iff.1 hm
      obtain ⟨h0, hle⟩ := rtMallocEx_asserts hm₁
      obtain he | ⟨h', bs', o, k, he, hreg, hu, hk, -, -, Hm⟩ := H.malloc h0 hle
      · rw [hm₁] at he
        obtain ⟨rfl, rfl⟩ := Prod.mk.inj (Option.some.inj he)
        obtain ⟨rfl, rfl⟩ := Prod.mk.inj (Option.some.inj hm)
        exact ⟨⟨rfl, rfl⟩, bs, H⟩
      · rw [hm₁] at he
        obtain ⟨rfl, rfl⟩ := Prod.mk.inj (Option.some.inj he)
        have hg := (granted_spec (count * size)).2.1
        simp only at hm
        rw [if_pos (by omega)] at hm
        obtain ⟨rfl, rfl⟩ := Prod.mk.inj (Option.some.inj hm)
        simp only
        rw [if_neg (by omega)]
        have Hz := (Hm 0 (by omega)).zero hreg hu (n := count * size) (by omega)
        exact ⟨hreg, bs', Hz⟩
  | realloc p newsize =>
    have hlow' : low → False := fun h => Bool.false_ne_true (hlow h).symm
    rw [HeapUse.step] at hs
    obtain ⟨l, hp, hs⟩ := Option.bind_eq_some_iff.1 hs
    by_cases hn : HeapUse.maxSize < newsize
    · rw [if_pos hn] at hs
      exact absurd hs (by rintro ⟨⟩)
    · rw [if_neg hn] at hs
      obtain ⟨⟨q, h⟩, hm, hs⟩ := Option.bind_eq_some_iff.1 hs
      rw [Option.some.injEq] at hs
      subst hs
      obtain ⟨-, hnone⟩ | ⟨q', h', he, hres⟩ := H.realloc hp (Nat.le_of_not_lt hn)
      · rw [hnone] at hm
        exact absurd hm (by rintro ⟨⟩)
      rw [hm] at he
      obtain ⟨rfl, rfl⟩ := Prod.mk.inj (Option.some.inj he)
      obtain ⟨rfl, rfl⟩ | ⟨hq, hreg, bs', H'⟩ := hres
      · exact ⟨⟨rfl, rfl⟩, bs, H⟩
      · simp only
        rw [if_neg hq]
        exact ⟨hreg, bs', H'.inv.mono hlow', H'.known, H'.block⟩
  | free p =>
    rw [HeapUse.step] at hs
    obtain ⟨l, hp, hs⟩ := Option.bind_eq_some_iff.1 hs
    obtain ⟨h', bs', hf, hreg, H'⟩ := H.free hp
    rw [hf] at hs
    obtain rfl := Option.some.inj hs
    exact ⟨hreg, bs', H'⟩
  | store p i v =>
    rw [HeapUse.step] at hs
    obtain ⟨l, hp, hs⟩ := Option.bind_eq_some_iff.1 hs
    by_cases hi : i < l.length
    · rw [if_pos hi, Option.some.injEq] at hs
      subst hs
      exact ⟨⟨rfl, rfl⟩, bs, H.store hp hi v⟩
    · rw [if_neg hi] at hs
      exact absurd hs (by rintro ⟨⟩)

end Heap

namespace HeapUse

variable {beginAddr endAddr : Nat} {hist : List (HeapUse × HeapAct)} {s : HeapUse} {p : Nat} {l : List UInt8}

/-- The memory has room for a heap. -/
def Room (beginAddr endAddr : Nat) : Prop := endAddr < 2 ^ 32 ∧ rtAlign beginAddr + 48 ≤ rtAlignDown endAddr

/-- No block is resized. -/
def NoRealloc (_ : List (HeapUse × HeapAct)) (_ : HeapUse) (a : HeapAct) : Prop := a.isRealloc = false

instance {a : HeapAct} : Decidable (NoRealloc hist s a) := inferInstanceAs (Decidable (a.isRealloc = false))

theorem init_holds (hroom : Room beginAddr endAddr) (hi : (lts beginAddr endAddr).init s) :
    ∃ bs, Holds True s.heap s.live bs := by
  obtain ⟨⟨m, hm⟩, hnone⟩ := hi
  obtain ⟨hinv, -⟩ := rtSystemHeapInit_spec hroom.1 hroom.2 hm
  refine ⟨_, hinv, fun o k hu => ?_, fun p l hp => ?_⟩
  · rw [usedFrom_cons_free rfl] at hu
    exact absurd hu List.not_mem_nil
  · rw [hnone p] at hp
    exact absurd hp (by rintro ⟨⟩)

theorem run_holds (hroom : Room beginAddr endAddr) (hr : (lts beginAddr endAddr).Run hist s) :
    ∃ bs, Holds False s.heap s.live bs := by
  refine hr.inv' (I := fun _ s => ∃ bs, Holds False s.heap s.live bs) ?_ ?_
  · intro s hi
    obtain ⟨bs, H⟩ := init_holds hroom hi
    exact ⟨bs, H.inv.mono False.elim, H.known, H.block⟩
  · rintro _ s a s' ⟨bs, H⟩ hs
    exact (step_holds H False.elim hs).2

theorem run_holds_low (hroom : Room beginAddr endAddr) (hr : (lts beginAddr endAddr).Run hist s)
    (hg : Lts.Guarded NoRealloc hist) : ∃ bs, Holds True s.heap s.live bs := by
  refine hr.inv (C := NoRealloc) (I := fun _ s => ∃ bs, Holds True s.heap s.live bs) ?_ ?_ hg
  · exact fun s hi => init_holds hroom hi
  · rintro _ s a s' ⟨bs, H⟩ hc hs
    exact (step_holds H (fun _ => hc) hs).2

/-- A heap of 232 bytes. -/
def sample : HeapUse :=
  ⟨(rtSystemHeapInit (fun _ => 0) 0 264).getD ⟨fun _ => 0, 0, 0, 0, 0, 0, 0⟩, fun _ => none⟩

theorem room_sample : Room 0 264 := ⟨by decide, by decide⟩

theorem init_sample : (lts 0 264).init sample := ⟨⟨fun _ => 0, rfl⟩, fun _ => rfl⟩

/-- Whatever the callers do with the heap, a live block has the contents its owner gave it, lies in the heap,
aligned, and has at least a header between it and every other live block. -/
theorem live_block_kept (hroom : Room beginAddr endAddr) (hr : (lts beginAddr endAddr).Run hist s)
    (hp : s.live p = some l) :
    s.heap.mem.read p l.length = l ∧ 8 ∣ p ∧ s.heap.heapPtr + sizeofStructMem ≤ p ∧ p + l.length ≤ s.heap.heapEnd ∧
      ∀ q l', s.live q = some l' → q ≠ p →
        p + l.length + sizeofStructMem ≤ q ∨ q + l'.length + sizeofStructMem ≤ p := by
  obtain ⟨bs, H⟩ := run_holds hroom hr
  obtain ⟨o, k, hu, rfl, hk, hread⟩ := H.block p l hp
  have hend := end_le_of_mem hu
  have h8 : 8 ∣ o := by
    obtain ⟨a, b, rfl, rfl⟩ := mem_usedFrom_iff.1 hu
    rw [Nat.zero_add]
    exact H.inv.shape.dvd_total
  have h8' := H.inv.shape.ptr_aligned
  rw [H.inv.shape.end_eq_total, sizeofStructMem]
  refine ⟨hread, by omega, by omega, by omega, fun q l' hq hne => ?_⟩
  obtain ⟨o', k', hu', rfl, hk', -⟩ := H.block q l' hq
  obtain hd | hd := disjoint_of_mem hu hu' (by omega)
  · exact .inl (by omega)
  · exact .inr (by omega)

theorem live_block_kept_moved :
    ∃ hist s, (lts 0 264).Run hist s ∧ s.live 80 = some ([0, 7, 0] ++ List.replicate 21 0) ∧
      s.heap.mem.read 80 24 = [0, 7, 0] ++ List.replicate 21 0 := by
  obtain ⟨hist, s, hr, hp⟩ := Lts.exists_run_of_exec (S := lts 0 264)
    [.malloc 3, .malloc 8, .store 16 1 7, .realloc 16 24, .free 48] init_sample
    (P := fun _ s => s.live 80 = some ([0, 7, 0] ++ List.replicate 21 0)) (by decide +kernel)
  exact ⟨hist, s, hr, hp, (live_block_kept room_sample hr hp).1⟩

/-- `mem.c` never fails an assertion of its own and its walks end: a request for bytes that the heap could have, a
block that grows or shrinks to at least one byte and a live block that is freed all return. `used_mem` is the sum of
the blocks with their headers and `max_mem` bounds it. -/
theorem calls_return (hroom : Room beginAddr endAddr) (hr : (lts beginAddr endAddr).Run hist s) :
    (∀ size, 0 < size → size ≤ maxSize → rtAlign size ≤ s.heap.memSizeAligned →
        ∃ s', (lts beginAddr endAddr).step (.malloc size) s = some s') ∧
      (∀ p l n, s.live p = some l → 0 < n → n ≤ maxSize →
        ∃ s', (lts beginAddr endAddr).step (.realloc p n) s = some s') ∧
      (∀ p l, s.live p = some l → ∃ s', (lts beginAddr endAddr).step (.free p) s = some s') ∧
      ∃ bs, Shape s.heap bs ∧ Solid bs ∧ s.heap.usedMem = bytes (usedFrom 0 bs) ∧ s.heap.usedMem ≤ s.heap.maxMem ∧
        ∀ o, (∃ k, (o, k) ∈ usedFrom 0 bs) ↔ (s.live (s.heap.heapPtr + o + 16)).isSome := by
  obtain ⟨bs, H⟩ := run_holds hroom hr
  refine ⟨fun size h0 hn hle => ?_, fun p l n hp h0 hn => ?_, fun p l hp => ?_, bs, H.inv.shape, H.inv.solid,
    H.inv.usedMem, H.inv.maxMem, fun o => ⟨fun ⟨k, hu⟩ => H.known o k hu, fun hs => ?_⟩⟩
  · obtain ⟨x, hx⟩ : ∃ x, s.heap.rtMallocEx size = some x := by
      obtain he | ⟨h', bs', o, k, he, -⟩ := H.malloc (Nat.ne_of_gt h0) hle
      · exact ⟨_, he⟩
      · exact ⟨_, he⟩
    change ∃ s', step (.malloc size) s = some s'
    rw [step, if_neg (Nat.not_lt.2 hn), hx]
    exact ⟨_, rfl⟩
  · change ∃ s', step (.realloc p n) s = some s'
    rw [step, hp]
    obtain ⟨h0', -⟩ | ⟨q, h', he, -⟩ := H.realloc hp hn
    · omega
    · simp only [Option.bind_eq_bind, Option.bind_some]
      rw [if_neg (Nat.not_lt.2 hn), he]
      exact ⟨_, rfl⟩
  · obtain ⟨h', bs', hf, -⟩ := H.free hp
    change ∃ s', step (.free p) s = some s'
    rw [step, hp]
    simp only [Option.bind_eq_bind, Option.bind_some]
    rw [hf]
    exact ⟨_, rfl⟩
  · obtain ⟨l, hl⟩ := Option.isSome_iff_exists.1 hs
    obtain ⟨o', k, hu, he, -⟩ := H.block _ l hl
    have : o' = o := by omega
    exact ⟨k, this ▸ hu⟩

theorem calls_return_sample :
    ∃ hist s, (lts 0 264).Run hist s ∧ s.live 16 = some [0, 0, 0] ∧
      (∃ s', (lts 0 264).step (.realloc 16 24) s = some s') ∧
      ∃ s', (lts 0 264).step (.free 16) s = some s' := by
  obtain ⟨hist, s, hr, hp⟩ := Lts.exists_run_of_exec (S := lts 0 264) [.malloc 3, .malloc 8] init_sample
    (P := fun _ s => s.live 16 = some [0, 0, 0]) (by decide +kernel)
  obtain ⟨-, hre, hf, -⟩ := calls_return room_sample hr
  exact ⟨hist, s, hr, hp, hre 16 _ 24 hp (by decide) (by decide), hf 16 _ hp⟩

/-- When every block has been freed the heap is one free block again, as `rt_system_heap_init` left it. -/
theorem all_freed (hroom : Room beginAddr endAddr) (hr : (lts beginAddr endAddr).Run hist s)
    (hnone : ∀ p, s.live p = none) :
    s.heap.get s.heap.heapPtr = ⟨heapMagic, 0, s.heap.memSizeAligned + sizeofStructMem, 0⟩ ∧
      s.heap.lfree = s.heap.heapPtr ∧ s.heap.usedMem = 0 := by
  obtain ⟨bs, H⟩ := run_holds hroom hr
  have hused : usedFrom 0 bs = [] := by
    refine List.eq_nil_iff_forall_not_mem.2 fun x hx => ?_
    have := H.known x.1 x.2 hx
    rw [hnone] at this
    exact absurd this Bool.false_ne_true
  have htot := H.inv.shape.total_eq
  have hne : bs ≠ [] := by
    rintro rfl
    rw [total_nil, sizeofStructMem] at htot
    omega
  have hs := H.inv.shape
  rw [H.inv.solid.eq_singleton hused hne, htot] at hs
  refine ⟨?_, H.inv.home hused, by rw [H.inv.usedMem, hused]; rfl⟩
  have hget := Shape.get_eq (l := []) (r := []) hs
  rw [total_nil, Nat.add_zero] at hget
  rw [hget]
  simp only [header, Nat.zero_add]
  rfl

theorem all_freed_sample :
    ∃ hist s, (lts 0 264).Run hist s ∧ hist.length = 5 ∧ s.heap.lfree = s.heap.heapPtr ∧ s.heap.usedMem = 0 := by
  obtain ⟨hist, s, hr, hlen, hend, hp⟩ := Lts.exists_run_of_exec (S := lts 0 264)
    [.malloc 120, .malloc 8, .realloc 16 8, .free 152, .free 16] init_sample
    (P := fun hist s => hist.length = 5 ∧ s.heap.heapEnd < 264 ∧
      ((List.range 264).all fun p => (s.live p).isNone) = true) (by decide +kernel)
  have hnone : ∀ p, s.live p = none := fun p => by
    cases hl : s.live p with
    | none => rfl
    | some l =>
      have := (live_block_kept room_sample hr hl).2.2.2.1
      have hn := List.all_eq_true.1 hp p (List.mem_range.2 (by omega))
      rw [hl] at hn
      exact absurd hn Bool.false_ne_true
  exact ⟨hist, s, hr, hlen, (all_freed room_sample hr hnone).2⟩

/-- First fit: as long as no block is resized `rt_malloc` takes the free block with the lowest address that fits, and
it returns `RT_NULL` only if none does. The block at the far end does not count: it starts at
`mem_size_aligned - size` or behind. -/
theorem malloc_first_fit (hroom : Room beginAddr endAddr) (hr : (lts beginAddr endAddr).Run hist s)
    (hg : Lts.Guarded NoRealloc hist) :
    ∃ bs, Shape s.heap bs ∧ ∀ size, size ≠ 0 → rtAlign size ≤ s.heap.memSizeAligned →
      (s.heap.rtMallocEx size = some (0, s.heap) ∧ NoFit s.heap (granted size) 0 bs ∨
        ∃ l b r h', bs = l ++ b :: r ∧ Fits s.heap (granted size) (total l) b ∧ NoFit s.heap (granted size) 0 l ∧
          s.heap.rtMallocEx size = some (s.heap.heapPtr + total l + sizeofStructMem, h')) := by
  obtain ⟨bs, H⟩ := run_holds_low hroom hr hg
  refine ⟨bs, H.inv.shape, fun size h0 hsize => ?_⟩
  obtain ⟨l, r, rfl, hlow, hres⟩ := rtMallocEx_spec H.inv h0 hsize
  have hl := hlow trivial
  obtain ⟨he, hno⟩ | ⟨l', b, r', rfl, hfit, hno, h', -, -, -, -, he, -⟩ := hres
  · exact .inl ⟨he, noFit_append hl hno⟩
  · refine .inr ⟨l ++ l', b, r', h', (List.append_assoc ..).symm, hfit, noFit_append hl hno, he⟩

theorem malloc_first_fit_sample :
    ∃ hist s bs, (lts 0 264).Run hist s ∧ Shape s.heap bs ∧ s.heap.memSizeAligned = 232 ∧
      (s.heap.rtMallocEx 20 = some (0, s.heap) ∧ NoFit s.heap (granted 20) 0 bs ∨
        ∃ l b r h', bs = l ++ b :: r ∧ Fits s.heap (granted 20) (total l) b ∧ NoFit s.heap (granted 20) 0 l ∧
          s.heap.rtMallocEx 20 = some (s.heap.heapPtr + total l + sizeofStructMem, h')) := by
  obtain ⟨hist, s, hr, hg, hm⟩ := Lts.exists_run_of_exec (S := lts 0 264) [.malloc 3, .malloc 8, .free 16] init_sample
    (P := fun hist s => Lts.Guarded NoRealloc hist ∧ s.heap.memSizeAligned = 232) (by decide +kernel)
  obtain ⟨bs, hs, hfit⟩ := malloc_first_fit room_sample hr hg
  exact ⟨hist, s, bs, hr, hs, hm, hfit 20 (by decide) (by rw [hm]; decide)⟩

end HeapUse

end Bootloader
