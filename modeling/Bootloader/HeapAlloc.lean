import Bootloader.HeapChain

/-!
# What the heap functions do to the chain

One lemma for each part of `mem.c`: which blocks the chain has behind it, that the data of the used blocks is as it
was, and what has become of `lfree`.
-/

namespace Bootloader.Heap

open Tile

variable {h : Heap} {m' : Mem} {a b : Tile} {l r bs bs' : List Tile} {x : Nat}

/-- The heap is tiled by the blocks `bs`. -/
structure Shape (h : Heap) (bs : List Tile) : Prop where
  closed : Closed h.mem h.heapPtr 0 0 bs
  roomy : Roomy bs
  aligned : ∀ b ∈ bs, 8 ∣ b.size
  total_eq : total bs = h.memSizeAligned + sizeofStructMem
  end_eq : h.heapEnd = h.heapPtr + (h.memSizeAligned + sizeofStructMem)
  bound : h.heapPtr + h.memSizeAligned + 32 < 2 ^ 32
  ptr_aligned : 8 ∣ h.heapPtr
  min_size : minSizeAligned ≤ h.memSizeAligned

theorem Shape.with (hs : Shape h bs) (hc : Closed m' h.heapPtr 0 0 bs') (hr : Roomy bs')
    (ha : ∀ b ∈ bs', 8 ∣ b.size) (ht : total bs' = total bs) (lfree used max : Nat) :
    Shape { h with mem := m', lfree := lfree, usedMem := used, maxMem := max } bs' :=
  ⟨hc, hr, ha, ht.trans hs.total_eq, hs.end_eq, hs.bound, hs.ptr_aligned, hs.min_size⟩

theorem Shape.total_lt (hs : Shape h bs) : h.heapPtr + total bs + 16 < 2 ^ 32 := by
  have := hs.bound
  rw [hs.total_eq, sizeofStructMem]
  omega

theorem Shape.end_eq_total (hs : Shape h bs) : h.heapEnd = h.heapPtr + total bs := by
  rw [hs.end_eq, hs.total_eq]

theorem Shape.get_eq (hs : Shape h (l ++ b :: r)) :
    h.get (h.heapPtr + total l) = header b (total l) (lastStart 0 0 l) := by
  have := hs.closed.hdr_eq
  rwa [Nat.zero_add] at this

theorem Shape.room (hs : Shape h (l ++ b :: r)) : 16 ≤ b.size := hs.roomy b (by simp)

/-! ### Joining two blocks -/

theorem roomy_join (hr : Roomy (l ++ a :: b :: r)) : Roomy (l ++ ⟨a.size + b.size, a.used⟩ :: r) := by
  intro c hc
  rcases List.mem_append.1 hc with hc | hc
  · exact hr c (by simp [hc])
  · rcases List.mem_cons.1 hc with rfl | hc
    · exact Nat.le_trans (hr a (by simp)) (Nat.le_add_right _ _)
    · exact hr c (by simp [hc])

theorem aligned_join (ha : ∀ c ∈ l ++ a :: b :: r, 8 ∣ c.size) :
    ∀ c ∈ l ++ ⟨a.size + b.size, a.used⟩ :: r, 8 ∣ c.size := by
  intro c hc
  rcases List.mem_append.1 hc with hc | hc
  · exact ha c (by simp [hc])
  · rcases List.mem_cons.1 hc with rfl | hc
    · exact Nat.dvd_add (ha a (by simp)) (ha b (by simp))
    · exact ha c (by simp [hc])

/-- The two places that `combine` writes are boundaries, and so the used blocks keep their data. -/
theorem combine_spec (hs : Shape h (l ++ a :: b :: r)) :
    ∃ m', h.combine (h.heapPtr + total l) (h.heapPtr + (total l + a.size)) =
        { h with
          mem := m'
          lfree := if h.lfree = h.heapPtr + (total l + a.size) then h.heapPtr + total l else h.lfree } ∧
      Shape { h with mem := m' } (l ++ ⟨a.size + b.size, a.used⟩ :: r) ∧
      SameData h.mem m' h.heapPtr (usedFrom 0 (l ++ a :: b :: r)) := by
  have hlt := hs.total_lt
  have hra : 16 ≤ a.size := hs.room
  have hrb : 16 ≤ b.size := hs.roomy b (by simp)
  simp only [total_append, total_cons] at hlt
  obtain ⟨hl, ha, hb, hr⟩ := closed_append.1 hs.closed
  simp only [Nat.zero_add] at hl ha hb hr
  set g : Heap := { h with lfree := if h.lfree = h.heapPtr + (total l + a.size) then h.heapPtr + total l else h.lfree }
    with hg
  have hgg : (if h.lfree = h.heapPtr + (total l + a.size) then { h with lfree := h.heapPtr + total l } else h) = g := by
    rw [hg]
    split
    · rfl
    · rfl
  have hnb : (g.get (h.heapPtr + (total l + a.size))).next = total l + a.size + b.size := congrArg HeapMem.next hb
  set g₁ := g.setNext (h.heapPtr + total l) (total l + a.size + b.size) with hg₁
  have hnb₁ : (g₁.get (h.heapPtr + (total l + a.size))).next = total l + a.size + b.size := by
    rw [hg₁, get_setNext_ne (by omega), hnb]
  set g₂ := g₁.setPrev (h.heapPtr + (total l + a.size + b.size)) (total l) with hg₂
  have hcomb : h.combine (h.heapPtr + total l) (h.heapPtr + (total l + a.size)) = g₂ := by
    rw [combine, hgg]
    simp only [hnb]
    have hbase : g₁.heapPtr = h.heapPtr := rfl
    rw [← hg₁, hnb₁, hg₂, hbase, sub32_eq (by omega) (by omega), Nat.add_sub_cancel_left]
    rfl
  -- what the two writes leave alone
  have ho₁ : Outside h.mem g₁.mem (h.heapPtr + total l) := setNext_outside
  have ho₂ : Outside g₁.mem g₂.mem (h.heapPtr + (total l + a.size + b.size)) := setPrev_outside
  have hclosed : Closed g₂.mem h.heapPtr 0 0 (l ++ ⟨a.size + b.size, a.used⟩ :: r) := by
    refine closed_append.2 ⟨?_, ?_, ?_⟩
    · refine hl.congr (fun c hc => hs.roomy c (by simp [hc])) fun y _ hy => ?_
      rw [ho₂ y (.inl (by omega)), ho₁ y (.inl (by omega))]
    · rw [Nat.zero_add]
      refine (ho₂.hdr_eq (.inl (by omega))).trans ?_
      have hga : g.get (h.heapPtr + total l) = header a (total l) (lastStart 0 0 l) := ha
      have h₁ : g₁.get (h.heapPtr + total l) = _ := get_setNext (by omega)
      rw [hga] at h₁
      exact h₁.trans (by simp only [header, Nat.add_assoc])
    · have hroom : Roomy r := fun c hc => hs.roomy c (by simp [hc])
      have hr₁ : Closed g₁.mem h.heapPtr (total l + a.size + b.size) (total l + a.size) r :=
        hr.congr hroom fun y hy _ => ho₁ y (.inr (by omega))
      have h₂ : g₂.get (h.heapPtr + (total l + a.size + b.size)) = _ := get_setPrev (by omega)
      simp only [Nat.zero_add, ← Nat.add_assoc (total l)]
      exact hr₁.relink hroom (fun y hy => ho₂ y (.inr (by omega))) h₂
  refine ⟨g₂.mem, hcomb, hs.with hclosed (roomy_join hs.roomy) (aligned_join hs.aligned) ?_ _ _ _, ?_⟩
  · simp only [total_append, total_cons, Nat.add_assoc]
  · have hb₁ : Boundary (l ++ a :: b :: r) (total l) := ⟨l, _, rfl, rfl⟩
    have hb₂ : Boundary (l ++ a :: b :: r) (total l + a.size + b.size) :=
      ⟨l ++ [a, b], r, by simp, by simp [Nat.add_assoc]⟩
    exact (ho₁.sameData hb₁).trans (ho₂.sameData hb₂)

/-! ### `plug_holes` -/

/-- `lfree` points to a free block or the end; with `low` to the lowest free block. -/
def LFree (low : Prop) (h : Heap) (bs : List Tile) : Prop := ∃ w, h.lfree = h.heapPtr + w ∧ FreeAt low bs w

/-- Free blocks of `bs` are joined to give `bs'`. -/
structure Joined (h h' : Heap) (bs bs' : List Tile) : Prop where
  same : h' = { h with mem := h'.mem, lfree := h'.lfree }
  shape : Shape h' bs'
  used : usedFrom 0 bs' = usedFrom 0 bs
  data : SameData h.mem h'.mem h.heapPtr (usedFrom 0 bs)
  lfree : ∀ low, LFree low h bs → LFree low h' bs'
  lfree_le : h'.lfree ≤ h.lfree

theorem Joined.refl (hs : Shape h bs) : Joined h h bs bs :=
  ⟨rfl, hs, rfl, .refl, fun _ hl => hl, Nat.le_refl _⟩

theorem Joined.heapPtr_eq {h' : Heap} (hj : Joined h h' bs bs') : h'.heapPtr = h.heapPtr := by rw [hj.same]

theorem Joined.trans {h' h'' : Heap} {bs'' : List Tile} (hj : Joined h h' bs bs') (hj' : Joined h' h'' bs' bs'') :
    Joined h h'' bs bs'' := by
  refine ⟨?_, hj'.shape, hj'.used.trans hj.used, hj.data.trans ?_, fun low hl => hj'.lfree low (hj.lfree low hl),
    hj'.lfree_le.trans hj.lfree_le⟩
  · rw [hj'.same, hj.same]
  · rw [← hj.used, ← hj.heapPtr_eq]
    exact hj'.data

theorem combine_joined {n k : Nat} (hs : Shape h (l ++ ⟨n, false⟩ :: ⟨k, false⟩ :: r)) :
    Joined h (h.combine (h.heapPtr + total l) (h.heapPtr + (total l + n)))
      (l ++ ⟨n, false⟩ :: ⟨k, false⟩ :: r) (l ++ ⟨n + k, false⟩ :: r) := by
  obtain ⟨m', he, hs', hd⟩ := combine_spec hs
  have hn : 16 ≤ n := hs.room
  rw [he]
  refine ⟨rfl, hs'.with hs'.closed hs'.roomy hs'.aligned rfl _ _ _, usedFrom_join.symm, hd, ?_, ?_⟩
  swap
  · simp only
    split
    · omega
    · exact Nat.le_refl _
  rintro low ⟨w, hw, hf⟩
  refine ⟨_, ?_, hf.join (by omega)⟩
  rw [hw]
  simp only
  by_cases hc : w = total l + n
  · rw [if_pos hc, if_pos (by rw [hc])]
  · rw [if_neg hc, if_neg (by omega)]

/-- The block behind is taken in if it is free. -/
theorem plug_forward {n : Nat} (hs : Shape h (l ++ ⟨n, false⟩ :: r)) (hr : Solid r) :
    ∃ n' r', Joined h (h.plugForward (h.heapPtr + total l)) (l ++ ⟨n, false⟩ :: r) (l ++ ⟨n', false⟩ :: r') ∧
      Solid r' ∧ ∀ x ∈ r'.head?, x.used = true := by
  have hn : 16 ≤ n := hs.room
  rw [plugForward]
  generalize hmem : h.heapPtr + total l = mem
  generalize hnmem : h.at_ (h.get mem).next = nmem
  have hnm : nmem = h.heapPtr + (total l + n) := by rw [← hnmem, ← hmem, hs.get_eq]; rfl
  cases r with
  | nil =>
    have he : nmem = h.heapEnd := by rw [hnm, hs.end_eq_total, total_append, total_cons, total_nil, Nat.add_zero]
    rw [if_neg fun hc => hc.2.2 he]
    exact ⟨n, [], .refl hs, hr, fun x hx => by simp at hx⟩
  | cons c r =>
    have hs₂ : Shape h ((l ++ [⟨n, false⟩]) ++ c :: r) := by simpa using hs
    have hget : h.get nmem = header c (total l + n) (total l) := by
      have := hs₂.get_eq
      rw [lastStart_append, total_append, total_cons, total_nil, Nat.add_zero, Nat.zero_add] at this
      rw [hnm, this]
    have hlt := hs.end_eq_total
    simp only [total_append, total_cons] at hlt
    have hc : 16 ≤ c.size := hs₂.room
    cases hu : c.used with
    | true =>
      rw [if_neg fun hc => by rw [hget, header, hu] at hc; exact absurd hc.2.1 Nat.one_ne_zero]
      refine ⟨n, c :: r, .refl hs, hr, fun x hx => ?_⟩
      rw [List.head?_cons, Option.mem_some_iff] at hx
      exact hx ▸ hu
    | false =>
      rw [if_pos ⟨by omega, by rw [hget, header, hu]; rfl, by omega⟩]
      obtain ⟨k, u⟩ := c
      cases hu
      rw [hnm, ← hmem]
      have hsr : Solid ([] ++ ⟨k, false⟩ :: r) := hr
      exact ⟨n + k, r, combine_joined hs, hr.of_append_right (l := [_]), hsr.head_used rfl⟩

/-- The block is taken in by the one before it if that is free. -/
theorem plug_backward {n : Nat} (hs : Shape h (l ++ ⟨n, false⟩ :: r)) (hl : Solid l) (hr : Solid r)
    (hh : ∀ x ∈ r.head?, x.used = true) :
    ∃ bs', Joined h (h.plugBackward (h.heapPtr + total l)) (l ++ ⟨n, false⟩ :: r) bs' ∧ Solid bs' := by
  rw [plugBackward]
  generalize hmem : h.heapPtr + total l = mem
  generalize hpmem : h.at_ (h.get mem).prev = pmem
  obtain rfl | ⟨l, y, rfl⟩ := l.eq_nil_or_concat'
  · have he : pmem = mem := by rw [← hpmem, ← hmem, hs.get_eq]; rfl
    rw [if_neg fun hc => hc.1 he]
    exact ⟨_, .refl hs, hl.around_free hr (fun x hx => by simp at hx) hh⟩
  · have hp : pmem = h.heapPtr + total l := by
      rw [← hpmem, ← hmem, hs.get_eq, header, lastStart_append, Nat.zero_add]; rfl
    have hm : mem = h.heapPtr + (total l + y.size) := by
      rw [← hmem, total_append, total_cons, total_nil, Nat.add_zero]
    have hs₂ : Shape h (l ++ y :: ⟨n, false⟩ :: r) := by simpa using hs
    have hy : 16 ≤ y.size := hs₂.room
    have hget : h.get pmem = header y (total l) (lastStart 0 0 l) := by rw [hp, hs₂.get_eq]
    cases hu : y.used with
    | true =>
      rw [if_neg fun hc => by rw [hget, header, hu] at hc; exact absurd hc.2 Nat.one_ne_zero]
      refine ⟨_, .refl hs, hl.around_free hr (fun x hx => ?_) hh⟩
      rw [List.getLast?_concat, Option.mem_some_iff] at hx
      exact hx ▸ hu
    | false =>
      rw [if_pos ⟨by omega, by rw [hget, header, hu]; rfl⟩, hp, hm]
      obtain ⟨k, u⟩ := y
      cases hu
      have hsl : Solid (l ++ ⟨k, false⟩ :: []) := hl
      refine ⟨l ++ ⟨k + n, false⟩ :: r, ?_, hsl.of_append_left.around_free hr (hsl.last_used rfl) hh⟩
      rw [List.append_assoc]
      exact combine_joined hs₂

/-- A free block and its free neighbours become one block. -/
theorem plugHoles_spec {n : Nat} (hs : Shape h (l ++ ⟨n, false⟩ :: r)) (hl : Solid l) (hr : Solid r) :
    ∃ h' bs', h.plugHoles (h.heapPtr + total l) = some h' ∧ Joined h h' (l ++ ⟨n, false⟩ :: r) bs' ∧ Solid bs' := by
  have hn : 16 ≤ n := hs.room
  have hlt := hs.end_eq_total
  simp only [total_append, total_cons] at hlt
  obtain ⟨n', r', hj, hr', hh⟩ := plug_forward hs hr
  have hbase := hj.heapPtr_eq
  obtain ⟨bs', hj', hsol⟩ := plug_backward hj.shape hl hr' hh
  rw [hbase] at hj'
  refine ⟨_, bs', ?_, hj.trans hj', hsol⟩
  have hu : (h.get (h.heapPtr + total l)).used = 0 := by rw [hs.get_eq]; rfl
  rw [plugHoles, rtAssert_bind (Nat.le_add_right _ _), rtAssert_bind (by omega), rtAssert_bind hu]

/-! ### Splitting a block -/

section
variable {n k size : Nat} {u : Bool}

/-- A block is split behind `k` bytes, and the block behind it does not know yet. -/
structure HalfSplit (m : Mem) (base : Nat) (l : List Tile) (k n : Nat) (u : Bool) (r : List Tile) : Prop where
  links : Links m base 0 0 l
  first : hdr m (base + total l) = header ⟨k, u⟩ (total l) (lastStart 0 0 l)
  rest : hdr m (base + (total l + k)) = header ⟨n - k, false⟩ (total l + k) (total l)
  closed : Closed m base (total l + n) (total l) r

theorem insertRest_spec (hs : Shape h (l ++ ⟨n, u⟩ :: r)) (hn : size + 32 ≤ n) :
    ∃ m', h.insertRest (total l) size = { h with mem := m' } ∧ HalfSplit m' h.heapPtr l (16 + size) n u r ∧
      ∀ u', SameData h.mem m' h.heapPtr (usedFrom 0 (l ++ ⟨16 + size, u'⟩ :: ⟨n - (16 + size), false⟩ :: r)) := by
  have hlt := hs.total_lt
  simp only [total_append, total_cons] at hlt
  have hget : h.get (h.heapPtr + total l) = header ⟨n, u⟩ (total l) (lastStart 0 0 l) := hs.get_eq
  obtain ⟨hl, -, hr⟩ := closed_append.1 hs.closed
  simp only [Nat.zero_add] at hl hr
  generalize hp2 : h.heapPtr + (total l + (16 + size)) = p2
  have he : h.insertRest (total l) size =
      (((((h.setMagic p2 heapMagic).setUsed p2 0).setNext p2 (total l + n)).setPrev p2 (total l)).setNext
        (h.heapPtr + total l) (total l + (16 + size))) := by
    simp only [insertRest, at_, hget, header, sizeofStructMem]
    rw [show total l + 16 + size = total l + (16 + size) from Nat.add_assoc .., hp2]
  rw [he]
  set g := (((h.setMagic p2 heapMagic).setUsed p2 0).setNext p2 (total l + n)).setPrev p2 (total l) with hg
  set g' := g.setNext (h.heapPtr + total l) (total l + (16 + size)) with hg'
  have ho : Outside h.mem g.mem p2 := fun x hx => by
    rw [hg, setPrev_outside x hx, setNext_outside x hx, setUsed_outside x hx, setMagic_outside x hx]
  have ho' : Outside g.mem g'.mem (h.heapPtr + total l) := setNext_outside
  have hrest : g.get p2 = header ⟨n - (16 + size), false⟩ (total l + (16 + size)) (total l) := by
    have hsum : total l + n = total l + (16 + size) + (n - (16 + size)) := by omega
    rw [hg, get_setPrev (by omega), get_setNext (by omega), get_setUsed (by omega), get_setMagic (by decide), hsum]
    rfl
  have hroom : Roomy l := fun c hc => hs.roomy c (by simp [hc])
  have hroom' : Roomy r := fun c hc => hs.roomy c (by simp [hc])
  refine ⟨g'.mem, rfl, ⟨?_, ?_, ?_, ?_⟩, ?_⟩
  · refine hl.congr hroom fun x _ hx => ?_
    rw [ho' x (.inl (by omega)), ho x (.inl (by omega))]
  · have h₁ : g'.get (h.heapPtr + total l) = _ := get_setNext (by omega)
    have h₂ : g.get (h.heapPtr + total l) = h.get (h.heapPtr + total l) := ho.hdr_eq (.inl (by omega))
    rw [h₂, hget] at h₁
    exact h₁
  · rw [hp2]
    exact (ho'.hdr_eq (.inr (by omega))).trans hrest
  · refine hr.congr hroom' fun x hx _ => ?_
    rw [ho' x (.inr (by omega)), ho x (.inr (by omega))]
  · intro u'
    have hb : Boundary (l ++ ⟨16 + size, u'⟩ :: ⟨n - (16 + size), false⟩ :: r) (total l + (16 + size)) :=
      ⟨l ++ [⟨16 + size, u'⟩], ⟨n - (16 + size), false⟩ :: r, by simp, by simp⟩
    rw [← hp2] at ho
    exact (ho.sameData hb).trans (ho'.sameData ⟨l, _, rfl, rfl⟩)

theorem HalfSplit.setUsed (hh : HalfSplit h.mem h.heapPtr l k n u r) (hroom : Roomy l) (hroom' : Roomy r)
    (hk : 16 ≤ k) (hn : k ≤ n) :
    HalfSplit (h.setUsed (h.heapPtr + total l) 1).mem h.heapPtr l k n true r := by
  have ho : Outside h.mem (h.setUsed (h.heapPtr + total l) 1).mem (h.heapPtr + total l) := setUsed_outside
  refine ⟨hh.links.congr hroom fun x _ hx => ho x (.inl (by omega)), ?_,
    (ho.hdr_eq (.inr (by omega))).trans hh.rest, hh.closed.congr hroom' fun x hx _ => ho x (.inr (by omega))⟩
  have h₁ : (h.setUsed (h.heapPtr + total l) 1).get (h.heapPtr + total l) = _ := get_setUsed (by omega)
  have h₂ : h.get (h.heapPtr + total l) = header ⟨k, u⟩ (total l) (lastStart 0 0 l) := hh.first
  rw [h₂] at h₁
  exact h₁

/-- The block behind learns of the split, unless it is the end. -/
theorem linkRest_spec (hh : HalfSplit h.mem h.heapPtr l k n u r) (hroom : Roomy l) (hroom' : Roomy r) (hk : 16 ≤ k)
    (hn : k + 16 ≤ n) (ht : total l + n + total r = h.memSizeAligned + sizeofStructMem)
    (hb : h.memSizeAligned + sizeofStructMem < 2 ^ 32) :
    ∃ m', h.linkRest (total l + k) = { h with mem := m' } ∧
      Closed m' h.heapPtr 0 0 (l ++ ⟨k, u⟩ :: ⟨n - k, false⟩ :: r) ∧
      SameData h.mem m' h.heapPtr (usedFrom 0 (l ++ ⟨k, u⟩ :: ⟨n - k, false⟩ :: r)) := by
  have hget : h.get (h.at_ (total l + k)) = header ⟨n - k, false⟩ (total l + k) (total l) := hh.rest
  have hnext : total l + k + (n - k) = total l + n := by omega
  have hclosed {m' : Mem} (hl : Links m' h.heapPtr 0 0 l)
      (h₁ : hdr m' (h.heapPtr + total l) = header ⟨k, u⟩ (total l) (lastStart 0 0 l))
      (h₂ : hdr m' (h.heapPtr + (total l + k)) = header ⟨n - k, false⟩ (total l + k) (total l))
      (h₃ : Closed m' h.heapPtr (total l + n) (total l + k) r) :
      Closed m' h.heapPtr 0 0 (l ++ ⟨k, u⟩ :: ⟨n - k, false⟩ :: r) := by
    refine closed_append.2 ⟨hl, ?_⟩
    simp only [Nat.zero_add, Closed, hnext]
    exact ⟨h₁, h₂, h₃⟩
  rw [linkRest]
  simp only [hget, header, hnext]
  split
  · set g := h.setPrev (h.heapPtr + (total l + n)) (total l + k) with hg
    have ho : Outside h.mem g.mem (h.heapPtr + (total l + n)) := setPrev_outside
    refine ⟨g.mem, rfl, hclosed (hh.links.congr hroom fun x _ hx => ho x (.inl (by omega)))
      ((ho.hdr_eq (.inl (by omega))).trans hh.first) ((ho.hdr_eq (.inl (by omega))).trans hh.rest) ?_, ?_⟩
    · have h₂ : g.get (h.heapPtr + (total l + n)) = _ := get_setPrev (by omega)
      exact hh.closed.relink hroom' (fun x hx => ho x (.inr (by omega))) h₂
    · exact ho.sameData ⟨l ++ [⟨k, u⟩, ⟨n - k, false⟩], r, by simp, by simp; omega⟩
  · rename_i hne
    have hr : r = [] := by
      cases r with
      | nil => rfl
      | cons c r =>
        have : 16 ≤ c.size := hroom' c List.mem_cons_self
        rw [total_cons] at ht
        omega
    subst hr
    exact ⟨h.mem, rfl, hclosed hh.links hh.first hh.rest hh.closed.prev_nil, .refl⟩

theorem roomy_split (hr : Roomy (l ++ ⟨n, u⟩ :: r)) {u' : Bool} (hk : 16 ≤ k) (hn : k + 16 ≤ n) :
    Roomy (l ++ ⟨k, u'⟩ :: ⟨n - k, false⟩ :: r) := by
  intro c hc
  rcases List.mem_append.1 hc with hc | hc
  · exact hr c (by simp [hc])
  · rcases List.mem_cons.1 hc with rfl | hc
    · exact hk
    · rcases List.mem_cons.1 hc with rfl | hc
      · change 16 ≤ n - k
        omega
      · exact hr c (by simp [hc])

theorem aligned_split (ha : ∀ c ∈ l ++ ⟨n, u⟩ :: r, 8 ∣ c.size) {u' : Bool} (hk : 8 ∣ k) :
    ∀ c ∈ l ++ ⟨k, u'⟩ :: ⟨n - k, false⟩ :: r, 8 ∣ c.size := by
  intro c hc
  rcases List.mem_append.1 hc with hc | hc
  · exact ha c (by simp [hc])
  · rcases List.mem_cons.1 hc with rfl | hc
    · exact hk
    · rcases List.mem_cons.1 hc with rfl | hc
      · exact Nat.dvd_sub (ha ⟨n, u⟩ (by simp)) hk
      · exact ha c (by simp [hc])

/-- `mem->magic = HEAP_MAGIC` for a block of the chain. -/
theorem setMagic_spec (hs : Shape h (l ++ b :: r)) :
    Shape (h.setMagic (h.heapPtr + total l) heapMagic) (l ++ b :: r) ∧
      SameData h.mem (h.setMagic (h.heapPtr + total l) heapMagic).mem h.heapPtr (usedFrom 0 (l ++ b :: r)) := by
  have ho : Outside h.mem (h.setMagic (h.heapPtr + total l) heapMagic).mem (h.heapPtr + total l) := setMagic_outside
  have h₁ : (h.setMagic (h.heapPtr + total l) heapMagic).get (h.heapPtr + total l) = _ := get_setMagic (by decide)
  rw [hs.get_eq] at h₁
  have hc := hs.closed.rewrite b hs.roomy (by rwa [Nat.zero_add]) rfl (by rw [Nat.zero_add]; exact h₁)
  exact ⟨hs.with hc hs.roomy hs.aligned rfl _ _ _, ho.sameData ⟨l, _, rfl, rfl⟩⟩

/-- `mem->used` is set for a block of the chain. -/
theorem setUsed_spec (hs : Shape h (l ++ ⟨n, u⟩ :: r)) (u' : Bool) {v : Nat} (hv : v = if u' then 1 else 0) :
    Shape (h.setUsed (h.heapPtr + total l) v) (l ++ ⟨n, u'⟩ :: r) ∧
      SameData h.mem (h.setUsed (h.heapPtr + total l) v).mem h.heapPtr (usedFrom 0 (l ++ ⟨n, u'⟩ :: r)) := by
  have ho : Outside h.mem (h.setUsed (h.heapPtr + total l) v).mem (h.heapPtr + total l) := setUsed_outside
  have h₁ : (h.setUsed (h.heapPtr + total l) v).get (h.heapPtr + total l) = _ :=
    get_setUsed (by rw [hv]; split <;> decide)
  rw [hs.get_eq, header, hv] at h₁
  have hc := hs.closed.rewrite ⟨n, u'⟩ hs.roomy (by rwa [Nat.zero_add]) rfl
    (by rw [Nat.zero_add, hv]; exact h₁)
  have hsub : ∀ c ∈ l ++ ⟨n, u'⟩ :: r, ∃ c' ∈ l ++ ⟨n, u⟩ :: r, c'.size = c.size := by
    intro c hc
    rcases List.mem_append.1 hc with hc | hc
    · exact ⟨c, by simp [hc], rfl⟩
    · rcases List.mem_cons.1 hc with rfl | hc
      · exact ⟨⟨n, u⟩, by simp, rfl⟩
      · exact ⟨c, by simp [hc], rfl⟩
  refine ⟨hs.with hc (fun c hc => ?_) (fun c hc => ?_) (by simp) _ _ _, ho.sameData ⟨l, _, rfl, rfl⟩⟩
  · obtain ⟨c', hc', he⟩ := hsub c hc
    exact he ▸ hs.roomy c' hc'
  · obtain ⟨c', hc', he⟩ := hsub c hc
    exact he ▸ hs.aligned c' hc'

/-- A free block is taken for `size` bytes: split where the rest has room for a block, else whole. -/
theorem takeBlock_spec (hs : Shape h (l ++ ⟨n, false⟩ :: r)) (h8 : 8 ∣ size) (hfit : size + 16 ≤ n) :
    ∃ m' s rest, h.takeBlock (total l) size = ({ h with mem := m' } : Heap).addUsed s ∧
      (rest = [] ∧ s = n ∨ rest = [⟨n - s, false⟩] ∧ s = 16 + size ∧ s + 16 ≤ n) ∧
      Shape { h with mem := m' } (l ++ ⟨s, true⟩ :: (rest ++ r)) ∧
      SameData h.mem m' h.heapPtr (usedFrom 0 (l ++ ⟨s, true⟩ :: (rest ++ r))) := by
  have hlt := hs.total_lt
  have htot := hs.total_eq
  simp only [total_append, total_cons] at hlt htot
  have hroom : Roomy l := fun c hc => hs.roomy c (by simp [hc])
  have hroom' : Roomy r := fun c hc => hs.roomy c (by simp [hc])
  have hget : h.get (h.at_ (total l)) = header ⟨n, false⟩ (total l) (lastStart 0 0 l) := hs.get_eq
  have hsub : sub32 (total l + n) (total l + sizeofStructMem) = n - 16 := by
    rw [sub32_eq (by rw [sizeofStructMem]; omega) (by omega), sizeofStructMem]
    omega
  rw [takeBlock]
  simp only [hget, header, hsub]
  split
  · rename_i hbig
    rw [sizeofStructMem, minSizeAligned] at hbig
    obtain ⟨m₁, he₁, hh, hd₁⟩ := insertRest_spec hs (show size + 32 ≤ n by omega)
    have ht₁ : total l + n + total r = h.memSizeAligned + sizeofStructMem := by rw [← htot, Nat.add_assoc]
    have hlt₁ : h.memSizeAligned + sizeofStructMem < 2 ^ 32 := by rw [← ht₁]; omega
    have hh₂ : HalfSplit (({ h with mem := m₁ } : Heap).setUsed (h.heapPtr + total l) 1).mem h.heapPtr l (16 + size) n
        true r := HalfSplit.setUsed hh hroom hroom' (by omega) (by omega)
    obtain ⟨m₃, he₃, hc, hd₃⟩ := linkRest_spec hh₂ hroom hroom' (by omega) (by omega)
      ht₁ hlt₁
    have hs₃ : Shape { h with mem := m₃ } (l ++ ⟨16 + size, true⟩ :: ⟨n - (16 + size), false⟩ :: r) :=
      hs.with hc (roomy_split hs.roomy (by omega) (by omega))
        (aligned_split hs.aligned ((Nat.dvd_add_right (by decide)).2 h8)) (by simp; omega) _ _ _
    obtain ⟨hs₄, hd₄⟩ := setMagic_spec hs₃
    refine ⟨_, 16 + size, [⟨n - (16 + size), false⟩], ?_, .inr ⟨rfl, rfl, by omega⟩, hs₄, ?_⟩
    · rw [he₁, Nat.add_comm size, show total l + sizeofStructMem + size = total l + (16 + size) from Nat.add_assoc ..]
      exact congrArg (fun g : Heap => (g.addUsed (16 + size)).setMagic (h.heapPtr + total l) heapMagic) he₃
    · have ho : Outside m₁ (({ h with mem := m₁ } : Heap).setUsed (h.heapPtr + total l) 1).mem (h.heapPtr + total l) :=
        setUsed_outside
      have hb : Boundary (l ++ ⟨16 + size, true⟩ :: ⟨n - (16 + size), false⟩ :: r) (total l) := ⟨l, _, rfl, rfl⟩
      have hd₂ := ho.sameData hb
      exact (hd₁ true).trans (hd₂.trans (hd₃.trans hd₄))
  · have hu := setUsed_spec hs true rfl
    obtain ⟨hs₂, hd₂⟩ := hu
    obtain ⟨hs₃, hd₃⟩ := setMagic_spec hs₂
    refine ⟨_, n, [], ?_, .inl ⟨rfl, rfl⟩, hs₃, hd₂.trans hd₃⟩
    rw [sub32_eq (by omega) (by omega), Nat.add_sub_cancel_left]
    rfl

end

end Bootloader.Heap
