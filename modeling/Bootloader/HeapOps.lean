import Bootloader.HeapAlloc

/-!
# The heap functions on a well-formed heap

`Heap.Inv`: the blocks tile the heap, of two neighbours one is used, `lfree` and `used_mem` are right. Each function
returns on such a heap and leaves one; what it does to the used blocks is one insertion, one removal or one new size
in their list.
-/

namespace Bootloader.Heap

open Tile

variable {h h' : Heap} {a b : Tile} {l r bs bs' : List Tile} {n o s size fuel : Nat} {low : Prop}

/-- The bytes of the used blocks. -/
def bytes (us : List (Nat × Nat)) : Nat := (us.map Prod.snd).sum

theorem bytes_middle (A B : List (Nat × Nat)) (o s : Nat) : bytes (A ++ (o, s) :: B) = s + bytes (A ++ B) := by
  simp only [bytes, List.map_append, List.map_cons, List.sum_append, List.sum_cons]
  omega

/-- A well-formed heap; with `low` no free block stands before `lfree`. -/
structure Inv (low : Prop) (h : Heap) (bs : List Tile) : Prop where
  shape : Shape h bs
  solid : Solid bs
  lfree : LFree low h bs
  usedMem : h.usedMem = bytes (usedFrom 0 bs)
  maxMem : h.usedMem ≤ h.maxMem
  /-- The data of a used block starts before the end entry, also if there is none of it. -/
  inside : ∀ o s, (o, s) ∈ usedFrom 0 bs → o < h.memSizeAligned
  /-- Where nothing is used `lfree` is at the start. -/
  home : usedFrom 0 bs = [] → h.lfree = h.heapPtr

theorem Inv.mono {low' : Prop} (hi : Inv low h bs) (hl : low' → low) : Inv low' h bs := by
  obtain ⟨w, hw, l, r, he, ht, hh, hlow⟩ := hi.lfree
  exact ⟨hi.shape, hi.solid, ⟨w, hw, l, r, he, ht, hh, fun h => hlow (hl h)⟩, hi.usedMem, hi.maxMem, hi.inside,
    hi.home⟩

theorem bytes_le_total (p : Nat) (bs : List Tile) : bytes (usedFrom p bs) ≤ total bs := by
  induction bs generalizing p with
  | nil => exact Nat.le_refl 0
  | cons b bs ih =>
    have := ih (p + b.size)
    rw [usedFrom, total_cons]
    split
    · simp only [bytes, List.map_cons, List.sum_cons] at this ⊢
      omega
    · omega

theorem Roomy.length_le (hr : Roomy l) : 16 * l.length ≤ total l := by
  induction l with
  | nil => exact Nat.le_refl 0
  | cons b l ih =>
    have hb : 16 ≤ b.size := hr b List.mem_cons_self
    have := ih fun x hx => hr x (List.mem_cons_of_mem b hx)
    rw [total_cons, List.length_cons]
    omega

theorem Shape.length_lt_fuel (hs : Shape h (l ++ r)) : r.length < h.fuel := by
  have hr : Roomy r := fun b hb => hs.roomy b (List.mem_append_right l hb)
  have hl := hr.length_le
  have ht := hs.total_eq
  rw [total_append, sizeofStructMem] at ht
  rw [fuel]
  omega

theorem Shape.dvd_total (hs : Shape h (l ++ r)) : 8 ∣ total l := by
  have hl : ∀ b ∈ l, 8 ∣ b.size := fun b hb => hs.aligned b (List.mem_append_left r hb)
  clear hs
  induction l with
  | nil => exact Nat.dvd_zero 8
  | cons b l ih =>
    rw [total_cons]
    exact Nat.dvd_add (hl b List.mem_cons_self) (ih fun x hx => hl x (List.mem_cons_of_mem b hx))

/-! ### The walks along the chain -/

/-- What `rt_malloc` takes for `size` bytes: a free block with room for them that does not start at the far end. -/
def Fits (h : Heap) (size p : Nat) (b : Tile) : Prop :=
  b.used = false ∧ size + sizeofStructMem ≤ b.size ∧ p + size < h.memSizeAligned

/-- None of the blocks `bs` from `p` on fits. -/
def NoFit (h : Heap) (size p : Nat) (bs : List Tile) : Prop := ∀ l b r, bs = l ++ b :: r → ¬ Fits h size (p + total l) b

theorem noFit_cons {p : Nat} (hb : ¬ Fits h size p b) (hr : NoFit h size (p + b.size) r) : NoFit h size p (b :: r) := by
  rintro l c r' he hf
  rcases l with _ | ⟨d, l⟩
  · obtain ⟨rfl, rfl⟩ := List.cons.inj he
    exact hb hf
  · obtain ⟨rfl, rfl⟩ := List.cons.inj he
    refine hr l c r' rfl ?_
    rwa [total_cons, ← Nat.add_assoc] at hf

/-- Used blocks do not fit. -/
theorem noFit_append (hl : ∀ x ∈ l, x.used = true) (hr : NoFit h size (total l) r) : NoFit h size 0 (l ++ r) := by
  rintro l₁ b r₁ he hf
  obtain ⟨t, rfl, rfl⟩ | ⟨t, rfl, ht⟩ := List.append_eq_append_iff.1 he
  · rw [Nat.zero_add, total_append] at hf
    exact hr t b r₁ rfl hf
  · cases t with
    | nil =>
      rw [List.nil_append] at ht
      rw [List.append_nil] at hr
      rw [Nat.zero_add] at hf
      exact hr [] b r₁ (by rw [← ht]; rfl) (by rwa [total_nil, Nat.add_zero])
    | cons c t =>
      obtain ⟨rfl, -⟩ := List.cons.inj ht
      exact absurd (hl b (by simp)) (by rw [hf.1]; exact Bool.false_ne_true)

/-- First fit: the search finds the first block that fits, and it ends. -/
theorem search_spec (hs : Shape h (l ++ r)) (hsize : size ≤ h.memSizeAligned) (hf : r.length < fuel) :
    (h.search size fuel (total l) = some none ∧ NoFit h size (total l) r) ∨
      ∃ l' b r', r = l' ++ b :: r' ∧ h.search size fuel (total l) = some (some (total (l ++ l'))) ∧
        Fits h size (total (l ++ l')) b ∧ NoFit h size (total l) l' := by
  have hlt := hs.total_lt
  have hsub : sub32 h.memSizeAligned size = h.memSizeAligned - size := sub32_eq hsize (by have := hs.bound; omega)
  induction r generalizing l fuel with
  | nil =>
    obtain ⟨fuel, rfl⟩ : ∃ k, fuel = k + 1 := Nat.exists_eq_succ_of_ne_zero (by omega)
    have ht := hs.total_eq
    rw [List.append_nil] at ht
    rw [search, hsub, if_neg (by omega)]
    exact .inl ⟨rfl, fun l b r he => by simp at he⟩
  | cons b r ih =>
    obtain ⟨fuel, rfl⟩ : ∃ k, fuel = k + 1 := Nat.exists_eq_succ_of_ne_zero (by omega)
    have hb : 16 ≤ b.size := hs.room
    simp only [total_append, total_cons] at hlt
    rw [search, hsub]
    by_cases hp : total l < h.memSizeAligned - size
    · have hget : h.get (h.at_ (total l)) = header b (total l) (lastStart 0 0 l) := hs.get_eq
      have hnext : sub32 (total l + b.size) (total l + sizeofStructMem) = b.size - 16 := by
        rw [sub32_eq (by rw [sizeofStructMem]; omega) (by omega), sizeofStructMem]
        omega
      rw [if_pos hp]
      simp only [hget, header, hnext]
      by_cases hfit : Fits h size (total l) b
      · obtain ⟨hu, hsz, -⟩ := id hfit
        rw [sizeofStructMem] at hsz
        rw [if_pos ⟨by rw [hu]; rfl, by omega⟩]
        exact .inr ⟨[], b, r, rfl, by rw [List.append_nil], by rw [List.append_nil]; exact hfit,
          fun l b r he => by simp at he⟩
      · rw [if_neg fun hc => hfit ⟨?_, ?_, by omega⟩]
        · have hs' : Shape h ((l ++ [b]) ++ r) := by simpa using hs
          have ht : total (l ++ [b]) = total l + b.size := by simp
          rw [List.length_cons] at hf
          obtain ⟨he, hno⟩ | ⟨l', c, r', rfl, he, hc, hno⟩ := ih hs' (show r.length < fuel by omega) hs'.total_lt
          · rw [ht] at he hno
            exact .inl ⟨he, noFit_cons hfit hno⟩
          · rw [List.append_assoc, List.singleton_append] at he hc
            rw [ht] at he hno
            exact .inr ⟨b :: l', c, r', rfl, he, hc, noFit_cons hfit hno⟩
        · by_contra hu
          rw [Bool.not_eq_false] at hu
          rw [hu] at hc
          exact absurd hc.1 Nat.one_ne_zero
        · have := hc.2
          rw [sizeofStructMem]
          omega
    · rw [if_neg hp]
      refine .inl ⟨rfl, fun l' c r' _ hc => ?_⟩
      have := hc.2.2
      omega

/-- The walk of `lfree` ends at the first free block or the end. -/
theorem nextFree_spec (hs : Shape h (l ++ r)) (hf : r.length < fuel) :
    ∃ l' r', r = l' ++ r' ∧ h.nextFree fuel (h.heapPtr + total l) = some (h.heapPtr + total (l ++ l')) ∧
      (∀ x ∈ l', x.used = true) ∧ ∀ x ∈ r'.head?, x.used = false := by
  induction r generalizing l fuel with
  | nil =>
    obtain ⟨fuel, rfl⟩ : ∃ k, fuel = k + 1 := Nat.exists_eq_succ_of_ne_zero (by omega)
    have he : h.heapPtr + total l = h.heapEnd := by rw [hs.end_eq_total, List.append_nil]
    rw [nextFree, if_neg fun hc => hc.2 he]
    exact ⟨[], [], rfl, by rw [List.append_nil], fun x hx => by simp at hx, fun x hx => by simp at hx⟩
  | cons b r ih =>
    obtain ⟨fuel, rfl⟩ : ∃ k, fuel = k + 1 := Nat.exists_eq_succ_of_ne_zero (by omega)
    have hb : 16 ≤ b.size := hs.room
    have he := hs.end_eq_total
    simp only [total_append, total_cons] at he
    rw [nextFree, hs.get_eq]
    cases hu : b.used with
    | false =>
      rw [if_neg fun hc => hc.1 (by rw [header, hu]; rfl)]
      refine ⟨[], b :: r, rfl, by rw [List.append_nil], fun x hx => by simp at hx, fun x hx => ?_⟩
      rw [List.head?_cons, Option.mem_some_iff] at hx
      exact hx ▸ hu
    | true =>
      rw [if_pos ⟨by rw [header, hu]; exact Nat.one_ne_zero, by omega⟩]
      have hs' : Shape h ((l ++ [b]) ++ r) := by simpa using hs
      rw [List.length_cons] at hf
      obtain ⟨l', r', rfl, hn, hl', hh⟩ := ih hs' (show r.length < fuel by omega)
      rw [total_append, total_cons, total_nil, Nat.add_zero, List.append_assoc, List.singleton_append] at hn
      refine ⟨b :: l', r', rfl, hn, fun x hx => ?_, hh⟩
      rcases List.mem_cons.1 hx with rfl | hx
      · exact hu
      · exact hl' x hx

/-! ### The functions -/

/-- What a function has made of the heap: the blocks are now `bs'`, the used ones `us'`, and those have the data they
had. -/
structure Becomes (low : Prop) (h h' : Heap) (bs' : List Tile) (us' : List (Nat × Nat)) : Prop where
  inv : Inv low h' bs'
  used : usedFrom 0 bs' = us'
  data : SameData h.mem h'.mem h.heapPtr us'
  heapPtr : h'.heapPtr = h.heapPtr
  memSizeAligned : h'.memSizeAligned = h.memSizeAligned

theorem advance_spec (low : Prop) (hs : Shape h (l ++ ⟨s, true⟩ :: r))
    (hl : h.lfree = h.heapPtr + total l ∧ (low → ∀ x ∈ l, x.used = true) ∨
      h.lfree ≠ h.heapPtr + total l ∧ LFree low h (l ++ ⟨s, true⟩ :: r)) :
    ∃ x, h.advance (h.heapPtr + total l) = some { h with lfree := x } ∧
      LFree low { h with lfree := x } (l ++ ⟨s, true⟩ :: r) := by
  rw [advance]
  obtain ⟨he, hlow⟩ | ⟨hne, hl⟩ := hl
  · obtain ⟨l', r', hr, hn, hl', hh⟩ := nextFree_spec hs hs.length_lt_fuel
    rw [if_pos he.symm, he, hn, Option.bind_eq_bind, Option.bind_some, rtAssert_bind]
    · refine ⟨_, rfl, total (l ++ l'), rfl, l ++ l', r', by rw [hr, List.append_assoc], rfl, hh, fun hl x hx => ?_⟩
      obtain hx | hx := List.mem_append.1 hx
      · exact hlow hl x hx
      · exact hl' x hx
    · rw [hr, ← List.append_assoc] at hs
      cases r' with
      | nil => exact .inl (by rw [hs.end_eq_total, List.append_nil])
      | cons c r' =>
        rw [hs.get_eq, header, hh c (List.head?_cons ..)]
        exact .inr rfl
  · rw [if_neg (Ne.symm hne)]
    exact ⟨h.lfree, rfl, hl⟩

theorem granted_spec (size : Nat) : minSizeAligned ≤ granted size ∧ rtAlign size ≤ granted size ∧ 8 ∣ granted size := by
  rw [granted]
  split
  · exact ⟨Nat.le_refl _, by omega, by decide⟩
  · exact ⟨by omega, Nat.le_refl _, Nat.dvd_mul_left 8 _⟩

theorem granted_le (hs : Shape h bs) (hsize : rtAlign size ≤ h.memSizeAligned) : granted size ≤ h.memSizeAligned := by
  have := hs.min_size
  rw [granted]
  split
  · exact this
  · exact hsize

theorem usedFrom_free_middle : usedFrom 0 (l ++ ⟨n, false⟩ :: r) = usedFrom 0 l ++ usedFrom (total l + n) r := by
  rw [usedFrom_append, usedFrom_cons_free rfl, Nat.zero_add]

theorem mallocAt_spec (hi : Inv low h (l ++ ⟨n, false⟩ :: r)) (h8 : 8 ∣ size) (hmin : 16 ≤ size)
    (hfit : size + 16 ≤ n) :
    ∃ h' bs' s, h.mallocAt (total l) size = some (h.heapPtr + total l + 16, h') ∧ size + 16 ≤ s ∧
      Becomes low h h' bs' (usedFrom 0 l ++ (total l, s) :: usedFrom (total l + n) r) := by
  have hlt := hi.shape.total_lt
  have hend := hi.shape.end_eq_total
  simp only [total_append, total_cons] at hlt hend
  obtain ⟨m', s, rest, ht, hrest, hs', hd⟩ := takeBlock_spec hi.shape h8 hfit
  have hsr : s + total rest = n := by
    obtain ⟨rfl, rfl⟩ | ⟨rfl, -, hsn⟩ := hrest
    · rfl
    · simp only [total_cons, total_nil]
      omega
  have hsize : size + 16 ≤ s := by omega
  have hused : usedFrom 0 (l ++ ⟨s, true⟩ :: (rest ++ r)) =
      usedFrom 0 l ++ (total l, s) :: usedFrom (total l + n) r := by
    have hr : usedFrom (total l + s) rest = [] := by
      obtain ⟨rfl, -⟩ | ⟨rfl, -⟩ := hrest
      · rfl
      · rfl
    rw [usedFrom_append, usedFrom_cons_used rfl, usedFrom_append, Nat.zero_add, hr, List.nil_append, Nat.add_assoc, hsr]
  have hsolid : Solid (l ++ ⟨s, true⟩ :: (rest ++ r)) := by
    refine hi.solid.of_append_left.around_used ?_ rfl
    have hr : Solid r := hi.solid.of_append_right.of_append_right (l := [_])
    obtain ⟨rfl, -⟩ | ⟨rfl, -⟩ := hrest
    · exact hr
    · exact Solid.around_free (l := []) .nil hr (fun x hx => by simp at hx) (hi.solid.head_used rfl)
  obtain ⟨w, hw, hfree⟩ := hi.lfree
  have hpos : ∀ b ∈ l, 0 < b.size := fun b hb => Nat.lt_of_lt_of_le (by decide) (hi.shape.roomy b (by simp [hb]))
  have hs₂ : Shape (({ h with mem := m' } : Heap).addUsed s) (l ++ ⟨s, true⟩ :: (rest ++ r)) :=
    ⟨hs'.closed, hs'.roomy, hs'.aligned, hs'.total_eq, hs'.end_eq, hs'.bound, hs'.ptr_aligned, hs'.min_size⟩
  obtain ⟨x, hx, hl⟩ := advance_spec low hs₂ (by
    obtain ⟨rfl, hlow⟩ | ⟨hne, hfree⟩ := hfree.take hpos (by omega) hsr
    · exact .inl ⟨hw, hlow⟩
    · refine .inr ⟨?_, w, hw, hfree⟩
      intro hc
      exact hne (Nat.add_left_cancel (hw.symm.trans hc)))
  have h8l : 8 ∣ h.heapPtr + total l := Nat.dvd_add hi.shape.ptr_aligned hi.shape.dvd_total
  have hbytes : add32 h.usedMem s = bytes (usedFrom 0 (l ++ ⟨s, true⟩ :: (rest ++ r))) := by
    have hle := bytes_le_total 0 (l ++ ⟨s, true⟩ :: (rest ++ r))
    have htot := hs'.total_lt
    rw [hused, bytes_middle, ← usedFrom_free_middle, ← hi.usedMem] at hle ⊢
    rw [add32_eq (by omega), Nat.add_comm]
  refine ⟨{ ({ h with mem := m' } : Heap).addUsed s with lfree := x }, _, s, ?_, hsize,
    ⟨⟨hs₂.with hs₂.closed hs₂.roomy hs₂.aligned rfl _ _ _, hsolid, hl, hbytes, ?_, ?_, ?_⟩,
      hused, hused ▸ hd, rfl, rfl⟩⟩
  · have hend' : h.heapPtr + total l + sizeofStructMem + size ≤ h.heapEnd := by
      rw [hend, sizeofStructMem]
      omega
    have ha : (h.takeBlock (total l) size).advance (h.at_ (total l)) = _ := (congrArg (advance · _) ht).trans hx
    rw [mallocAt]
    simp only [ha, Option.bind_eq_bind, Option.bind_some]
    have h8' : (h.heapPtr + total l) % 8 = 0 := Nat.mod_eq_zero_of_dvd h8l
    exact (rtAssert_bind hend' _).trans ((rtAssert_bind (by rw [sizeofStructMem, at_]; omega) _).trans
      (rtAssert_bind h8' _))
  · simp only [addUsed]
    split
    · exact Nat.le_refl _
    · omega
  · intro o k ho
    rw [hused] at ho
    rcases List.mem_append.1 ho with ho | ho
    · exact hi.inside o k (by rw [usedFrom_free_middle]; exact List.mem_append_left _ ho)
    · rcases List.mem_cons.1 ho with ho | ho
      · obtain ⟨rfl, rfl⟩ := Prod.mk.inj ho
        have ht := hi.shape.total_eq
        simp only [total_append, total_cons, sizeofStructMem] at ht
        exact (show total l < h.memSizeAligned by omega)
      · exact hi.inside o k (by rw [usedFrom_free_middle]; exact List.mem_append_right _ ho)
  · intro hnone
    rw [hused] at hnone
    simp at hnone

/-- `rt_malloc` takes the first block behind `lfree` that fits, or returns `RT_NULL` if none does. -/
theorem rtMallocEx_spec (hi : Inv low h bs) (h0 : size ≠ 0) (hsize : rtAlign size ≤ h.memSizeAligned) :
    ∃ l r, bs = l ++ r ∧ (low → ∀ x ∈ l, x.used = true) ∧
      (h.rtMallocEx size = some (0, h) ∧ NoFit h (granted size) (total l) r ∨
        ∃ l' b r', r = l' ++ b :: r' ∧ Fits h (granted size) (total (l ++ l')) b ∧
          NoFit h (granted size) (total l) l' ∧
          ∃ h' bs' s A B, h.rtMallocEx size = some (h.heapPtr + total (l ++ l') + 16, h') ∧ usedFrom 0 bs = A ++ B ∧
            granted size + 16 ≤ s ∧ Becomes low h h' bs' (A ++ (total (l ++ l'), s) :: B)) := by
  obtain ⟨w, hw, l, r, rfl, rfl, hh, hlow⟩ := hi.lfree
  obtain ⟨hmin, -, h8⟩ := granted_spec size
  have hlf : sub32 h.lfree h.heapPtr = total l := by
    have := hi.shape.total_lt
    rw [total_append] at this
    rw [hw, sub32_eq (Nat.le_add_right _ _) (by omega), Nat.add_sub_cancel_left]
  refine ⟨l, r, rfl, hlow, ?_⟩
  rw [rtMallocEx, rtAssert_bind h0, rtAssert_bind hsize, hlf]
  obtain ⟨he, hno⟩ | ⟨l', b, r', rfl, he, hfit, hno⟩ :=
    search_spec hi.shape (granted_le hi.shape hsize) hi.shape.length_lt_fuel
  · rw [he]
    exact .inl ⟨rfl, hno⟩
  · obtain ⟨n, u⟩ := b
    have ⟨hu, hn, _⟩ := hfit
    cases hu
    rw [← List.append_assoc] at hi
    obtain ⟨h', bs', s, hm, hs, hb⟩ := mallocAt_spec hi h8 hmin hn
    refine .inr ⟨l', _, r', rfl, hfit, hno, h', bs', s, _, _, ?_, ?_, hs, hb⟩
    · rw [he]
      exact hm
    · rw [← List.append_assoc, usedFrom_free_middle]

/-- `rt_free` takes a used block back. -/
theorem rtFree_spec (hi : Inv low h bs) (hu : (o, s) ∈ usedFrom 0 bs) :
    ∃ h' bs' A B, h.rtFree (h.heapPtr + o + 16) = some h' ∧ usedFrom 0 bs = A ++ (o, s) :: B ∧
      Becomes low h h' bs' (A ++ B) := by
  obtain ⟨l, r, rfl, ho⟩ := mem_usedFrom_iff.1 hu
  rw [Nat.zero_add] at ho
  subst ho
  have hlt := hi.shape.total_lt
  have hend := hi.shape.end_eq_total
  simp only [total_append, total_cons] at hlt hend
  have hroom : 16 ≤ s := hi.shape.room
  have hused : usedFrom 0 (l ++ ⟨s, true⟩ :: r) = usedFrom 0 l ++ (total l, s) :: usedFrom (total l + s) r := by
    rw [usedFrom_append, usedFrom_cons_used rfl, Nat.zero_add]
  have h8l : (h.heapPtr + total l) % 8 = 0 :=
    Nat.mod_eq_zero_of_dvd (Nat.dvd_add hi.shape.ptr_aligned hi.shape.dvd_total)
  have hget : h.get (h.heapPtr + total l) = header ⟨s, true⟩ (total l) (lastStart 0 0 l) := hi.shape.get_eq
  -- the block is free now
  obtain ⟨hs₁, hd₁⟩ := setUsed_spec hi.shape false rfl
  obtain ⟨hs₂, hd₂⟩ := setMagic_spec hs₁
  rw [usedFrom_free_middle] at hd₁ hd₂
  set g := (h.setUsed (h.heapPtr + total l) 0).setMagic (h.heapPtr + total l) heapMagic with hg
  have hnext : sub32 ((g.get (h.heapPtr + total l)).next) (sub32 (h.heapPtr + total l) h.heapPtr) = s := by
    have hgn : g.get (h.heapPtr + total l) = header ⟨s, false⟩ (total l) (lastStart 0 0 l) := hs₂.get_eq
    rw [hgn, sub32_eq (b := h.heapPtr) (by omega) (by omega), Nat.add_sub_cancel_left]
    change sub32 (total l + s) (total l) = s
    rw [sub32_eq (by omega) (by omega), Nat.add_sub_cancel_left]
  set g₁ : Heap := { g with
    lfree := if h.heapPtr + total l < g.lfree then h.heapPtr + total l else g.lfree
    usedMem := sub32 g.usedMem s } with hg₁
  have hs₃ : Shape g₁ (l ++ ⟨s, false⟩ :: r) := hs₂.with hs₂.closed hs₂.roomy hs₂.aligned rfl _ _ _
  have hlf : LFree low g₁ (l ++ ⟨s, false⟩ :: r) := by
    obtain ⟨w, hw, hfree⟩ := hi.lfree
    refine ⟨_, ?_, hfree.release (by omega)⟩
    change (if h.heapPtr + total l < h.lfree then h.heapPtr + total l else h.lfree) = h.heapPtr + _
    rw [hw]
    by_cases hc : total l < w
    · rw [if_pos hc, if_pos (by omega)]
    · rw [if_neg hc, if_neg (by omega)]
  obtain ⟨h', bs', hp, hj, hsol⟩ := plugHoles_spec hs₃ hi.solid.of_append_left
    (hi.solid.of_append_right.of_append_right (l := [_]))
  have hsame := hj.same
  have husedMem : h'.usedMem = sub32 h.usedMem s := by rw [hsame]; rfl
  have hbytes : h.usedMem = s + bytes (usedFrom 0 l ++ usedFrom (total l + s) r) := by
    rw [hi.usedMem, hused, bytes_middle]
  have hle := bytes_le_total 0 (l ++ ⟨s, true⟩ :: r)
  rw [← hi.usedMem] at hle
  simp only [total_append, total_cons] at hle
  have hsub : sub32 h.usedMem s = bytes (usedFrom 0 l ++ usedFrom (total l + s) r) := by
    rw [sub32_eq (by omega) (by omega), hbytes, Nat.add_sub_cancel_left]
  have hmax : h'.maxMem = h.maxMem := by rw [hsame]; rfl
  have hin := hi.inside _ _ hu
  have htot := hi.shape.total_eq
  simp only [total_append, total_cons, sizeofStructMem] at htot
  have hused' : usedFrom 0 bs' = usedFrom 0 l ++ usedFrom (total l + s) r := by rw [hj.used, usedFrom_free_middle]
  refine ⟨h', bs', _, _, ?_, hused, ⟨hj.shape, hsol, hj.lfree low hlf, ?_, ?_, ?_, ?_⟩, hused', ?_, ?_, ?_⟩
  · have hmem : h.heapPtr + total l + 16 - sizeofStructMem = h.heapPtr + total l := Nat.add_sub_cancel ..
    rw [rtFree, if_neg (by omega), rtAssert_bind (by omega), rtAssert_bind (by omega)]
    simp only [hmem, hget]
    refine (rtAssert_bind (by rw [header]; exact Nat.one_ne_zero) _).trans ((rtAssert_bind rfl _).trans ?_)
    simp only [← hg]
    rw [← hp, hg₁, ← hnext]
    congr 1
    split
    · rfl
    · rfl
  · rw [husedMem, hsub, hused']
  · rw [husedMem, hsub, hmax]
    have := hi.maxMem
    omega
  · intro o k ho
    rw [hsame]
    refine hi.inside o k ?_
    rw [hused, List.mem_append, List.mem_cons]
    rw [hused', List.mem_append] at ho
    obtain ho | ho := ho
    · exact .inl ho
    · exact .inr (.inr ho)
  · -- `lfree` is not at the end, and so at the only block
    intro hnone
    have hle := hj.lfree_le
    have hg₁le : g₁.lfree ≤ h.heapPtr + total l := by
      change (if h.heapPtr + total l < h.lfree then h.heapPtr + total l else h.lfree) ≤ _
      split
      · exact Nat.le_refl _
      · omega
    obtain ⟨w, hw, l₁, r₁, he, rfl, -⟩ := hj.lfree low hlf
    have ht := hj.shape.total_eq
    have hm : h'.memSizeAligned = h.memSizeAligned := by
      rw [hsame]
      rfl
    have hbase : h'.heapPtr = h.heapPtr := hj.heapPtr_eq
    rw [hm, sizeofStructMem] at ht
    rw [hbase] at hw ⊢
    have hne : bs' ≠ [] := by
      rintro rfl
      rw [total_nil] at ht
      omega
    rw [hsol.eq_singleton hnone hne] at he
    cases l₁ with
    | nil => rw [hw, total_nil, Nat.add_zero]
    | cons c l₁ =>
      obtain ⟨rfl, he⟩ := List.cons.inj he
      simp only [total_cons] at hw
      omega
  · have hd₃ := hj.data
    rw [usedFrom_free_middle] at hd₃
    exact hd₁.trans (hd₂.trans hd₃)
  · exact hj.heapPtr_eq
  · rw [hsame]
    rfl

/-- `rt_realloc` in place: the used block keeps `newsize` bytes, the rest is free and joined with the block behind. -/
theorem shrink_spec {newsize : Nat} (hi : Inv low h bs) (hu : (o, s) ∈ usedFrom 0 bs) (h8 : 8 ∣ newsize)
    (hfit : newsize + 32 ≤ s) :
    ∃ h' bs' A B, h.shrink o (s - 16) newsize = some h' ∧ usedFrom 0 bs = A ++ (o, s) :: B ∧
      Becomes False h h' bs' (A ++ (o, 16 + newsize) :: B) := by
  obtain ⟨l, r, rfl, ho⟩ := mem_usedFrom_iff.1 hu
  rw [Nat.zero_add] at ho
  subst ho
  have hlt := hi.shape.total_lt
  have htot := hi.shape.total_eq
  simp only [total_append, total_cons] at hlt htot
  have hused : usedFrom 0 (l ++ ⟨s, true⟩ :: r) = usedFrom 0 l ++ (total l, s) :: usedFrom (total l + s) r := by
    rw [usedFrom_append, usedFrom_cons_used rfl, Nat.zero_add]
  have hroom : Roomy l := fun c hc => hi.shape.roomy c (by simp [hc])
  have hroom' : Roomy r := fun c hc => hi.shape.roomy c (by simp [hc])
  set g : Heap := { h with usedMem := sub32 h.usedMem (sub32 (s - 16) newsize) } with hg
  have hsg : Shape g (l ++ ⟨s, true⟩ :: r) :=
    hi.shape.with hi.shape.closed hi.shape.roomy hi.shape.aligned rfl _ _ _
  obtain ⟨m₁, he₁, hh, hd₁⟩ := insertRest_spec hsg hfit
  have ht₁ : total l + s + total r = h.memSizeAligned + sizeofStructMem := by rw [← htot, Nat.add_assoc]
  have hlt₁ : h.memSizeAligned + sizeofStructMem < 2 ^ 32 := by rw [← ht₁]; omega
  obtain ⟨m₂, he₂, hc, hd₂⟩ := linkRest_spec (h := { g with mem := m₁ }) hh hroom hroom' (by omega) (by omega) ht₁ hlt₁
  set g₂ : Heap := { g with mem := m₂ } with hg₂
  have hs₂ : Shape g₂ (l ++ ⟨16 + newsize, true⟩ :: ⟨s - (16 + newsize), false⟩ :: r) :=
    hsg.with hc (roomy_split hsg.roomy (by omega) (by omega))
      (aligned_split hsg.aligned ((Nat.dvd_add_right (by decide)).2 h8)) (by simp; omega) _ _ _
  rw [List.append_cons] at hs₂
  have hsol : Solid (l ++ [⟨16 + newsize, true⟩]) := hi.solid.of_append_left.around_used .nil rfl
  obtain ⟨h', bs', hp, hj, hsol'⟩ := plugHoles_spec hs₂ hsol
    (hi.solid.of_append_right.of_append_right (l := [_]))
  have hsame := hj.same
  have hused' : usedFrom 0 bs' =
      usedFrom 0 l ++ (total l, 16 + newsize) :: usedFrom (total l + s) r := by
    rw [hj.used, ← List.append_cons, usedFrom_append, usedFrom_cons_used rfl, usedFrom_cons_free rfl, Nat.zero_add]
    simp only [show total l + (16 + newsize) + (s - (16 + newsize)) = total l + s by omega]
  have hlf : LFree False g₂ ((l ++ [⟨16 + newsize, true⟩]) ++ ⟨s - (16 + newsize), false⟩ :: r) := by
    obtain ⟨w, hw, hfree⟩ := hi.lfree
    rw [← List.append_cons]
    exact ⟨w, hw, hfree.shrink (by omega)⟩
  have hbytes : h.usedMem = s + bytes (usedFrom 0 l ++ usedFrom (total l + s) r) := by
    rw [hi.usedMem, hused, bytes_middle]
  have hle := bytes_le_total 0 (l ++ ⟨s, true⟩ :: r)
  rw [← hi.usedMem] at hle
  simp only [total_append, total_cons] at hle
  have husedMem : h'.usedMem = 16 + newsize + bytes (usedFrom 0 l ++ usedFrom (total l + s) r) := by
    rw [hsame]
    change sub32 h.usedMem (sub32 (s - 16) newsize) = _
    rw [sub32_eq (b := newsize) (by omega) (by omega), sub32_eq (by omega) (by omega)]
    omega
  refine ⟨h', bs', _, _, ?_, hused, ⟨hj.shape, hsol', hj.lfree _ hlf, ?_, ?_, ?_, ?_⟩, hused', ?_, ?_, ?_⟩
  · rw [shrink, sizeofStructMem, Nat.add_assoc]
    simp only [← hg, he₁, he₂]
    rw [total_append, total_cons, total_nil, Nat.add_zero] at hp
    exact hp
  · rw [husedMem, hused', bytes_middle]
  · rw [husedMem, hsame]
    have := hi.maxMem
    change _ ≤ h.maxMem
    omega
  · intro o k ho
    rw [hused'] at ho
    rw [hsame]
    rcases List.mem_append.1 ho with ho | ho
    · exact hi.inside o k (by rw [hused]; exact List.mem_append_left _ ho)
    · rcases List.mem_cons.1 ho with ho | ho
      · obtain ⟨rfl, rfl⟩ := Prod.mk.inj ho
        exact hi.inside _ _ hu
      · exact hi.inside o k (by rw [hused]; exact List.mem_append_right _ (List.mem_cons_of_mem _ ho))
  · intro hnone
    rw [hused'] at hnone
    simp at hnone
  · have hd₃ := hj.data
    rw [← hj.used, hused'] at hd₃
    have hu₁ := hd₁ true
    rw [List.append_cons, ← hj.used, hused'] at hu₁ hd₂
    exact hu₁.trans (hd₂.trans hd₃)
  · exact hj.heapPtr_eq
  · rw [hsame]

/-- Writing the data of a used block leaves the heap well-formed. -/
theorem Inv.write_data {m' : Mem} (hi : Inv low h bs) (hu : (o, s) ∈ usedFrom 0 bs)
    (hm : ∀ x, x < h.heapPtr + o + 16 ∨ h.heapPtr + o + s ≤ x → m' x = h.mem x) : Inv low { h with mem := m' } bs := by
  obtain ⟨l, r, rfl, ho⟩ := mem_usedFrom_iff.1 hu
  rw [Nat.zero_add] at ho
  subst ho
  obtain ⟨hl, hb, hr⟩ := closed_append.1 hi.shape.closed
  have hroom : 16 ≤ s := hi.shape.room
  simp only [Nat.zero_add] at hl hb hr
  have hc : Closed m' h.heapPtr 0 0 (l ++ ⟨s, true⟩ :: r) := by
    refine closed_append.2 ⟨?_, ?_, ?_⟩
    · exact hl.congr (fun c hc => hi.shape.roomy c (by simp [hc])) fun x _ hx => hm x (.inl (by omega))
    · rw [Nat.zero_add]
      exact (hdr_congr fun x _ hx => hm x (.inl (by omega))).trans hb
    · rw [Nat.zero_add]
      exact hr.congr (fun c hc => hi.shape.roomy c (by simp [hc])) fun x hx _ => hm x (.inr (by omega))
  exact ⟨hi.shape.with hc hi.shape.roomy hi.shape.aligned rfl _ _ _, hi.solid, hi.lfree, hi.usedMem, hi.maxMem,
    hi.inside, hi.home⟩

/-! ### The initial heap -/

/-- `rt_system_heap_init` makes one free block of all there is. -/
theorem rtSystemHeapInit_spec {m : Mem} {beginAddr endAddr : Nat} (he : endAddr < 2 ^ 32)
    (hroom : rtAlign beginAddr + 48 ≤ rtAlignDown endAddr) (hh : rtSystemHeapInit m beginAddr endAddr = some h) :
    Inv True h [⟨h.memSizeAligned + 16, false⟩] ∧ h.lfree = h.heapPtr ∧
      h.get h.heapPtr = ⟨heapMagic, 0, h.memSizeAligned + 16, 0⟩ := by
  have h8 : 8 ∣ rtAlign beginAddr := Nat.dvd_mul_left 8 _
  have h8' : 8 ∣ rtAlignDown endAddr := Nat.dvd_mul_left 8 _
  have hle : rtAlignDown endAddr ≤ endAddr := Nat.div_mul_le_self ..
  rw [rtSystemHeapInit, sizeofStructMem, if_pos ⟨by omega, by omega⟩, Option.some.injEq] at hh
  generalize rtAlign beginAddr = base at *
  generalize rtAlignDown endAddr = fin at *
  generalize hms : fin - base - 2 * 16 = ms at *
  set g₀ : Heap := ⟨m, base, base + (ms + 16), base, ms, 0, 0⟩ with hg₀
  set g := (((g₀.setMagic base heapMagic).setNext base (ms + 16)).setPrev base 0).setUsed base 0 with hg
  have hge : g.heapEnd = base + (ms + 16) := rfl
  rw [hge] at hh
  have hget : g.get base = ⟨heapMagic, 0, ms + 16, 0⟩ := by
    rw [hg, get_setUsed (by decide), get_setPrev (by decide), get_setNext (by omega), get_setMagic (by decide)]
  have hend : h.get (base + (ms + 16)) = ⟨heapMagic, 1, ms + 16, ms + 16⟩ := by
    rw [← hh, get_setPrev (by omega), get_setNext (by omega), get_setUsed (by decide), get_setMagic (by decide)]
  have hfirst : h.get base = ⟨heapMagic, 0, ms + 16, 0⟩ := by
    rw [← hget, ← hh, get_setPrev_ne (by omega), get_setNext_ne (by omega), get_setUsed_ne (by omega),
      get_setMagic_ne (by omega)]
  have hptr : h.heapPtr = base := by rw [← hh]; rfl
  have hmsa : h.memSizeAligned = ms := by rw [← hh]; rfl
  have hlf : h.lfree = base := by rw [← hh]; rfl
  have heq : h.heapEnd = base + (ms + 16) := by rw [← hh]; rfl
  have hum : h.usedMem = 0 := by rw [← hh]; rfl
  rw [hptr, hmsa, hlf]
  refine ⟨⟨⟨?_, ?_, ?_, ?_, ?_, ?_, ?_, ?_⟩, ?_, ?_, ?_, ?_, ?_, ?_⟩, rfl, hfirst⟩
  · rw [hptr]
    simp only [Closed, Nat.add_zero, Nat.zero_add]
    refine ⟨?_, congrArg HeapMem.used hend, congrArg HeapMem.next hend⟩
    exact hfirst.trans (by simp [header])
  · intro b hb
    rw [List.mem_singleton.1 hb, sizeofStructMem]
    exact Nat.le_add_left ..
  · intro b hb
    rw [List.mem_singleton.1 hb]
    change 8 ∣ ms + 16
    omega
  · rw [hmsa, total_cons, total_nil, sizeofStructMem]
  · rw [heq, hptr, hmsa, sizeofStructMem]
  · rw [hptr, hmsa]
    omega
  · rwa [hptr]
  · rw [hmsa, minSizeAligned]
    omega
  · exact List.IsChain.singleton _
  · refine ⟨0, by rw [hlf, hptr, Nat.add_zero], freeAt_of_free (l := []) rfl fun _ x hx => by simp at hx⟩
  · rw [hum]
    rfl
  · rw [hum]
    exact Nat.zero_le _
  · intro o s ho
    rw [usedFrom_cons_free rfl] at ho
    exact absurd ho List.not_mem_nil
  · intro _
    rw [hlf, hptr]

end Bootloader.Heap
