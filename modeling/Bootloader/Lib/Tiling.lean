import Mathlib

/-!
# Tilings of a range by used and free blocks

The blocks of a heap in the order of their addresses: each starts where the one before it ends. What an allocator
does to such a list: it splits a free block, marks a block, joins two free neighbours. `usedFrom p bs` are the
starts and sizes of the used blocks of `bs` laid out from `p` on; splitting and joining free blocks keep it.
-/

structure Tile where
  size : Nat
  used : Bool
deriving DecidableEq, Repr

namespace Tile

def total (bs : List Tile) : Nat := (bs.map size).sum

@[simp] theorem total_nil : total [] = 0 := rfl

@[simp] theorem total_cons (b : Tile) (bs : List Tile) : total (b :: bs) = b.size + total bs := by
  rw [total, List.map_cons, List.sum_cons, total]

@[simp] theorem total_append (l r : List Tile) : total (l ++ r) = total l + total r := by
  rw [total, List.map_append, List.sum_append, total, total]

/-- The starts and sizes of the used blocks. -/
def usedFrom : Nat → List Tile → List (Nat × Nat)
  | _, [] => []
  | p, b :: bs => if b.used then (p, b.size) :: usedFrom (p + b.size) bs else usedFrom (p + b.size) bs

variable {p o s w n k : Nat} {b : Tile} {l r bs : List Tile}

@[simp] theorem usedFrom_nil : usedFrom p [] = [] := rfl

theorem usedFrom_cons_used (hb : b.used = true) :
    usedFrom p (b :: bs) = (p, b.size) :: usedFrom (p + b.size) bs := if_pos hb

theorem usedFrom_cons_free (hb : b.used = false) : usedFrom p (b :: bs) = usedFrom (p + b.size) bs :=
  if_neg (by rw [hb]; exact Bool.false_ne_true)

theorem usedFrom_append : usedFrom p (l ++ r) = usedFrom p l ++ usedFrom (p + total l) r := by
  induction l generalizing p with
  | nil => rfl
  | cons b l ih =>
    rw [List.cons_append, usedFrom, usedFrom, ih, total_cons, Nat.add_assoc]
    split
    · rfl
    · rfl

/-- Two free neighbours and the block they make have the same used blocks around them. -/
theorem usedFrom_join :
    usedFrom p (l ++ ⟨n, false⟩ :: ⟨k, false⟩ :: r) = usedFrom p (l ++ ⟨n + k, false⟩ :: r) := by
  simp only [usedFrom_append, usedFrom_cons_free, Nat.add_assoc]

theorem mem_usedFrom_iff :
    (o, s) ∈ usedFrom p bs ↔ ∃ l r, bs = l ++ ⟨s, true⟩ :: r ∧ o = p + total l := by
  constructor
  · intro h
    induction bs generalizing p with
    | nil => exact absurd h List.not_mem_nil
    | cons b bs ih =>
      have hrest : (o, s) ∈ usedFrom (p + b.size) bs → ∃ l r, b :: bs = l ++ ⟨s, true⟩ :: r ∧ o = p + total l := by
        intro h
        obtain ⟨l, r, rfl, rfl⟩ := ih h
        exact ⟨b :: l, r, rfl, by rw [total_cons, Nat.add_assoc]⟩
      cases hb : b.used with
      | false => exact hrest (by rwa [usedFrom_cons_free hb] at h)
      | true =>
        rw [usedFrom_cons_used hb, List.mem_cons] at h
        obtain h | h := h
        · cases h
          refine ⟨[], bs, ?_, rfl⟩
          obtain ⟨s, u⟩ := b
          cases hb
          rfl
        · exact hrest h
  · rintro ⟨l, r, rfl, rfl⟩
    rw [usedFrom_append, usedFrom_cons_used rfl]
    exact List.mem_append_right _ List.mem_cons_self

/-- A place between two blocks. -/
def Boundary (bs : List Tile) (w : Nat) : Prop := ∃ l r, bs = l ++ r ∧ w = total l

theorem Boundary.le (h : Boundary bs w) : w ≤ total bs := by
  obtain ⟨l, r, rfl, rfl⟩ := h
  rw [total_append]
  exact Nat.le_add_right _ _

/-- No block lies across a boundary. -/
theorem Boundary.outside (h : Boundary bs w) (hu : (o, s) ∈ usedFrom 0 bs) : o + s ≤ w ∨ w ≤ o := by
  obtain ⟨l, r, rfl, rfl⟩ := h
  rw [usedFrom_append, Nat.zero_add, List.mem_append] at hu
  obtain hu | hu := hu
  · obtain ⟨l₁, l₂, rfl, rfl⟩ := mem_usedFrom_iff.1 hu
    left
    simp only [total_append, total_cons]
    omega
  · obtain ⟨l₁, l₂, rfl, rfl⟩ := mem_usedFrom_iff.1 hu
    exact .inr (Nat.le_add_right _ _)

theorem boundary_of_mem (hu : (o, s) ∈ usedFrom 0 bs) : Boundary bs o := by
  obtain ⟨l, r, rfl, rfl⟩ := mem_usedFrom_iff.1 hu
  exact ⟨l, _, rfl, Nat.zero_add _⟩

theorem end_le_of_mem (hu : (o, s) ∈ usedFrom 0 bs) : o + s ≤ total bs := by
  obtain ⟨l, r, rfl, rfl⟩ := mem_usedFrom_iff.1 hu
  simp only [total_append, total_cons]
  omega

/-- Used blocks with different starts do not overlap. -/
theorem disjoint_of_mem {o' s' : Nat} (hu : (o, s) ∈ usedFrom 0 bs) (hu' : (o', s') ∈ usedFrom 0 bs)
    (hne : o ≠ o') : o + s ≤ o' ∨ o' + s' ≤ o := by
  obtain h | h := (boundary_of_mem hu').outside hu
  · exact .inl h
  · obtain h' | h' := (boundary_of_mem hu).outside hu'
    · exact .inr h'
    · exact absurd (Nat.le_antisymm h' h) hne

theorem le_of_mem_usedFrom (hu : (o, s) ∈ usedFrom p bs) : p ≤ o := by
  obtain ⟨l, r, -, rfl⟩ := mem_usedFrom_iff.1 hu
  exact Nat.le_add_right _ _

/-- The used blocks in the order of their addresses. -/
theorem usedFrom_pairwise (p : Nat) (bs : List Tile) : (usedFrom p bs).Pairwise fun x y => x.1 + x.2 ≤ y.1 := by
  induction bs generalizing p with
  | nil => exact .nil
  | cons b bs ih =>
    rw [usedFrom]
    split
    · exact List.pairwise_cons.2 ⟨fun y hy => le_of_mem_usedFrom hy, ih _⟩
    · exact ih _

/-- No other used block has the start of one. -/
theorem start_ne {A B : List (Nat × Nat)} {o' s' : Nat} (hu : usedFrom p bs = A ++ (o, s) :: B) (hs : 0 < s)
    (hm : (o', s') ∈ A ++ B) (hs' : 0 < s') : o' ≠ o := by
  have hp := usedFrom_pairwise p bs
  rw [hu, List.pairwise_append, List.pairwise_cons] at hp
  rcases List.mem_append.1 hm with hm | hm
  · have := hp.2.2 _ hm _ List.mem_cons_self
    simp only at this
    omega
  · have := hp.2.1.1 _ hm
    simp only at this
    omega

/-! ### No two free neighbours -/

/-- Of two neighbours one is used. -/
def Solid (bs : List Tile) : Prop := bs.IsChain fun a b => a.used = true ∨ b.used = true

theorem Solid.of_append_left (h : Solid (l ++ r)) : Solid l := List.IsChain.left_of_append h

theorem Solid.of_append_right (h : Solid (l ++ r)) : Solid r := List.IsChain.right_of_append h

/-- The block behind a free one is used. -/
theorem Solid.used_behind {c : Tile} (h : Solid (l ++ b :: c :: r)) (hb : b.used = false) : c.used = true := by
  obtain h | h := (List.isChain_cons_cons.1 h.of_append_right).1
  · exact absurd h (by rw [hb]; exact Bool.false_ne_true)
  · exact h

/-- A used block in the place of any parts the list had there. -/
theorem Solid.around_used (hl : Solid l) (hr : Solid r) (hb : b.used = true) : Solid (l ++ b :: r) := by
  refine List.isChain_append.2 ⟨hl, List.isChain_cons.2 ⟨fun y _ => .inl hb, hr⟩, ?_⟩
  rintro x _ y hy
  rw [List.head?_cons, Option.mem_some_iff] at hy
  exact .inr (hy ▸ hb)

/-- A free block between used neighbours. -/
theorem Solid.around_free (hl : Solid l) (hr : Solid r) (hlast : ∀ x ∈ l.getLast?, x.used = true)
    (hhead : ∀ x ∈ r.head?, x.used = true) : Solid (l ++ b :: r) := by
  refine List.isChain_append.2 ⟨hl, List.isChain_cons.2 ⟨fun y hy => .inr (hhead y hy), hr⟩, ?_⟩
  rintro x hx y _
  exact .inl (hlast x hx)

theorem Solid.last_used (h : Solid (l ++ b :: r)) (hb : b.used = false) : ∀ x ∈ l.getLast?, x.used = true := by
  intro x hx
  obtain h | h := (List.isChain_append.1 h).2.2 x hx b (List.head?_cons ..)
  · exact h
  · exact absurd h (by rw [hb]; exact Bool.false_ne_true)

theorem Solid.head_used (h : Solid (l ++ b :: r)) (hb : b.used = false) : ∀ x ∈ r.head?, x.used = true := by
  intro x hx
  obtain h | h := (List.isChain_cons.1 h.of_append_right).1 x hx
  · exact absurd h (by rw [hb]; exact Bool.false_ne_true)
  · exact h

/-- The blocks of a solid tiling without used blocks. -/
theorem Solid.eq_singleton (h : Solid bs) (hu : usedFrom 0 bs = []) (hne : bs ≠ []) :
    bs = [⟨total bs, false⟩] := by
  cases bs with
  | nil => exact absurd rfl hne
  | cons b bs =>
    obtain ⟨n, u⟩ := b
    cases u with
    | true => rw [usedFrom_cons_used rfl] at hu; exact absurd hu (List.cons_ne_nil _ _)
    | false =>
      cases bs with
      | nil => rfl
      | cons c bs =>
        have hc : c.used = true := Solid.used_behind (l := []) h rfl
        rw [usedFrom_cons_free rfl, usedFrom_cons_used hc] at hu
        exact absurd hu (List.cons_ne_nil _ _)

/-! ### A pointer to a free block -/

/-- `w` is the start of a free block or the end; with `low` no free block stands before it. -/
def FreeAt (low : Prop) (bs : List Tile) (w : Nat) : Prop :=
  ∃ l r, bs = l ++ r ∧ w = total l ∧ (∀ x ∈ r.head?, x.used = false) ∧ (low → ∀ x ∈ l, x.used = true)

variable {low : Prop}

theorem freeAt_of_free (hb : b.used = false) (hl : low → ∀ x ∈ l, x.used = true) :
    FreeAt low (l ++ b :: r) (total l) := by
  refine ⟨l, b :: r, rfl, rfl, ?_, hl⟩
  rintro x hx
  rw [List.head?_cons, Option.mem_some_iff] at hx
  exact hx ▸ hb

/-- Two free neighbours become one; a pointer to the second becomes one to the first. -/
theorem FreeAt.join (h : FreeAt low (l ++ ⟨n, false⟩ :: ⟨k, false⟩ :: r) w) (hn : 0 < n) :
    FreeAt low (l ++ ⟨n + k, false⟩ :: r) (if w = total l + n then total l else w) := by
  obtain ⟨l₁, r₁, he, rfl, hh, hlow⟩ := h
  obtain ⟨s, rfl, hs⟩ | ⟨s, rfl, rfl⟩ := List.append_eq_append_iff.1 he
  · have hl : low → ∀ x ∈ l, x.used = true := fun h x hx => hlow h x (List.mem_append_left _ hx)
    rcases s with _ | ⟨c, _ | ⟨d, s⟩⟩
    · -- the pointer is at the first of the two
      rw [List.append_nil, if_neg (by omega)]
      exact freeAt_of_free rfl hl
    · -- it is at the second
      obtain ⟨rfl, -⟩ := List.cons.inj hs
      rw [if_pos (by rw [total_append, total_cons, total_nil, Nat.add_zero])]
      exact freeAt_of_free rfl hl
    · simp only [List.cons_append, List.cons.injEq] at hs
      obtain ⟨rfl, rfl, rfl⟩ := hs
      split
      · exact freeAt_of_free rfl hl
      · refine ⟨l ++ ⟨n + k, false⟩ :: s, r₁, by simp, by simp [Nat.add_assoc], hh, fun h => ?_⟩
        exact absurd (hlow h ⟨n, false⟩ (by simp)) Bool.false_ne_true
  · rw [if_neg (by rw [total_append]; omega)]
    refine ⟨l₁, s ++ ⟨n + k, false⟩ :: r, List.append_assoc .., rfl, ?_, hlow⟩
    cases s with
    | nil =>
      rintro x hx
      rw [List.nil_append, List.head?_cons, Option.mem_some_iff] at hx
      exact hx ▸ rfl
    | cons c s => exact hh

/-- A free block is taken, and what is left of it is `rest`. -/
theorem FreeAt.take {rest : List Tile} (h : FreeAt low (l ++ ⟨n, false⟩ :: r) w) (hpos : ∀ b ∈ l, 0 < b.size)
    (hn : 0 < n) (hs : s + total rest = n) :
    w = total l ∧ (low → ∀ x ∈ l, x.used = true) ∨
      w ≠ total l ∧ FreeAt low (l ++ ⟨s, true⟩ :: (rest ++ r)) w := by
  obtain ⟨l₁, r₁, he, rfl, hh, hlow⟩ := h
  obtain ⟨t, rfl, ht⟩ | ⟨t, rfl, rfl⟩ := List.append_eq_append_iff.1 he
  · cases t with
    | nil => exact .inl ⟨by rw [List.append_nil], fun h x hx => hlow h x (List.mem_append_left _ hx)⟩
    | cons c t =>
      -- the pointer is behind the block
      rw [List.cons_append, List.cons.injEq] at ht
      obtain ⟨rfl, rfl⟩ := ht
      refine .inr ⟨by simp; omega, l ++ ⟨s, true⟩ :: (rest ++ t), r₁, by simp, ?_, hh, fun h => ?_⟩
      · simp only [total_append, total_cons]
        omega
      · exact absurd (hlow h ⟨n, false⟩ (by simp)) Bool.false_ne_true
  · cases t with
    | nil => exact .inl ⟨by rw [List.append_nil], by rwa [List.append_nil]⟩
    | cons c t =>
      have hc : 0 < c.size := hpos c (by simp)
      refine .inr ⟨by simp; omega, l₁, c :: t ++ ⟨s, true⟩ :: (rest ++ r), by simp, rfl, hh, hlow⟩

/-- A used block becomes free; the pointer is lowered to it. -/
theorem FreeAt.release (h : FreeAt low (l ++ ⟨n, true⟩ :: r) w) (hn : 0 < n) :
    FreeAt low (l ++ ⟨n, false⟩ :: r) (if total l < w then total l else w) := by
  obtain ⟨l₁, r₁, he, rfl, hh, hlow⟩ := h
  obtain ⟨t, rfl, ht⟩ | ⟨t, rfl, rfl⟩ := List.append_eq_append_iff.1 he
  · cases t with
    | nil =>
      rw [List.nil_append] at ht
      subst ht
      exact absurd (hh _ (List.head?_cons ..)).symm Bool.false_ne_true
    | cons c t =>
      rw [List.cons_append, List.cons.injEq] at ht
      obtain ⟨rfl, -⟩ := ht
      rw [if_pos (by simp; omega)]
      exact freeAt_of_free rfl fun h x hx => hlow h x (List.mem_append_left _ hx)
  · rw [if_neg (by rw [total_append]; omega)]
    refine ⟨l₁, t ++ ⟨n, false⟩ :: r, List.append_assoc .., rfl, ?_, hlow⟩
    cases t with
    | nil =>
      rintro x hx
      rw [List.nil_append, List.head?_cons, Option.mem_some_iff] at hx
      exact hx ▸ rfl
    | cons c t => exact hh

/-- A used block loses its end, which becomes a free block; the pointer does not learn of it. -/
theorem FreeAt.shrink (h : FreeAt low (l ++ ⟨n, true⟩ :: r) w) (hk : k ≤ n) :
    FreeAt False (l ++ ⟨k, true⟩ :: ⟨n - k, false⟩ :: r) w := by
  obtain ⟨l₁, r₁, he, rfl, hh, -⟩ := h
  obtain ⟨t, rfl, ht⟩ | ⟨t, rfl, rfl⟩ := List.append_eq_append_iff.1 he
  · cases t with
    | nil =>
      rw [List.nil_append] at ht
      subst ht
      exact absurd (hh _ (List.head?_cons ..)).symm Bool.false_ne_true
    | cons c t =>
      rw [List.cons_append, List.cons.injEq] at ht
      obtain ⟨rfl, rfl⟩ := ht
      refine ⟨l ++ ⟨k, true⟩ :: ⟨n - k, false⟩ :: t, r₁, by simp, ?_, hh, False.elim⟩
      simp only [total_append, total_cons]
      omega
  · refine ⟨l₁, t ++ ⟨k, true⟩ :: ⟨n - k, false⟩ :: r, List.append_assoc .., rfl, ?_, False.elim⟩
    cases t with
    | nil => exact fun x _ => absurd (hh _ (List.head?_cons ..)).symm Bool.false_ne_true
    | cons c t => exact hh

end Tile
