import Mathlib
import Bootloader.Lib.Transition

/-!
# Objects to wait on

A counting semaphore, a lock and a bounded channel that hand what they give straight to a thread that waits for it: a
thread that has been served has still to go on by itself. Who is served among those that wait is left open. A wait may
come to an end with an error instead.
-/

/-- Where a thread stands at an object. -/
inductive Phase (ε : Type)
  | out
  | waits (e : ε)
  /-- No longer waiting, but not back from its call. -/
  | back (e : ε)
deriving DecidableEq, Repr

variable {τ ε σ κ : Type}

/-- The steps from one state to another with what they show, the latest first. -/
inductive Steps (Step : σ → Option κ → σ → Prop) (s₀ : σ) : List κ → σ → Prop
  | nil : Steps Step s₀ [] s₀
  | step {ls : List κ} {s s' : σ} {o : Option κ} : Steps Step s₀ ls s → Step s o s' → Steps Step s₀ (o.toList ++ ls) s'

theorem Steps.inv {Step : σ → Option κ → σ → Prop} {I : List κ → σ → Prop} {s₀ s : σ} {ls : List κ} (h0 : I [] s₀)
    (hs : ∀ ls s o s', I ls s → Step s o s' → I (o.toList ++ ls) s') (h : Steps Step s₀ ls s) : I ls s := by
  induction h with
  | nil => exact h0
  | step _ ha ih => exact hs _ _ _ _ ih ha

/-- The state a run has started in. -/
def Lts.start {α : Type} : List (σ × α) → σ → σ
  | [], s => s
  | (s, _) :: h, _ => start h s

theorem Lts.Run.init_start {α : Type} {S : Lts σ α} {h : List (σ × α)} {s : σ} (hr : S.Run h s) :
    S.init (start h s) := by
  induction hr with
  | init hi => exact hi
  | step _ _ ih => exact ih

/-- What a run shows of an object that it is seen as by `f`. -/
theorem Steps.of_run {α σ' : Type} {S : Lts σ α} {Step : σ' → Option κ → σ' → Prop} {C : List (σ × α) → σ → α → Prop}
    {I : σ → Prop} (f : σ → σ') (l : σ × α → Option κ) (h0 : ∀ s, S.init s → I s)
    (hs : ∀ h s a s', I s → C h s a → S.step a s = some s' → I s' ∧ Step (f s) (l (s, a)) (f s'))
    {h : List (σ × α)} {s : σ} (hr : S.Run h s) (hg : Lts.Guarded C h) :
    I s ∧ Steps Step (f (Lts.start h s)) (h.filterMap l) (f s) := by
  induction hr with
  | init hi => exact ⟨h0 _ hi, .nil⟩
  | @step h s s' a _ ha ih =>
    obtain ⟨hi, hst⟩ := ih hg.2
    obtain ⟨hi', hl⟩ := hs h s a s' hi hg.1 ha
    refine ⟨hi', ?_⟩
    have hf : ((s, a) :: h).filterMap l = (l (s, a)).toList ++ h.filterMap l := by
      rw [List.filterMap_cons]
      cases l (s, a) <;> rfl
    rw [hf]
    exact hst.step hl

section count
variable [Fintype τ] [DecidableEq τ] [DecidableEq ε]

/-- How many stand there. -/
def standing (φ : τ → Phase ε) (p : Phase ε) : Nat := (Finset.univ.filter fun t => φ t = p).card

theorem standing_update (φ : τ → Phase ε) (t : τ) (p q : Phase ε) :
    standing (Function.update φ t q) p + (if φ t = p then 1 else 0) = standing φ p + if q = p then 1 else 0 := by
  have h : ∀ ψ : τ → Phase ε, standing ψ p =
      (if ψ t = p then 1 else 0) + ((Finset.univ.erase t).filter fun u => ψ u = p).card := fun ψ => by
    rw [standing, Finset.card_filter, Finset.card_filter, ← Finset.add_sum_erase _ _ (Finset.mem_univ t)]
  have he : ((Finset.univ.erase t).filter fun u => Function.update φ t q u = p) =
      (Finset.univ.erase t).filter fun u => φ u = p :=
    Finset.filter_congr fun u hu => by rw [Function.update_of_ne (Finset.ne_of_mem_erase hu)]
  rw [h (Function.update φ t q), h φ, he, Function.update_self]
  omega

end count

/-! ### Semaphore -/

namespace Semaphore

structure State (τ ε : Type) where
  value : Nat
  phase : τ → Phase ε

inductive Label
  | took
  | released
deriving DecidableEq, Repr

/-- A semaphore that counts modulo `m`; `ok` is what a thread that is served comes back with. -/
inductive Step [DecidableEq τ] (ok : ε) (m : Nat) : State τ ε → Option Label → State τ ε → Prop
  | skip {s} : Step ok m s none s
  | take {s} (hv : 0 < s.value) : Step ok m s (some .took) { s with value := s.value - 1 }
  | join {s} (t : τ) (hv : s.value = 0) (ht : s.phase t = .out) :
      Step ok m s none { s with phase := Function.update s.phase t (.waits ok) }
  | release {s} (hw : ∀ t e, s.phase t ≠ .waits e) : Step ok m s (some .released) { s with value := (s.value + 1) % m }
  | hand {s} (t : τ) (e : ε) (ht : s.phase t = .waits e) :
      Step ok m s (some .released) { s with phase := Function.update s.phase t (.back e) }
  | expire {s} (t : τ) (e e' : ε) (ht : s.phase t = .waits e) (he : e' ≠ ok) :
      Step ok m s none { s with phase := Function.update s.phase t (.back e') }
  | leave {s} (t : τ) (ht : s.phase t = .back ok) :
      Step ok m s (some .took) { s with phase := Function.update s.phase t .out }
  | giveUp {s} (t : τ) (e : ε) (ht : s.phase t = .back e) (he : e ≠ ok) :
      Step ok m s none { s with phase := Function.update s.phase t .out }

/-- Nobody waits while there is something to take. -/
structure Inv (ok : ε) (m : Nat) (s : State τ ε) : Prop where
  lt : s.value < m
  waits : ∀ t e, s.phase t = .waits e → e = ok ∧ s.value = 0

variable [DecidableEq τ] {ok : ε} {m : Nat} {s s' s₀ : State τ ε} {o : Option Label} {ls : List Label}

theorem Inv.step (hm : 0 < m) (h : Inv ok m s) (hs : Step ok m s o s') : Inv ok m s' := by
  have hup : ∀ t p, (∀ e, p ≠ .waits e) → Inv ok m { s with phase := Function.update s.phase t p } := fun t p hp =>
    ⟨h.lt, fun u e hu => by
      simp only [Function.update_apply] at hu
      split at hu
      · exact absurd hu (hp e)
      · exact h.waits u e hu⟩
  cases hs with
  | skip => exact h
  | take hv => exact ⟨by have := h.lt; simp only; omega, fun t e ht => by have := h.waits t e ht; omega⟩
  | join t hv ht =>
    refine ⟨h.lt, fun u e hu => ?_⟩
    simp only [Function.update_apply] at hu
    split at hu
    · cases hu
      exact ⟨rfl, hv⟩
    · exact h.waits u e hu
  | release hw => exact ⟨Nat.mod_lt _ hm, fun t e ht => absurd ht (hw t e)⟩
  | hand t e ht => exact hup t _ (by simp)
  | expire t e e' ht he => exact hup t _ (by simp)
  | leave t ht => exact hup t _ (by simp)
  | giveUp t e ht he => exact hup t _ (by simp)

variable [Fintype τ] [DecidableEq ε]

/-- What can still be taken or has been handed to a thread that is not back yet. -/
def units (ok : ε) (s : State τ ε) : Nat := s.value + standing s.phase (.back ok)

/-- Whatever is released is there to be taken, but for the rounds the value makes. -/
theorem units_step (h : Inv ok m s) (hs : Step ok m s o s') :
    ∃ n, units ok s + o.toList.count .released = units ok s' + o.toList.count .took + m * n := by
  cases hs with
  | skip => exact ⟨0, rfl⟩
  | take hv =>
    refine ⟨0, ?_⟩
    simp only [units, Option.toList_some, List.count_singleton_self]
    simp
    omega
  | join t hv ht =>
    have hc := standing_update s.phase t (.back ok) (.waits ok)
    simp [ht] at hc
    exact ⟨0, by simp [units, hc]⟩
  | release hw =>
    refine ⟨(s.value + 1) / m, ?_⟩
    have hd := Nat.mod_add_div (s.value + 1) m
    simp [units]
    omega
  | hand t e ht =>
    obtain rfl := (h.waits t e ht).1
    have hc := standing_update s.phase t (.back e) (.back e)
    simp [ht] at hc
    exact ⟨0, by simp [units, hc, Nat.add_assoc]⟩
  | expire t e e' ht he =>
    have hc := standing_update s.phase t (.back ok) (.back e')
    simp [ht, he] at hc
    exact ⟨0, by simp [units, hc]⟩
  | leave t ht =>
    have hc := standing_update s.phase t (.back ok) .out
    simp [ht] at hc
    exact ⟨0, by simp [units, ← hc, Nat.add_assoc]⟩
  | giveUp t e ht he =>
    have hc := standing_update s.phase t (.back ok) .out
    simp [ht, he] at hc
    exact ⟨0, by simp [units, hc]⟩

theorem conserved (hm : 0 < m) (h0 : Inv ok m s₀) (h : Steps (Step ok m) s₀ ls s) :
    Inv ok m s ∧ ∃ n, units ok s₀ + ls.count .released = units ok s + ls.count .took + m * n := by
  refine h.inv
    (I := fun ls s => Inv ok m s ∧ ∃ n, units ok s₀ + ls.count .released = units ok s + ls.count .took + m * n)
    ⟨h0, 0, by simp⟩ ?_
  rintro ls s o s' ⟨hi, n, hn⟩ hs
  obtain ⟨n', hn'⟩ := units_step hi hs
  refine ⟨hi.step hm hs, n + n', ?_⟩
  rw [List.count_append, List.count_append, Nat.mul_add]
  omega

end Semaphore

/-! ### Lock -/

namespace Lock

structure State (τ ε : Type) where
  owner : Option τ
  hold : Nat
  phase : τ → Phase ε

inductive Label (τ : Type)
  | locked (t : τ)
  | unlocked (t : τ)
deriving DecidableEq, Repr

/-- A lock that its owner may take again, and that goes to a thread that waits when it is free. -/
inductive Step [DecidableEq τ] (ok : ε) : State τ ε → Option (Label τ) → State τ ε → Prop
  | skip {s} : Step ok s none s
  | again {s} (t : τ) (ho : s.owner = some t) (ht : s.phase t = .out) :
      Step ok s (some (.locked t)) { s with hold := s.hold + 1 }
  | lock {s} (t : τ) (ho : s.owner = none) (ht : s.phase t = .out) :
      Step ok s (some (.locked t)) { s with owner := some t, hold := s.hold + 1 }
  | join {s} (t : τ) (ho : s.owner ≠ none) (hn : s.owner ≠ some t) (ht : s.phase t = .out) :
      Step ok s none { s with phase := Function.update s.phase t (.waits ok) }
  | unlock {s} (t : τ) (ho : s.owner = some t) (ht : s.phase t = .out) (hh : 1 < s.hold) :
      Step ok s (some (.unlocked t)) { s with hold := s.hold - 1 }
  | free {s} (t : τ) (ho : s.owner = some t) (ht : s.phase t = .out) (hh : s.hold = 1)
      (hw : ∀ u e, s.phase u ≠ .waits e) :
      Step ok s (some (.unlocked t)) { s with owner := none, hold := 0 }
  | pass {s} (t u : τ) (e : ε) (ho : s.owner = some t) (ht : s.phase t = .out) (hh : s.hold = 1)
      (hu : s.phase u = .waits e) :
      Step ok s (some (.unlocked t)) { owner := some u, hold := 1, phase := Function.update s.phase u (.back e) }
  | expire {s} (t : τ) (e e' : ε) (ht : s.phase t = .waits e) (he : e' ≠ ok) :
      Step ok s none { s with phase := Function.update s.phase t (.back e') }
  | leave {s} (t : τ) (ht : s.phase t = .back ok) :
      Step ok s (some (.locked t)) { s with phase := Function.update s.phase t .out }
  | giveUp {s} (t : τ) (e : ε) (ht : s.phase t = .back e) (he : e ≠ ok) :
      Step ok s none { s with phase := Function.update s.phase t .out }

/-- Whoever waits waits for another thread, and whoever has been handed the lock holds it once. -/
structure Inv (ok : ε) (s : State τ ε) : Prop where
  hold : 0 < s.hold ↔ s.owner ≠ none
  waits : ∀ t e, s.phase t = .waits e → e = ok ∧ s.owner ≠ none ∧ s.owner ≠ some t
  handed : ∀ t, s.phase t = .back ok → s.owner = some t ∧ s.hold = 1
  expired : ∀ t e, s.phase t = .back e → e ≠ ok → s.owner ≠ some t

variable [DecidableEq τ] {ok : ε} {s s' s₀ : State τ ε} {o : Option (Label τ)} {ls : List (Label τ)}

theorem Inv.step (h : Inv ok s) (hs : Step ok s o s') : Inv ok s' := by
  obtain ⟨h1, h2, h3, h4⟩ := h
  cases hs with
  | skip => exact ⟨h1, h2, h3, h4⟩
  | again t ho ht => constructor <;> grind
  | lock t ho ht => constructor <;> grind
  | join t ho hn ht => constructor <;> grind
  | unlock t ho ht hh => constructor <;> grind
  | free t ho ht hh hw => constructor <;> grind
  | pass t u e ho ht hh hu => constructor <;> grind
  | expire t e e' ht he => constructor <;> grind
  | leave t ht => constructor <;> grind
  | giveUp t e ht he => constructor <;> grind

variable [DecidableEq ε]

/-- How often the thread has to unlock, from its own point of view. -/
def holds (ok : ε) (s : State τ ε) (t : τ) : Nat := if s.owner = some t ∧ s.phase t ≠ .back ok then s.hold else 0

theorem holds_step (h : Inv ok s) (hs : Step ok s o s') (t : τ) :
    holds ok s t + o.toList.count (.locked t) = holds ok s' t + o.toList.count (.unlocked t) := by
  obtain ⟨h1, h2, h3, h4⟩ := h
  cases hs with
  | skip => rfl
  | again u ho ht => grind [holds]
  | lock u ho ht => grind [holds]
  | join u ho hn ht => grind [holds]
  | unlock u ho ht hh => grind [holds]
  | free u ho ht hh hw => grind [holds]
  | pass u v e ho ht hh hu => grind [holds]
  | expire u e e' ht he => grind [holds]
  | leave u ht => grind [holds]
  | giveUp u e ht he => grind [holds]

/-- A thread that has locked more often than it has unlocked is the owner. -/
theorem balanced (h0 : Inv ok s₀) (hh : ∀ t, holds ok s₀ t = 0) (h : Steps (Step ok) s₀ ls s) :
    Inv ok s ∧ ∀ t, ls.count (.locked t) = holds ok s t + ls.count (.unlocked t) := by
  refine h.inv (I := fun ls s => Inv ok s ∧ ∀ t, ls.count (.locked t) = holds ok s t + ls.count (.unlocked t))
    ⟨h0, fun t => by simp [hh]⟩ ?_
  rintro ls s o s' ⟨hi, hc⟩ hs
  refine ⟨hi.step hs, fun t => ?_⟩
  have h1 := hc t
  have h2 := holds_step hi hs t
  rw [List.count_append, List.count_append]
  omega

end Lock

/-! ### Channel -/

namespace Channel

structure State (τ ε α : Type) where
  content : List α
  cap : Nat
  senders : τ → Phase ε
  receivers : τ → Phase ε

inductive Label (α : Type)
  | put (v : α)
  | got (v : α)
deriving DecidableEq, Repr

variable [DecidableEq τ] {α : Type}

/-- The thread at work was not in the queue, or it has been woken and is now back. -/
def Returns (ok : ε) (φ φ' : τ → Phase ε) : Prop := φ' = φ ∨ ∃ t, φ t = .back ok ∧ φ' = Function.update φ t .out

/-- One of those that wait is woken, if there are any. -/
def Wakes (φ φ' : τ → Phase ε) : Prop :=
  ((∀ t e, φ t ≠ .waits e) ∧ φ' = φ) ∨ ∃ t e, φ t = .waits e ∧ φ' = Function.update φ t (.back e)

/-- One that waits, or that has been woken, goes: `full` says that one that was woken for nothing may. -/
inductive Queue (ok : ε) (full : Prop) (φ : τ → Phase ε) : (τ → Phase ε) → Prop
  | join (t : τ) (ht : φ t = .out ∨ φ t = .back ok) (hf : full) : Queue ok full φ (Function.update φ t (.waits ok))
  | expire (t : τ) (e e' : ε) (ht : φ t = .waits e) (he : e' ≠ ok) : Queue ok full φ (Function.update φ t (.back e'))
  | giveUp (t : τ) (e : ε) (ht : φ t = .back e) (he : e = ok → full) : Queue ok full φ (Function.update φ t .out)

/-- What is put goes to the end, what is got comes from the head. A thread that finds no room or nothing to get waits,
and looks again when it has been woken. -/
inductive Step (ok : ε) : State τ ε α → Option (Label α) → State τ ε α → Prop
  | skip {s} : Step ok s none s
  | put {s} (v : α) {φ ψ : τ → Phase ε} (hr : s.content.length < s.cap) (hs : Returns ok s.senders φ)
      (hw : Wakes s.receivers ψ) :
      Step ok s (some (.put v)) { s with content := s.content ++ [v], senders := φ, receivers := ψ }
  | get {s} (v : α) (l : List α) {φ ψ : τ → Phase ε} (hc : s.content = v :: l) (hs : Returns ok s.receivers ψ)
      (hw : Wakes s.senders φ) : Step ok s (some (.got v)) { s with content := l, senders := φ, receivers := ψ }
  | sender {s} {φ : τ → Phase ε} (h : Queue ok (s.content.length = s.cap) s.senders φ) :
      Step ok s none { s with senders := φ }
  | receiver {s} {φ : τ → Phase ε} (h : Queue ok (s.content = []) s.receivers φ) :
      Step ok s none { s with receivers := φ }

def Label.puts : Label α → Option α
  | .put v => some v
  | .got _ => none

def Label.gots : Label α → Option α
  | .put _ => none
  | .got v => some v

variable {ok : ε} {s s' s₀ : State τ ε α} {o : Option (Label α)} {ls : List (Label α)}

/-- First in, first out, and nothing lost or doubled: what was put, the latest first, is what is still in the channel
and before that what was got. -/
theorem fifo_step (hs : Step ok s o s') : o.toList.filterMap Label.puts ++ s.content.reverse =
    s'.content.reverse ++ o.toList.filterMap Label.gots := by
  cases hs with
  | skip => simp
  | put v hr hs hw => simp [Label.puts, Label.gots]
  | get v l hc hs hw => simp [Label.puts, Label.gots, hc]
  | sender h => simp
  | receiver h => simp

theorem fifo (h0 : s₀.content = []) (h : Steps (Step ok) s₀ ls s) :
    ls.filterMap Label.puts = s.content.reverse ++ ls.filterMap Label.gots := by
  refine h.inv (I := fun ls s => ls.filterMap Label.puts = s.content.reverse ++ ls.filterMap Label.gots)
    (by simp [h0]) ?_
  intro ls s o s' hi hs
  rw [List.filterMap_append, List.filterMap_append, hi, ← List.append_assoc, fifo_step hs, List.append_assoc]

variable [Fintype τ] [DecidableEq ε]

/-- While a thread waits, there are at least as many on their way as there are things to serve them with. -/
def Served (ok : ε) (n : Nat) (φ : τ → Phase ε) : Prop := ∀ t e, φ t = .waits e → e = ok ∧ n ≤ standing φ (.back ok)

structure Inv (ok : ε) (s : State τ ε α) : Prop where
  le : s.content.length ≤ s.cap
  senders : Served ok (s.cap - s.content.length) s.senders
  receivers : Served ok s.content.length s.receivers

namespace Served
variable {n : Nat} {φ φ' : τ → Phase ε}

theorem returns (h : Served ok n φ) (hr : Returns ok φ φ') : Served ok (n - 1) φ' := by
  rcases hr with rfl | ⟨t, ht, rfl⟩ <;> intro u e hu
  · exact ⟨(h u e hu).1, (Nat.sub_le n 1).trans (h u e hu).2⟩
  · have hut : u ≠ t := by
      rintro rfl
      simp at hu
    rw [Function.update_of_ne hut] at hu
    have hs := standing_update φ t (.back ok) .out
    simp only [ht, if_true, reduceCtorEq, if_false] at hs
    have := (h u e hu).2
    exact ⟨(h u e hu).1, by omega⟩

theorem wakes (h : Served ok n φ) (hw : Wakes φ φ') : Served ok (n + 1) φ' := by
  rcases hw with ⟨hn, rfl⟩ | ⟨t, e', ht, rfl⟩ <;> intro u e hu
  · exact absurd hu (hn u e)
  · have hut : u ≠ t := by
      rintro rfl
      simp at hu
    rw [Function.update_of_ne hut] at hu
    obtain rfl := (h t e' ht).1
    have hs := standing_update φ t (.back e') (.back e')
    simp only [ht, if_true, reduceCtorEq, if_false] at hs
    have := (h u e hu).2
    exact ⟨(h u e hu).1, by omega⟩

theorem queue {full : Prop} (h : Served ok n φ) (hf : full → n = 0) (hq : Queue ok full φ φ') : Served ok n φ' := by
  intro u e hu
  cases hq with
  | join t ht hfull =>
    simp only [Function.update_apply] at hu
    rw [hf hfull]
    split at hu
    · cases hu
      exact ⟨rfl, Nat.zero_le _⟩
    · exact ⟨(h u e hu).1, Nat.zero_le _⟩
  | expire t e₁ e' ht he =>
    have hut : u ≠ t := by
      rintro rfl
      simp at hu
    rw [Function.update_of_ne hut] at hu
    have hs := standing_update φ t (.back ok) (.back e')
    have hne : Phase.back e' ≠ .back ok := fun h => he (Phase.back.inj h)
    simp only [ht, reduceCtorEq, hne, if_false] at hs
    have := (h u e hu).2
    exact ⟨(h u e hu).1, by omega⟩
  | giveUp t e₁ ht he =>
    have hut : u ≠ t := by
      rintro rfl
      simp at hu
    rw [Function.update_of_ne hut] at hu
    by_cases h1 : e₁ = ok
    · rw [hf (he h1)]
      exact ⟨(h u e hu).1, Nat.zero_le _⟩
    · have hs := standing_update φ t (.back ok) .out
      have hne : Phase.back e₁ ≠ .back ok := fun h => h1 (Phase.back.inj h)
      simp only [ht, reduceCtorEq, hne, if_false] at hs
      have := (h u e hu).2
      exact ⟨(h u e hu).1, by omega⟩

end Served

theorem Inv.step (h : Inv ok s) (hs : Step ok s o s') : Inv ok s' := by
  have hle := h.le
  cases hs with
  | skip => exact h
  | put v hr hs hw =>
    refine ⟨by simp; omega, ?_, ?_⟩
    · simpa [Nat.sub_sub] using h.senders.returns hs
    · simpa using h.receivers.wakes hw
  | get v l hc hs hw =>
    have hl : s.content.length = l.length + 1 := by simp [hc]
    refine ⟨by simp only; omega, ?_, ?_⟩
    · have := h.senders.wakes hw
      rwa [show s.cap - s.content.length + 1 = s.cap - l.length by omega] at this
    · simpa [hl] using h.receivers.returns hs
  | sender hq => exact ⟨hle, h.senders.queue (by omega) hq, h.receivers⟩
  | receiver hq => exact ⟨hle, h.senders, h.receivers.queue (by simp) hq⟩

theorem Inv.run (h0 : Inv ok s₀) (h : Steps (Step ok) s₀ ls s) : Inv ok s :=
  h.inv (I := fun _ s => Inv ok s) h0 fun _ _ _ _ hi hs => hi.step hs

end Channel
