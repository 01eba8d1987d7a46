import Mathlib

/-!
# Transition systems with histories

A system is an initial condition and a partial step function; the action of a step resolves all of
its nondeterminism (which thread runs, what the environment does). A run carries its history: the
state before and the action of every step, the latest step first. Properties of runs are stated on
the history, so that no ghost variable is needed in the state, and a restriction of the environment
is a condition on the steps of the history (`Guarded`).
-/

/-- A transition system over states `σ` and actions `α`. -/
structure Lts (σ α : Type) where
  init : σ → Prop
  step : α → σ → Option σ

namespace Lts
variable {σ α : Type} {S : Lts σ α}

/-- `S.Run h s`: the steps of `h` lead from an initial state to `s`. -/
inductive Run (S : Lts σ α) : List (σ × α) → σ → Prop
  | init {s : σ} : S.init s → Run S [] s
  | step {h : List (σ × α)} {s s' : σ} {a : α} :
      Run S h s → S.step a s = some s' → Run S ((s, a) :: h) s'

/-- Every step of the history satisfies `C`, a condition on the history up to the step, the state
before it and its action. -/
def Guarded (C : List (σ × α) → σ → α → Prop) : List (σ × α) → Prop
  | [] => True
  | (s, a) :: h => C h s a ∧ Guarded C h

instance Guarded.decidable {C : List (σ × α) → σ → α → Prop} [∀ h s a, Decidable (C h s a)] :
    (h : List (σ × α)) → Decidable (Guarded C h)
  | [] => .isTrue trivial
  | (s, a) :: h =>
    have := Guarded.decidable (C := C) h
    inferInstanceAs (Decidable (C h s a ∧ Guarded C h))

/-! ### Rules for runs -/

/-- The invariant rule: what holds initially and is kept by every step that meets `C` holds after
every run whose steps meet `C`. -/
theorem Run.inv {C : List (σ × α) → σ → α → Prop} {I : List (σ × α) → σ → Prop}
    (h0 : ∀ s, S.init s → I [] s)
    (hs : ∀ h s a s', I h s → C h s a → S.step a s = some s' → I ((s, a) :: h) s')
    {h : List (σ × α)} {s : σ} (hr : S.Run h s) (hg : Guarded C h) : I h s := by
  induction hr with
  | init hi => exact h0 _ hi
  | step _ ha ih => exact hs _ _ _ _ (ih hg.2) hg.1 ha

theorem Run.inv' {I : List (σ × α) → σ → Prop} (h0 : ∀ s, S.init s → I [] s)
    (hs : ∀ h s a s', I h s → S.step a s = some s' → I ((s, a) :: h) s')
    {h : List (σ × α)} {s : σ} (hr : S.Run h s) : I h s := by
  induction hr with
  | init hi => exact h0 _ hi
  | step _ ha ih => exact hs _ _ _ _ ih ha

/-- The invariant rule for an invariant of states: it holds in every state of the run. -/
theorem Run.inv_states {C : σ → α → Prop} {I : σ → Prop} (h0 : ∀ s, S.init s → I s)
    (hs : ∀ s a s', I s → C s a → S.step a s = some s' → I s') {h : List (σ × α)} {s : σ} (hr : S.Run h s)
    (hc : ∀ x ∈ h, C x.1 x.2) : I s ∧ ∀ x ∈ h, I x.1 := by
  induction hr with
  | init hi => exact ⟨h0 _ hi, fun x hx => absurd hx List.not_mem_nil⟩
  | step hr ha ih =>
    obtain ⟨hi, hh⟩ := ih fun x hx => hc x (List.mem_cons_of_mem _ hx)
    refine ⟨hs _ _ _ hi (hc _ List.mem_cons_self) ha, fun x hx => ?_⟩
    obtain rfl | hx := List.mem_cons.1 hx
    · exact hi
    · exact hh x hx

theorem forall_states_iff {I : σ → Prop} {h : List (σ × α)} {s : σ} :
    (∀ t ∈ s :: h.map (·.1), I t) ↔ I s ∧ ∀ x ∈ h, I x.1 := by
  rw [List.forall_mem_cons, List.forall_mem_map]

theorem Guarded.mono {C C' : List (σ × α) → σ → α → Prop} (hC : ∀ h s a, C h s a → C' h s a) :
    ∀ {h : List (σ × α)}, Guarded C h → Guarded C' h
  | [], _ => trivial
  | _ :: _, hg => ⟨hC _ _ _ hg.1, hg.2.mono hC⟩

/-! ### Summaries of a history -/

/-- Folds the part of the history behind the latest step that satisfies `r`. -/
def foldSince {β : Type} (r : σ → α → Bool) (f : β → σ → α → β) (b : β) : List (σ × α) → β
  | [] => b
  | (s, a) :: h => if r s a then b else f (foldSince r f b h) s a

section
variable {β : Type} {r : σ → α → Bool} {f : β → σ → α → β} {b : β} {h : List (σ × α)} {s : σ} {a : α}

theorem foldSince_of_reset (hr : r s a = true) : foldSince r f b ((s, a) :: h) = b := if_pos hr

theorem foldSince_cons (hr : r s a = false) :
    foldSince r f b ((s, a) :: h) = f (foldSince r f b h) s a := by
  rw [foldSince, hr]; rfl

end

/-! ### Executing a list of actions -/

def exec (S : Lts σ α) : List α → List (σ × α) → σ → Option (List (σ × α) × σ)
  | [], h, s => some (h, s)
  | a :: as, h, s =>
    match S.step a s with
    | some s' => exec S as ((s, a) :: h) s'
    | none => none

theorem exec_append {as bs : List α} {h : List (σ × α)} {s : σ} {x : List (σ × α) × σ}
    (hx : S.exec as h s = some x) : S.exec (as ++ bs) h s = S.exec bs x.1 x.2 := by
  induction as generalizing h s with
  | nil =>
    rw [Lts.exec, Option.some.injEq] at hx
    subst hx; rfl
  | cons a as ih =>
    rw [Lts.exec] at hx
    rw [List.cons_append, Lts.exec]
    cases ha : S.step a s with
    | none => rw [ha] at hx; exact absurd hx (by rintro ⟨⟩)
    | some s' => rw [ha] at hx; exact ih hx

theorem Run.exec {as : List α} {h : List (σ × α)} {s : σ} (hr : S.Run h s)
    {x : List (σ × α) × σ} (hx : S.exec as h s = some x) : S.Run x.1 x.2 := by
  induction as generalizing h s with
  | nil =>
    rw [Lts.exec, Option.some.injEq] at hx
    subst hx; exact hr
  | cons a as ih =>
    rw [Lts.exec] at hx
    cases ha : S.step a s with
    | none => rw [ha] at hx; exact absurd hx (by rintro ⟨⟩)
    | some s' => rw [ha] at hx; exact ih (hr.step ha) hx

/-- A property of a concrete run, decided by executing it. -/
theorem exists_run_of_exec (as : List α) {s₀ : σ} (hi : S.init s₀)
    {P : List (σ × α) → σ → Prop} [∀ h s, Decidable (P h s)]
    (hP : (S.exec as [] s₀).any (fun x => decide (P x.1 x.2)) = true) : ∃ h s, S.Run h s ∧ P h s := by
  obtain ⟨x, hx, hp⟩ := (Option.any_eq_true _ _).1 hP
  exact ⟨x.1, x.2, (Run.init hi).exec hx, of_decide_eq_true hp⟩

end Lts
