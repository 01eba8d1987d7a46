import Mathlib

/-!
# Code at a place of a text

`CodeAt text pc code`: the bytes of the text from `pc` on begin with `code`. A machine with a partial step function
`Reaches` a state through any number of steps.
-/

variable {α σ : Type}

def CodeAt (text : List α) (pc : Nat) (code : List α) : Prop := code <+: text.drop pc

namespace CodeAt
variable {text a b : List α} {pc : Nat} {x : α}

theorem append_iff : CodeAt text pc (a ++ b) ↔ CodeAt text pc a ∧ CodeAt text (pc + a.length) b := by
  constructor
  · rintro ⟨t, ht⟩
    refine ⟨⟨b ++ t, by rw [← ht, List.append_assoc]⟩, ⟨t, ?_⟩⟩
    rw [← List.drop_drop, ← ht, List.append_assoc, List.drop_left]
  · rintro ⟨⟨t, ht⟩, ⟨t', ht'⟩⟩
    refine ⟨t', ?_⟩
    rw [← List.drop_drop, ← ht, List.drop_left] at ht'
    rw [List.append_assoc, ht', ht]

theorem next (h : CodeAt text pc (a ++ b)) : CodeAt text (pc + a.length) b := (append_iff.1 h).2

theorem get (h : CodeAt text pc (x :: a)) : text[pc]? = some x := by
  obtain ⟨t, ht⟩ := h
  have h0 : (text.drop pc)[0]? = some x := by rw [← ht]; rfl
  simpa using h0

theorem take_eq (h : CodeAt text pc a) : (text.drop pc).take a.length = a := by
  obtain ⟨t, ht⟩ := h
  rw [← ht, List.take_left]

theorem length_le (h : CodeAt text pc (x :: a)) : pc + (x :: a).length ≤ text.length := by
  have hl := List.IsPrefix.length_le h
  rw [List.length_drop] at hl
  simp only [List.length_cons] at hl ⊢
  omega

theorem refl : CodeAt (a ++ b) 0 a := ⟨b, rfl⟩

end CodeAt

/-- Some number of steps lead from the one state to the other. -/
def Reaches (step : σ → Option σ) : σ → σ → Prop := Relation.ReflTransGen fun s s' => step s = some s'

namespace Reaches
variable {step : σ → Option σ} {s s' s'' : σ}

theorem refl : Reaches step s s := Relation.ReflTransGen.refl

theorem one (h : step s = some s') : Reaches step s s' := Relation.ReflTransGen.single h

theorem trans (h : Reaches step s s') (h' : Reaches step s' s'') : Reaches step s s'' :=
  Relation.ReflTransGen.trans h h'

end Reaches
