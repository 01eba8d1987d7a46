import Mathlib

/-!
# Caches with a key

A cache that takes up a request only when the key of the request is a new one. Behind any requests it holds the first
of the latest ones that have one key. Requests are listed with the latest first.
-/

namespace KeyCache
variable {α κ : Type} [DecidableEq κ] (key : α → κ)

/-- What the cache holds behind the requests. -/
def held : List α → Option α
  | [] => none
  | a :: l =>
    match held l with
    | some b => if key a = key b then some b else some a
    | none => some a

/-- The first of the latest requests that have the key `k`. -/
def opener (k : κ) (l : List α) : Option α := (l.takeWhile fun a => key a = k).getLast?

variable {key} {k : κ} {a b : α} {l : List α}

theorem opener_cons_of_eq (h : key a = k) : opener key k (a :: l) = some ((opener key k l).getD a) := by
  rw [opener, List.takeWhile_cons_of_pos (by exact decide_eq_true h), List.getLast?_cons, opener]

theorem opener_cons_of_ne (h : key a ≠ k) : opener key k (a :: l) = none := by
  rw [opener, List.takeWhile_cons_of_neg (by rwa [decide_eq_true_iff]), List.getLast?_nil]

theorem key_of_opener (h : opener key k l = some b) : key b = k := by
  have hm : b ∈ l.takeWhile fun a => key a = k := List.mem_of_getLast? h
  have hb := List.mem_takeWhile_imp hm
  exact of_decide_eq_true hb

theorem held_cons : held key (a :: l) = some ((opener key (key a) l).getD a) := by
  induction l generalizing a with
  | nil => rfl
  | cons b l ih =>
    have hb : key ((opener key (key b) l).getD b) = key b := by
      cases ho : opener key (key b) l with
      | none => rfl
      | some c => exact key_of_opener ho
    rw [held, ih]
    dsimp only
    rw [hb]
    by_cases h : key a = key b
    · rw [if_pos h, h, opener_cons_of_eq rfl]; rfl
    · rw [if_neg h, opener_cons_of_ne fun hc => h hc.symm]; rfl

end KeyCache
