import Mathlib.Tactic.Common

/-!
# Computations with more checks

`Refines x y` says that `x` is `y` with checks added: where it returns, `y` returns the same.
-/

namespace Mbroker.Lib

variable {ε α β : Type}

def Refines (x y : Except ε α) : Prop := ∀ a, x = .ok a → y = .ok a

namespace Refines

variable {x x' y y' : Except ε α} {f g : α → Except ε β}

theorem refl (x : Except ε α) : Refines x x := fun _ h => h

theorem of_error (e : ε) (y : Except ε α) : Refines (.error e) y := by
  intro a h
  cases h

theorem bind (h : Refines x y) (hf : ∀ a, Refines (f a) (g a)) : Refines (x >>= f) (y >>= g) := by
  intro b hb
  cases hx : x with
  | error e =>
      rw [hx] at hb
      cases hb
  | ok a =>
      rw [hx] at hb
      rw [h a hx]
      exact hf a b hb

/-- The same, where the computation without the checks is known to return. -/
theorem bind_ok {b : α} {z : Except ε β} (h : Refines x (.ok b)) (hf : Refines (f b) z) : Refines (x >>= f) z := by
  intro c hc
  cases hx : x with
  | error e =>
      rw [hx] at hc
      cases hc
  | ok a =>
      rw [hx] at hc
      cases h a hx
      exact hf c hc

/-- A check in front changes no value. -/
theorem check {c : Except ε Unit} (h : Refines x y) : Refines (c >>= fun _ => x) y := by
  intro a ha
  cases hc : c with
  | error e =>
      rw [hc] at ha
      cases ha
  | ok _ =>
      rw [hc] at ha
      exact h a ha

theorem ite {p : Prop} [Decidable p] (h : Refines x y) (h' : Refines x' y') :
    Refines (if p then x else x') (if p then y else y') := by
  split
  · exact h
  · exact h'

end Refines

end Mbroker.Lib
