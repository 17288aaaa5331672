import Mathlib.Data.List.Find
import Mathlib.Logic.Function.Basic
import Mathlib.Tactic.Common

/-!
# Maps of stacks

A stack for every key, and the list of entries, newest first, that stands for all of them: a new entry goes to the
front, and the first entry of a key is its top.
-/

namespace Mbroker.Lib

/-- The stack of each key, its top first. -/
abbrev Stacks (κ α : Type) : Type := κ → List α

namespace Stacks

variable {κ α : Type} [DecidableEq κ] {m : Stacks κ α} {k k' : κ} {a : α} {xs : List (κ × α)}

def empty : Stacks κ α := fun _ => []

def push (m : Stacks κ α) (k : κ) (a : α) : Stacks κ α := Function.update m k (a :: m k)

/-- The stack of a key that has none stays as it is. -/
def pop (m : Stacks κ α) (k : κ) : Stacks κ α := Function.update m k (m k).tail

def top (m : Stacks κ α) (k : κ) : Option α := (m k).head?

theorem pop_push (m : Stacks κ α) (k : κ) (a : α) : (m.push k a).pop k = m := by
  unfold push pop
  rw [Function.update_self, Function.update_idem, List.tail_cons, Function.update_eq_self]

theorem pop_push_of_ne (m : Stacks κ α) (a : α) (h : k' ≠ k) : (m.push k' a).pop k = (m.pop k).push k' a := by
  unfold push pop
  rw [Function.update_of_ne h.symm, Function.update_of_ne h, Function.update_comm h]

/-! ## Entries -/

def ofEntries (xs : List (κ × α)) : Stacks κ α := fun k => (xs.filter fun x => x.1 = k).map Prod.snd

theorem ofEntries_nil : ofEntries ([] : List (κ × α)) = empty := rfl

theorem ofEntries_cons (k : κ) (a : α) (xs : List (κ × α)) : ofEntries ((k, a) :: xs) = (ofEntries xs).push k a := by
  funext k'
  by_cases hk : k' = k
  · subst hk
    simp [ofEntries, push]
  · simp [ofEntries, push, hk, Ne.symm hk]

theorem top_ofEntries (xs : List (κ × α)) (k : κ) :
    (ofEntries xs).top k = (xs.find? fun x => x.1 = k).map Prod.snd := by
  simp [top, ofEntries]

theorem ofEntries_eraseP (xs : List (κ × α)) (k : κ) :
    ofEntries (xs.eraseP fun x => x.1 = k) = (ofEntries xs).pop k := by
  induction xs with
  | nil =>
      funext k'
      by_cases hk : k' = k <;> simp [ofEntries, pop, hk]
  | cons x xs ih =>
      obtain ⟨j, a⟩ := x
      by_cases hj : j = k
      · subst hj
        rw [List.eraseP_cons_of_pos (by simp), ofEntries_cons, pop_push]
      · rw [List.eraseP_cons_of_neg (by simpa using hj), ofEntries_cons, ofEntries_cons, ih,
          pop_push_of_ne _ _ hj]

/-! ## The list without the top of a key -/

/-- All entries but the top stay, in their order. -/
theorem top_eq_some (h : (ofEntries xs).top k = some a) :
    ∃ l r, xs = l ++ (k, a) :: r ∧ xs.eraseP (fun x => x.1 = k) = l ++ r := by
  rw [top_ofEntries, Option.map_eq_some_iff] at h
  obtain ⟨⟨j, b⟩, hfind, rfl⟩ := h
  obtain ⟨hj, l, r, rfl, hl⟩ := List.find?_eq_some_iff_append.mp hfind
  obtain rfl : j = k := by simpa using hj
  refine ⟨l, r, rfl, ?_⟩
  rw [List.eraseP_append_right _ (by simpa using hl), List.eraseP_cons_of_pos (by simp)]

end Stacks

/-! ## Conditions that agree on a list -/

theorem eraseP_congr {α : Type} {p q : α → Bool} {xs : List α} (h : ∀ x ∈ xs, p x = q x) :
    xs.eraseP p = xs.eraseP q := by
  induction xs with
  | nil => rfl
  | cons x xs ih =>
      have hx := h x List.mem_cons_self
      have hrest := ih fun y hy => h y (List.mem_cons_of_mem x hy)
      simp only [List.eraseP_cons, hx, hrest]

end Mbroker.Lib
