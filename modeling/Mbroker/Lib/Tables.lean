import Mathlib.Algebra.BigOperators.Group.Finset.Basic
import Mathlib.Data.Finset.Card
import Mathlib.Data.Finset.Image
import Mathlib.Data.Finset.Range
import Mathlib.Data.Finset.Option
import Mathlib.Logic.Function.Basic
import Mathlib.Tactic.Abel

/-!
# Tables scanned from their first entry

The loop that looks for the first entry of a table with some property, when a table whose entries are
handed out to the members of a set is full, and sums over the entries.
-/

namespace Mbroker.Lib

/-! ## The first entry with a property -/

/-- The index at which `for (i = 0; i < n; i++) if (p(i)) return i;` returns, if it does. -/
def firstIndex (p : Nat → Bool) (n : Nat) : Option Nat := (List.range n).find? p

theorem firstIndex_eq_some {p : Nat → Bool} {n i : Nat} :
    firstIndex p n = some i ↔ p i = true ∧ i < n ∧ ∀ j < i, p j = false := by
  simp [firstIndex, List.find?_range_eq_some]

theorem firstIndex_eq_none {p : Nat → Bool} {n : Nat} :
    firstIndex p n = none ↔ ∀ i < n, p i = false := by
  simp [firstIndex]

/-- The loop depends only on what it tests. -/
theorem firstIndex_congr {p q : Nat → Bool} {n : Nat} (h : ∀ i < n, p i = q i) :
    firstIndex p n = firstIndex q n := by
  cases hq : firstIndex q n with
  | none =>
      rw [firstIndex_eq_none] at hq ⊢
      intro i hi; rw [h i hi]; exact hq i hi
  | some i =>
      rw [firstIndex_eq_some] at hq ⊢
      obtain ⟨hp, hi, hlt⟩ := hq
      exact ⟨by rw [h i hi]; exact hp, hi, fun j hj => by rw [h j (by omega)]; exact hlt j hj⟩

/-! ## Full tables -/

variable {κ : Type}

/-- The table of `n` entries is full exactly when it has as many owners as entries. -/
theorem full_iff_card {S : Finset κ} {f : κ → Nat} {n : Nat} (hlt : ∀ x ∈ S, f x < n)
    (hinj : ∀ x ∈ S, ∀ y ∈ S, f x = f y → x = y) :
    (∀ i < n, ∃ x ∈ S, f x = i) ↔ S.card = n := by
  have hsub : S.image f ⊆ Finset.range n := by
    intro i hi
    obtain ⟨x, hx, rfl⟩ := Finset.mem_image.mp hi
    exact Finset.mem_range.mpr (hlt x hx)
  have hcard : (S.image f).card = S.card := Finset.card_image_of_injOn fun x hx y hy h => hinj x hx y hy h
  constructor
  · intro h
    have : S.image f = Finset.range n := by
      refine Finset.Subset.antisymm hsub fun i hi => ?_
      obtain ⟨x, hx, rfl⟩ := h i (Finset.mem_range.mp hi)
      exact Finset.mem_image_of_mem f hx
    rw [← hcard, this, Finset.card_range]
  · intro h i hi
    have himg : S.image f = Finset.range n :=
      Finset.eq_of_subset_of_card_le hsub (by rw [hcard, h, Finset.card_range])
    have : i ∈ S.image f := by rw [himg]; exact Finset.mem_range.mpr hi
    exact Finset.mem_image.mp this

/-- The same for a table whose entry `r` has an owner of its own, outside the set. -/
theorem full_iff_card_succ {S : Finset κ} {f : κ → Nat} {n r : Nat} (hr : r < n)
    (hlt : ∀ x ∈ S, f x < n) (hne : ∀ x ∈ S, f x ≠ r)
    (hinj : ∀ x ∈ S, ∀ y ∈ S, f x = f y → x = y) :
    (∀ i < n, i = r ∨ ∃ x ∈ S, f x = i) ↔ S.card + 1 = n := by
  let g : Option κ → Nat := fun o => o.elim r f
  have hmem : ∀ o, o ∈ Finset.insertNone S ↔ o = none ∨ ∃ x ∈ S, o = some x := by
    intro o; cases o <;> simp
  have hg := full_iff_card (S := Finset.insertNone S) (f := g) (n := n)
    (by
      intro o ho
      rcases (hmem o).mp ho with rfl | ⟨x, hx, rfl⟩
      · exact hr
      · exact hlt x hx)
    (by
      intro o ho o' ho' he
      rcases (hmem o).mp ho with rfl | ⟨x, hx, rfl⟩ <;> rcases (hmem o').mp ho' with rfl | ⟨y, hy, rfl⟩
      · rfl
      · exact absurd he.symm (hne y hy)
      · exact absurd he (hne x hx)
      · rw [hinj x hx y hy he])
  rw [Finset.card_insertNone] at hg
  rw [← hg]
  constructor
  · intro h i hi
    rcases h i hi with rfl | ⟨x, hx, rfl⟩
    · exact ⟨none, by simp, rfl⟩
    · exact ⟨some x, by simp [hx], rfl⟩
  · intro h i hi
    obtain ⟨o, ho, rfl⟩ := h i hi
    rcases (hmem o).mp ho with rfl | ⟨x, hx, rfl⟩
    · exact Or.inl rfl
    · exact Or.inr ⟨x, hx, rfl⟩

/-! ## Sums -/

variable {ι α M : Type} [DecidableEq ι] [AddCommGroup M] {s : Finset ι} {w : ι}

/-- When the entry `w` changes, the sum changes by what it counts for. -/
theorem sum_comp_update (hw : w ∈ s) (F : α → M) (f : ι → α) (x : α) :
    ∑ v ∈ s, F (Function.update f w x v) = ∑ v ∈ s, F (f v) - F (f w) + F x := by
  have hrest : ∑ v ∈ s.erase w, F (Function.update f w x v) = ∑ v ∈ s.erase w, F (f v) := by
    refine Finset.sum_congr rfl fun v hv => ?_
    rw [Function.update_of_ne (Finset.ne_of_mem_erase hv)]
  rw [← Finset.add_sum_erase s (fun v => F (Function.update f w x v)) hw,
    ← Finset.add_sum_erase s (fun v => F (f v)) hw, hrest, Function.update_self]
  abel

end Mbroker.Lib
