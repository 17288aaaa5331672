import Mathlib.Data.List.Basic
import Mathlib.Data.List.Nodup
import Mathlib.Data.Nat.Init
import Mathlib.Tactic.Common

/-!
# Merge sorts

A merge sort cuts a list in two anywhere, sorts both parts and merges them by a test. What it makes of equal elements
depends on which side the test prefers: one that takes them from the right first turns them round.
-/

namespace Mbroker.Lib

variable {α : Type} {R : α → α → Prop} {less le : α → α → Bool} {xs ys : List α} {x y : α}

/-! ## Merging -/

/-- Two lists in order are merged to one in order by any test that decides between an element of the first and one of
the second, one way or the other. -/
theorem pairwise_merge (htrans : ∀ x y z, R x y → R y z → R x z) (hpos : ∀ x ∈ xs, ∀ y ∈ ys, less x y = true → R x y)
    (hneg : ∀ x ∈ xs, ∀ y ∈ ys, less x y = false → R y x) (hx : xs.Pairwise R) (hy : ys.Pairwise R) :
    (xs.merge ys less).Pairwise R := by
  induction xs generalizing ys with
  | nil => simpa using hy
  | cons x xs ihx =>
      induction ys with
      | nil => simpa using hx
      | cons y ys ihy =>
          obtain ⟨hx₁, hx₂⟩ := List.pairwise_cons.mp hx
          obtain ⟨hy₁, hy₂⟩ := List.pairwise_cons.mp hy
          have hpos₀ := hpos x List.mem_cons_self y List.mem_cons_self
          have hneg₀ := hneg x List.mem_cons_self y List.mem_cons_self
          cases hless : less x y with
          | true =>
              rw [List.cons_merge_cons_pos _ _ _ hless]
              refine List.pairwise_cons.mpr ⟨fun z hz => ?_, ihx (fun x' hx' => hpos x' (List.mem_cons_of_mem _ hx'))
                (fun x' hx' => hneg x' (List.mem_cons_of_mem _ hx')) hx₂ hy⟩
              rcases List.mem_merge.mp hz with hz | hz
              · exact hx₁ z hz
              · rcases List.mem_cons.mp hz with rfl | hz
                · exact hpos₀ hless
                · exact htrans x y z (hpos₀ hless) (hy₁ z hz)
          | false =>
              rw [List.cons_merge_cons_neg _ _ _ (by simp [hless])]
              refine List.pairwise_cons.mpr ⟨fun z hz => ?_, ihy
                (fun x' hx' y' hy' => hpos x' hx' y' (List.mem_cons_of_mem _ hy'))
                (fun x' hx' y' hy' => hneg x' hx' y' (List.mem_cons_of_mem _ hy')) hy₂⟩
              rcases List.mem_merge.mp hz with hz | hz
              · rcases List.mem_cons.mp hz with rfl | hz
                · exact hneg₀ hless
                · exact htrans y x z (hneg₀ hless) (hx₁ z hz)
              · exact hy₁ z hz

/-! ## Sorting -/

/-- A merge sort with the test `less` makes `ys` of `xs`. -/
inductive MergeSorts (less : α → α → Bool) : List α → List α → Prop
  | nil : MergeSorts less [] []
  | single {x : α} : MergeSorts less [x] [x]
  | halves {ls rs ls' rs' : List α} : MergeSorts less ls ls' → MergeSorts less rs rs' →
      MergeSorts less (ls ++ rs) (ls'.merge rs' less)

namespace MergeSorts

theorem perm (h : MergeSorts less xs ys) : ys.Perm xs := by
  induction h with
  | nil | single => exact .refl _
  | halves _ _ ihl ihr => exact (List.merge_perm_append _).trans (ihl.append ihr)

/-- The result is in an order that the test decides for two elements where they stand in the list. -/
theorem pairwise (htrans : ∀ x y z, R x y → R y z → R x z) (h : MergeSorts less xs ys)
    (hpos : ∀ x y, [x, y].Sublist xs → less x y = true → R x y)
    (hneg : ∀ x y, [x, y].Sublist xs → less x y = false → R y x) : ys.Pairwise R := by
  induction h with
  | nil => exact .nil
  | single => exact List.pairwise_singleton _ _
  | @halves ls rs ls' rs' hl hr ihl ihr =>
      have hacross : ∀ x ∈ ls', ∀ y ∈ rs', [x, y].Sublist (ls ++ rs) := by
        intro x hx y hy
        exact (List.singleton_sublist.mpr (hl.perm.mem_iff.mp hx)).append
          (List.singleton_sublist.mpr (hr.perm.mem_iff.mp hy))
      refine pairwise_merge htrans (fun x hx y hy => hpos x y (hacross x hx y hy))
        (fun x hx y hy => hneg x y (hacross x hx y hy)) (ihl ?_ ?_) (ihr ?_ ?_)
      · exact fun x y hxy => hpos x y (hxy.trans (List.sublist_append_left _ _))
      · exact fun x y hxy => hneg x y (hxy.trans (List.sublist_append_left _ _))
      · exact fun x y hxy => hpos x y (hxy.trans (List.sublist_append_right _ _))
      · exact fun x y hxy => hneg x y (hxy.trans (List.sublist_append_right _ _))

/-- `List.mergeSort` is one that takes equal elements from the left first. -/
theorem of_mergeSort (le : α → α → Bool) (xs : List α) : MergeSorts le xs (xs.mergeSort le) := by
  induction hn : xs.length using Nat.strong_induction_on generalizing xs with
  | _ n ih =>
      subst hn
      rcases xs with _ | ⟨x, _ | ⟨y, xs⟩⟩
      · simpa using MergeSorts.nil
      · simpa using MergeSorts.single
      · have hcut : (x :: y :: xs).take ((xs.length + 3) / 2) ++ (x :: y :: xs).drop ((xs.length + 3) / 2) =
            x :: y :: xs := List.take_append_drop _ _
        have hl := ih _ (by simp only [List.length_take, List.length_cons]; omega)
          ((x :: y :: xs).take ((xs.length + 3) / 2)) rfl
        have hr := ih _ (by simp only [List.length_drop, List.length_cons]; omega)
          ((x :: y :: xs).drop ((xs.length + 3) / 2)) rfl
        have hmerge := hl.halves hr
        rw [hcut] at hmerge
        simpa [List.mergeSort] using hmerge

/-- In a list without duplicates, what stands before is found before. -/
theorem idxOf_lt [DecidableEq α] (hnd : xs.Nodup) (h : [x, y].Sublist xs) : xs.idxOf x < xs.idxOf y := by
  have hpairs : xs.Pairwise fun x y => xs.idxOf x < xs.idxOf y := by
    refine List.pairwise_iff_getElem.mpr fun i j hi hj hij => ?_
    rw [hnd.idxOf_getElem, hnd.idxOf_getElem]
    exact hij
  exact List.pairwise_iff_forall_sublist.mp hpairs h

/-- A merge sort that takes equal elements from the right first is the stable sort of the list turned round. -/
theorem eq_mergeSort_reverse [DecidableEq α] (le : α → α → Bool)
    (htrans : ∀ x y z, le x y = true → le y z = true → le x z = true)
    (hless : ∀ x y, less x y = true ↔ le y x = false) (htotal : ∀ x y, le x y = false → le y x = true)
    (hnd : xs.Nodup) (h : MergeSorts less xs ys) : ys = xs.reverse.mergeSort le := by
  -- the order of both: equal elements stand the other way round
  obtain ⟨R, hR⟩ : ∃ R : α → α → Prop, ∀ x y, R x y ↔ le x y = true ∧ (le y x = true → xs.idxOf y < xs.idxOf x) :=
    ⟨_, fun _ _ => Iff.rfl⟩
  have hRtrans : ∀ x y z, R x y → R y z → R x z := by
    intro x y z hxy hyz
    rw [hR] at hxy hyz ⊢
    refine ⟨htrans x y z hxy.1 hyz.1, fun hzx => ?_⟩
    have hyx := hxy.2 (htrans y z x hyz.1 hzx)
    have hzy := hyz.2 (htrans z x y hzx hxy.1)
    omega
  have hys : ys.Pairwise R := by
    refine h.pairwise hRtrans (fun x y _ hxy => (hR x y).mpr ?_) fun x y hsub hxy => (hR y x).mpr ?_
    · have hyx := (hless x y).mp hxy
      exact ⟨htotal y x hyx, fun hle => absurd (hyx.symm.trans hle) (by decide)⟩
    · have hle : le y x = true := by
        by_contra hne
        rw [Bool.not_eq_true, ← hless] at hne
        exact absurd (hxy.symm.trans hne) (by decide)
      exact ⟨hle, fun _ => idxOf_lt hnd hsub⟩
  have hsort : (xs.reverse.mergeSort le).Pairwise R := by
    refine (of_mergeSort le xs.reverse).pairwise hRtrans (fun x y hsub hxy => (hR x y).mpr ⟨hxy, fun _ => ?_⟩)
      fun x y _ hxy => (hR y x).mpr ⟨htotal x y hxy, fun hle => absurd (hxy.symm.trans hle) (by decide)⟩
    have hrev : [y, x].Sublist xs := by simpa using hsub.reverse
    exact idxOf_lt hnd hrev
  refine List.Perm.eq_of_pairwise (fun x y _ _ hxy hyx => ?_) hys hsort
    ((h.perm.trans (List.reverse_perm xs).symm).trans (List.mergeSort_perm _ _).symm)
  rw [hR] at hxy hyx
  have hlt := hxy.2 hyx.1
  have hgt := hyx.2 hxy.1
  omega

end MergeSorts

end Mbroker.Lib
