import Mathlib.Data.List.Nodup
import Mathlib.Data.List.Basic
import Mathlib.Logic.Function.Basic
import Mathlib.Tactic.Common

/-!
# Singly linked lists in a heap

`Seg heap next a l b`: from the pointer `a`, the nodes at the addresses `l` lead to the pointer `b`. A list is a
segment that ends in NULL, which is `none`.
-/

namespace Mbroker.Lib

variable {κ ν : Type}

/-! ## Segments -/

inductive Seg (heap : κ → Option ν) (next : ν → Option κ) : Option κ → List κ → Option κ → Prop
  | nil {a} : Seg heap next a [] a
  | cons {p n l b} : heap p = some n → Seg heap next (next n) l b → Seg heap next (some p) (p :: l) b

namespace Seg

variable {heap heap' : κ → Option ν} {next : ν → Option κ} {a b : Option κ} {l l₁ l₂ : List κ} {p q : κ} {m n : ν}

theorem append_iff : Seg heap next a (l₁ ++ l₂) b ↔ ∃ c, Seg heap next a l₁ c ∧ Seg heap next c l₂ b := by
  induction l₁ generalizing a with
  | nil =>
      constructor
      · intro h
        exact ⟨a, .nil, h⟩
      · rintro ⟨c, h, h'⟩
        cases h
        exact h'
  | cons p l₁ ih =>
      constructor
      · intro h
        cases h with
        | cons hp h =>
            obtain ⟨c, h₁, h₂⟩ := ih.mp h
            exact ⟨c, .cons hp h₁, h₂⟩
      · rintro ⟨c, h, h'⟩
        cases h with
        | cons hp h => exact .cons hp (ih.mpr ⟨c, h, h'⟩)

theorem nil_iff : Seg heap next a [] b ↔ a = b := by
  constructor
  · intro h
    cases h
    rfl
  · rintro rfl
    exact .nil

theorem cons_iff : Seg heap next a (p :: l) b ↔ a = some p ∧ ∃ n, heap p = some n ∧ Seg heap next (next n) l b := by
  constructor
  · intro h
    cases h with
    | cons hp h => exact ⟨rfl, _, hp, h⟩
  · rintro ⟨rfl, n, hp, h⟩
    exact .cons hp h

theorem allocated (h : Seg heap next a l b) (hp : p ∈ l) : ∃ n, heap p = some n := by
  induction h with
  | nil => cases hp
  | cons hq _ ih =>
      rcases List.mem_cons.mp hp with rfl | hp
      · exact ⟨_, hq⟩
      · exact ih hp

/-- A segment depends on its own nodes only. -/
theorem congr (h : Seg heap next a l b) (he : ∀ p ∈ l, heap' p = heap p) : Seg heap' next a l b := by
  induction h with
  | nil => exact .nil
  | cons hp _ ih =>
      refine .cons ((he _ List.mem_cons_self).trans hp) (ih fun q hq => he q (List.mem_cons_of_mem _ hq))

/-- Changing a node without its pointer changes no segment. -/
theorem update_node [DecidableEq κ] (h : Seg heap next a l b) (hp : heap p = some n) (hn : next m = next n) :
    Seg (Function.update heap p (some m)) next a l b := by
  induction h with
  | nil => exact .nil
  | cons hq _ ih =>
      rename_i q _ _ _ _
      by_cases hqp : q = p
      · subst hqp
        rw [hp] at hq
        cases hq
        rw [← hn] at ih
        exact .cons (Function.update_self _ _ _) ih
      · exact .cons ((Function.update_of_ne hqp _ _).trans hq) ih

/-- A segment depends on the pointers of the nodes only. -/
theorem congr_next (h : Seg heap next a l b) (he : ∀ p, (heap' p).map next = (heap p).map next) :
    Seg heap' next a l b := by
  induction h with
  | nil => exact .nil
  | @cons p n l b hp _ ih =>
      have hnext := he p
      rw [hp, Option.map_some, Option.map_eq_some_iff] at hnext
      obtain ⟨n', hp', hn'⟩ := hnext
      rw [← hn'] at ih
      exact .cons hp' ih

/-! ## Lists -/

/-- From one pointer there is one list. -/
theorem unique (h : Seg heap next a l none) (h' : Seg heap next a l₁ none) : l = l₁ := by
  induction l generalizing a l₁ with
  | nil =>
      cases h
      cases h'
      rfl
  | cons p l ih =>
      obtain ⟨rfl, n, hp, h⟩ := cons_iff.mp h
      cases h' with
      | cons hp' h' =>
          rw [hp] at hp'
          cases hp'
          rw [ih h h']

/-- No node of a list comes twice: behind both of its places the list would be the same. -/
theorem nodup (h : Seg heap next a l none) : l.Nodup := by
  induction l generalizing a with
  | nil => exact List.nodup_nil
  | cons p l ih =>
      obtain ⟨rfl, n, hp, h⟩ := cons_iff.mp h
      refine List.nodup_cons.mpr ⟨fun hmem => ?_, ih h⟩
      obtain ⟨l₁, l₂, rfl⟩ := List.append_of_mem hmem
      obtain ⟨c, -, hc⟩ := append_iff.mp h
      obtain ⟨rfl, n', hp', h₂⟩ := cons_iff.mp hc
      rw [hp] at hp'
      cases hp'
      have hlen := congrArg List.length (unique h h₂)
      simp at hlen
      omega

theorem head_mem (h : Seg heap next (some p) l none) : p ∈ l := by
  cases h with
  | cons => exact List.mem_cons_self

/-- The node behind a node of a list is in the list. -/
theorem next_mem (h : Seg heap next a l none) (hq : q ∈ l) (hn : heap q = some n) (hp : next n = some p) : p ∈ l := by
  induction l generalizing a with
  | nil => cases hq
  | cons r l ih =>
      obtain ⟨-, m, hr, h⟩ := cons_iff.mp h
      rcases List.mem_cons.mp hq with rfl | hq
      · rw [hn] at hr
        cases hr
        rw [hp] at h
        exact List.mem_cons_of_mem _ h.head_mem
      · exact List.mem_cons_of_mem _ (ih h hq)

theorem push [DecidableEq κ] (h : Seg heap next a l none) (hp : heap p = none) (hn : next n = a) :
    Seg (Function.update heap p (some n)) next (some p) (p :: l) none := by
  refine .cons (Function.update_self _ _ _) ?_
  rw [hn]
  refine h.congr fun q hq => Function.update_of_ne ?_ _ _
  rintro rfl
  obtain ⟨m, hm⟩ := h.allocated hq
  rw [hp] at hm
  cases hm

theorem pop [DecidableEq κ] (h : Seg heap next (some p) (p :: l) none) (hp : heap p = some n) :
    Seg (Function.update heap p none) next (next n) l none := by
  have hnodup := List.nodup_cons.mp h.nodup
  obtain ⟨-, n', hp', h⟩ := cons_iff.mp h
  rw [hp] at hp'
  cases hp'
  refine h.congr fun q hq => Function.update_of_ne ?_ _ _
  rintro rfl
  exact hnodup.1 hq

/-- The node `p` is taken out from behind the node `q`, and freed. -/
theorem unlink [DecidableEq κ] (h : Seg heap next a (l₁ ++ q :: p :: l₂) none) (hq : heap q = some m)
    (hp : heap p = some n) {m' : ν} (hm : next m' = next n) :
    Seg (Function.update (Function.update heap q (some m')) p none) next a (l₁ ++ q :: l₂) none := by
  have hnodup := h.nodup
  rw [List.nodup_append, List.nodup_cons, List.nodup_cons] at hnodup
  obtain ⟨-, ⟨hql, hpl, -⟩, hdisj⟩ := hnodup
  have hqp : q ≠ p := fun he => hql (he ▸ List.mem_cons_self)
  have hother : ∀ x, x ≠ q → x ≠ p → Function.update (Function.update heap q (some m')) p none x = heap x :=
    fun x hxq hxp => (Function.update_of_ne hxp _ _).trans (Function.update_of_ne hxq _ _)
  obtain ⟨c, h₁, hc⟩ := append_iff.mp h
  obtain ⟨rfl, m₁, hm₁, hc⟩ := cons_iff.mp hc
  obtain ⟨-, n₁, hn₁, h₂⟩ := cons_iff.mp hc
  rw [hp] at hn₁
  cases hn₁
  have hself : Function.update (Function.update heap q (some m')) p none q = some m' :=
    (Function.update_of_ne hqp _ _).trans (Function.update_self _ _ _)
  refine append_iff.mpr ⟨some q, h₁.congr fun x hx => hother x ?_ ?_, .cons hself ?_⟩
  · exact hdisj x hx q List.mem_cons_self
  · exact hdisj x hx p (List.mem_cons_of_mem _ List.mem_cons_self)
  · rw [hm]
    refine h₂.congr fun x hx => hother x ?_ ?_
    · rintro rfl
      exact hql (List.mem_cons_of_mem _ hx)
    · rintro rfl
      exact hpl hx

/-- The last node of a segment is given another pointer. -/
theorem relink [DecidableEq κ] (h : Seg heap next a l (some p)) (hp : p ∉ l) (hn : next m = b) :
    Seg (Function.update heap p (some m)) next a (l ++ [p]) b := by
  refine append_iff.mpr ⟨some p, h.congr fun q hq => Function.update_of_ne ?_ _ _,
    .cons (Function.update_self _ _ _) (nil_iff.mpr hn)⟩
  rintro rfl
  exact hp hq

end Seg

end Mbroker.Lib
