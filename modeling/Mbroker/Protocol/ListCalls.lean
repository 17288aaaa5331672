import Mbroker.Lib.Runs
import Mbroker.Protocol.BoxList

/-!
# Calls on the list of boxes

Sequences of `insert_at_beginning` and `delete_box` from an empty list: which boxes the chain from `head` holds,
and when `tail` is the last of them.
-/

namespace Mbroker.Protocol

open Mbroker.Lib

/-! ## Calls -/

inductive ListCall
  /-- `malloc` returns `addr`, where the memory holds `contents`. -/
  | insert (addr : Nat) (contents : Mem) (boxName : CString) (boxSize nPublishers nSubscribers : Nat)
  | delete (boxName : CString)

namespace BoxList

variable {list list' : BoxList} {ps : List Nat} {boxName : CString} {c : ListCall} {cs : List ListCall}

/-- `malloc` returns no address that holds a box. -/
def call (list : BoxList) : ListCall → Option BoxList
  | .insert addr contents boxName boxSize nPublishers nSubscribers =>
    match list.heap addr with
    | none => some (insertAtBeginning list addr contents boxName boxSize nPublishers nSubscribers)
    | some _ => none
  | .delete boxName => deleteBox list boxName

def Called (list : BoxList) (c : ListCall) (list' : BoxList) : Prop := call list c = some list'

theorem Called.of_call (list : BoxList) (c : ListCall) (list' : BoxList) (h : call list c = some list') :
    Called list c list' := h

theorem called_insert {addr size pubs subs : Nat} {contents : Mem} :
    Called list (.insert addr contents boxName size pubs subs) list' ↔
      list.heap addr = none ∧ insertAtBeginning list addr contents boxName size pubs subs = list' := by
  have hcall : call list (.insert addr contents boxName size pubs subs) = match list.heap addr with
      | none => some (insertAtBeginning list addr contents boxName size pubs subs)
      | some _ => none := rfl
  rw [Called, hcall]
  cases list.heap addr <;> simp

/-! ## The chain -/

/-- The chain from `head` ends, meets no box twice and holds the boxes that were not freed. -/
structure Chain (list : BoxList) (ps : List Nat) : Prop where
  holds : Holds list ps
  nodup : ps.Nodup
  live : ∀ p, p ∈ ps ↔ list.heap p ≠ none

/-- The chain is as above, and `tail` is its last box, or NULL if there is none. -/
def WellFormed (list : BoxList) : Prop := ∃ ps, list.Chain ps ∧ list.tail = ps.getLast?

theorem Chain.of_holds (h : Holds list ps) (hlive : ∀ p, p ∈ ps ↔ list.heap p ≠ none) : list.Chain ps :=
  ⟨h, h.seg.nodup, hlive⟩

theorem Chain.unique {ps' : List Nat} (h : list.Chain ps) (h' : list.Chain ps') : ps = ps' := h.holds.unique h'.holds

theorem empty_chain : BoxList.empty.Chain [] := ⟨empty_holds, List.nodup_nil, by simp [empty]⟩

theorem empty_wellFormed : BoxList.empty.WellFormed := ⟨[], empty_chain, rfl⟩

theorem Chain.insert (h : list.Chain ps) {addr : Nat} {contents : Mem} {size pubs subs : Nat}
    (hfree : list.heap addr = none) :
    (insertAtBeginning list addr contents boxName size pubs subs).Chain (addr :: ps) := by
  refine .of_holds (h.holds.insert hfree) fun p => ?_
  by_cases hp : p = addr
  · subst hp
    simp [insertAtBeginning]
  · simp [insertAtBeginning, hp, h.live]

/-- The box that `delete_box` takes out is freed, and no other. -/
theorem Deletion.heap_eq_none (hd : Deletion list ps boxName list') (h : list.Chain ps) (p : Nat) :
    list'.heap p = none ↔ list.heap p = none ∨ ps.find? (list.isNamed boxName) = some p := by
  cases hd with
  | absent hnone he =>
      subst he
      rw [List.find?_eq_none.mpr fun q hq => by simp [hnone q hq]]
      simp
  | @head q qs box hps hq hname he =>
      subst hps he
      rw [List.find?_cons_of_pos hname]
      by_cases hp : p = q
      · subst hp
        simp [free]
      · simp [free, hp, Ne.symm hp]
  | @behind l r q l₂ rbox qbox hps hnone hname hr hq hheap =>
      have hfind : ps.find? (list.isNamed boxName) = some q := by
        have hsplit : l ++ r :: q :: l₂ = (l ++ [r]) ++ q :: l₂ := by simp
        rw [hps, hsplit, List.find?_append, List.find?_eq_none.mpr fun x hx => by simp [hnone x hx],
          List.find?_cons_of_pos hname]
        rfl
      rw [hheap, hfind]
      by_cases hpq : p = q
      · subst hpq
        simp
      · by_cases hpr : p = r
        · subst hpr
          simp [hpq, Ne.symm hpq, hr]
        · simp [hpq, hpr, Ne.symm hpq]

theorem Chain.deletion (h : list.Chain ps) (hd : Deletion list ps boxName list') :
    list'.Chain (ps.eraseP (list.isNamed boxName)) := by
  refine .of_holds (hd.holds h.holds).1 fun p => ?_
  rw [mem_eraseP_iff h.nodup, h.live, Ne, Ne, Ne, hd.heap_eq_none h p, not_or]

theorem Chain.call (h : list.Chain ps) (hc : Called list c list') : ∃ ps', list'.Chain ps' := by
  cases c with
  | insert addr contents boxName size pubs subs =>
      obtain ⟨hfree, rfl⟩ := called_insert.mp hc
      exact ⟨_, h.insert hfree⟩
  | delete boxName =>
      obtain ⟨list₁, he, hd⟩ := h.holds.deletion boxName
      have hlist : deleteBox list boxName = some list' := hc
      rw [he] at hlist
      cases hlist
      exact ⟨_, h.deletion hd⟩

theorem Chain.steps (h : list.Chain ps) (hs : Steps Called list cs list') : ∃ ps', list'.Chain ps' := by
  refine hs.invariant (I := fun list => ∃ ps, list.Chain ps) ?_ ⟨ps, h⟩
  rintro list c list' ⟨ps, h⟩ hc
  exact h.call hc

/-! ## What `delete_box` does -/

/-- `delete_box` takes out the box that `find_box` gives for the name. -/
def TakesOut (list : BoxList) (boxName : CString) : Prop :=
  ∃ ps p list', list.Holds ps ∧ findBox list list.head boxName = some (some p) ∧ deleteBox list boxName = some list' ∧
    p ∈ ps ∧ list'.Holds (ps.erase p)

/-- `delete_box` finds no box with the name, and takes out none. -/
def Misses (list : BoxList) (boxName : CString) : Prop :=
  ∃ ps list', list.Holds ps ∧ findBox list list.head boxName = some none ∧ deleteBox list boxName = some list' ∧
    list'.Holds ps

theorem eraseP_eq_erase {f : Nat → Bool} {p : Nat} (h : ps.find? f = some p) : ps.eraseP f = ps.erase p := by
  obtain ⟨hp, l, l', rfl, hl⟩ := List.find?_eq_some_iff_append.mp h
  have hmem : p ∉ l := by
    intro hmem
    have hneg := hl p hmem
    rw [hp] at hneg
    cases hneg
  rw [List.eraseP_append_right _ fun q hq hfq => by simpa [hfq] using hl q hq, List.eraseP_cons_of_pos hp,
    List.erase_append_right _ hmem, List.erase_cons_head]

theorem Holds.takesOut_or_misses (h : Holds list ps) (boxName : CString) :
    list.TakesOut boxName ∨ list.Misses boxName := by
  obtain ⟨list', he, hlist, -⟩ := @Holds.deleteBox _ _ boxName h
  cases hfind : ps.find? (list.isNamed boxName) with
  | some p =>
      rw [eraseP_eq_erase hfind] at hlist
      exact Or.inl ⟨ps, p, list', h, h.findBox.trans (congrArg some hfind), he, List.mem_of_find?_eq_some hfind, hlist⟩
  | none =>
      rw [List.eraseP_of_forall_not fun q hq => List.find?_eq_none.mp hfind q hq] at hlist
      exact Or.inr ⟨ps, list', h, h.findBox.trans (congrArg some hfind), he, hlist⟩

/-! ## The last box -/

/-- The call is not a `delete_box` of the only box. -/
def KeepsTail (list : BoxList) : ListCall → Prop
  | .insert .. => True
  | .delete boxName => ∀ p ∈ list.head, ∀ box ∈ list.heap p, box.next = none → box.named boxName = false

instance (list : BoxList) : DecidablePred list.KeepsTail
  | .insert .. => isTrue trivial
  | .delete boxName =>
    inferInstanceAs
      (Decidable (∀ p ∈ list.head, ∀ box ∈ list.heap p, box.next = none → box.named boxName = false))

theorem insert_tail (ht : list.tail = ps.getLast?) (addr : Nat) (contents : Mem) (size pubs subs : Nat) :
    (insertAtBeginning list addr contents boxName size pubs subs).tail = (addr :: ps).getLast? := by
  cases ps with
  | nil => simp [insertAtBeginning, ht]
  | cons p ps => simp [insertAtBeginning, ht, List.getLast?_cons]

theorem Holds.head_eq (h : Holds list ps) : list.head = ps.head? := by
  cases ps with
  | nil => exact Seg.nil_iff.mp h.seg
  | cons p ps => exact (Seg.cons_iff.mp h.seg).1

theorem getLast?_unlink {l l₂ : List Nat} {q r : Nat} (hnd : (l ++ r :: q :: l₂).Nodup) :
    (if some q = (l ++ r :: q :: l₂).getLast? then some r else (l ++ r :: q :: l₂).getLast?) =
      (l ++ r :: l₂).getLast? := by
  rcases List.eq_nil_or_concat l₂ with rfl | ⟨ys, z, rfl⟩
  · simp
  · have hne : q ≠ z := by
      rintro rfl
      simp [List.nodup_append, List.nodup_cons] at hnd
    have hlast : (l ++ r :: q :: (ys ++ [z])).getLast? = some z := by
      simp [List.getLast?_append, List.getLast?_cons]
    have hlast' : (l ++ r :: (ys ++ [z])).getLast? = some z := by simp [List.getLast?_append, List.getLast?_cons]
    rw [List.concat_eq_append, hlast, hlast', if_neg (by simpa using hne)]

/-- `tail` is the last of the boxes that are left, unless there was one box only. -/
theorem Chain.deletion_tail (h : list.Chain ps) (ht : list.tail = ps.getLast?)
    (hd : Deletion list ps boxName list') :
    list'.tail = (ps.eraseP (list.isNamed boxName)).getLast? ↔ list.KeepsTail (.delete boxName) := by
  have hhead := h.holds.head_eq
  have hkeep : (∀ p ∈ ps.head?, list.isNamed boxName p = false) → list.KeepsTail (.delete boxName) := by
    intro hother p hp box hbox _
    have hnamed := hother p (hhead ▸ hp)
    rw [isNamed, Option.mem_def.mp hbox] at hnamed
    exact hnamed
  cases hd with
  | absent hnone he =>
      subst he
      rw [List.eraseP_of_forall_not fun x hx => by simp [hnone x hx]]
      exact iff_of_true ht (hkeep fun p hp => hnone p (List.mem_of_mem_head? hp))
  | @head p qs box hps hp hname he =>
      subst hps he
      rw [List.eraseP_cons_of_pos hname]
      obtain ⟨-, box', hp', hrest⟩ := Seg.cons_iff.mp h.holds.seg
      rw [hp] at hp'
      cases hp'
      cases qs with
      | nil =>
          refine iff_of_false (by simp [free, ht]) fun hall => ?_
          have hnamed := hall p hhead box hp (Seg.nil_iff.mp hrest)
          rw [isNamed, hp] at hname
          rw [Option.any_some, hnamed] at hname
          cases hname
      | cons q qs =>
          refine iff_of_true (by simp [free, ht, List.getLast?_cons]) fun p' hp' box' hbox' hnext => ?_
          rw [hhead] at hp'
          cases hp'
          rw [hp] at hbox'
          cases hbox'
          rw [hnext] at hrest
          cases hrest
  | @behind l r q l₂ rbox qbox hps hnone hname hr hq hheap hhead' hall htail =>
      subst hps
      have hsplit : l ++ r :: q :: l₂ = (l ++ [r]) ++ q :: l₂ := by simp
      have herase : (l ++ r :: q :: l₂).eraseP (list.isNamed boxName) = l ++ r :: l₂ := by
        rw [hsplit, List.eraseP_append_right _ fun x hx => by simp [hnone x hx], List.eraseP_cons_of_pos hname]
        simp
      rw [herase, htail, ht]
      refine iff_of_true (getLast?_unlink h.nodup) (hkeep fun p hp => hnone p ?_)
      cases l <;> simp at hp ⊢ <;> simp [hp]

/-! ## A call -/

/-- A call leaves `tail` the last box unless it takes out the only one. -/
theorem WellFormed.call_iff (h : list.WellFormed) (hc : Called list c list') : list'.WellFormed ↔ list.KeepsTail c := by
  obtain ⟨ps, hchain, htail⟩ := h
  have hiff : ∀ {ps'}, list'.Chain ps' → (list'.WellFormed ↔ list'.tail = ps'.getLast?) := by
    intro ps' hps'
    constructor
    · rintro ⟨qs, hqs, ht⟩
      rw [hps'.unique hqs]
      exact ht
    · intro ht
      exact ⟨ps', hps', ht⟩
  cases c with
  | insert addr contents boxName size pubs subs =>
      obtain ⟨hfree, rfl⟩ := called_insert.mp hc
      exact iff_of_true ⟨_, hchain.insert hfree, insert_tail htail _ _ _ _ _⟩ trivial
  | delete boxName =>
      obtain ⟨list₁, he, hd⟩ := hchain.holds.deletion boxName
      have hlist : deleteBox list boxName = some list' := hc
      rw [he] at hlist
      cases hlist
      rw [hiff (hchain.deletion hd), hchain.deletion_tail htail hd]

end BoxList

end Mbroker.Protocol
