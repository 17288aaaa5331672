import Mathlib.Data.List.Forall2
import Mbroker.Protocol.BoxList

/-!
# The names in the list of boxes

`Names list ps ns` says that the boxes at the addresses `ps` have the names `ns`, one by one.
-/

namespace Mbroker.Protocol

open Mbroker.Lib

/-! ## The name of a box -/

/-- The string in `box_name`. -/
def BoxData.name (box : BoxData) : CString := removeStringsFromBuffer box.boxName sizeofBoxName

/-- The field holds the name with its NUL. -/
def BoxData.HasName (box : BoxData) (n : CString) : Prop := n.strlen < sizeofBoxName ∧ box.boxName.IsStr n.chars

variable {box : BoxData} {n m : CString}

namespace BoxData

theorem HasName.name_eq (h : box.HasName n) : box.name = n := by
  obtain ⟨hlt, hstr⟩ := h
  cases n with
  | mk chars noNul =>
      simp only [name, removeStringsFromBuffer, CString.mk.injEq]
      exact hstr.takeWhile_bytes noNul hlt.le

theorem HasName.isStr (h : box.HasName n) : box.mem.IsStr n.chars := by
  intro i hi
  have hi' : i < sizeofBoxName := lt_of_le_of_lt hi h.1
  simpa only [mem, if_pos hi'] using h.2 i hi

theorem HasName.named_iff (h : box.HasName n) : box.named m = true ↔ n = m := by
  have hmem := h.isStr
  simp only [named, decide_eq_true_eq, strcmp_eq_zero]
  constructor
  · intro h
    have hchars := hmem.unique h n.noNul m.noNul
    cases n
    cases m
    simpa using hchars
  · rintro rfl
    exact hmem

end BoxData

namespace BoxList

variable {list list' : BoxList} {ps : List Nat} {ns : List CString}

/-! ## The names of the boxes -/

def Names (list : BoxList) (ps : List Nat) (ns : List CString) : Prop :=
  List.Forall₂ (fun p n => ∃ box, list.heap p = some box ∧ box.HasName n) ps ns

theorem empty_names : Names .empty [] [] := .nil

theorem Names.congr (h : Names list ps ns)
    (hp : ∀ p ∈ ps, ∀ box, list.heap p = some box → ∃ box', list'.heap p = some box' ∧ box'.boxName = box.boxName) :
    Names list' ps ns := by
  unfold Names at h ⊢
  induction h with
  | nil => exact .nil
  | cons hn _ ih =>
      obtain ⟨box, hbox, hlt, hstr⟩ := hn
      obtain ⟨box', hbox', hname⟩ := hp _ List.mem_cons_self box hbox
      refine .cons ⟨box', hbox', hlt, ?_⟩ (ih fun p hpm => hp p (List.mem_cons_of_mem _ hpm))
      rw [hname]
      exact hstr

theorem Names.setBox (h : Names list ps ns) {p : Nat} {box' : BoxData} (hp : list.heap p = some box)
    (hn : box'.boxName = box.boxName) : Names (list.setBox p box') ps ns := by
  refine h.congr fun q _ qbox hq => ?_
  by_cases hqp : q = p
  · subst hqp
    rw [hp] at hq
    cases hq
    exact ⟨box', Function.update_self _ _ _, hn⟩
  · exact ⟨qbox, (Function.update_of_ne hqp _ _).trans hq, rfl⟩

/-- What `strcpy` writes is the name, if there is room for it. -/
theorem insertAtBeginning_heap_self (list : BoxList) (addr : Nat) (contents : Mem) (size pubs subs : Nat)
    (hn : n.strlen < sizeofBoxName) :
    ∃ box, (insertAtBeginning list addr contents n size pubs subs).heap addr = some box ∧ box.HasName n ∧
      box.boxSize = size ∧ box.nPublishers = pubs ∧ box.nSubscribers = subs := by
  refine ⟨_, Function.update_self _ _ _, ⟨hn, ?_⟩, rfl, rfl, rfl⟩
  intro i hi
  have hi' : i < 0 + (n.strlen + 1) := by
    rw [CString.strlen]
    omega
  change Mem.copy contents 0 n.mem (n.strlen + 1) i = _
  simp only [Mem.copy_apply_of_mem (Nat.zero_le i) hi', Nat.sub_zero]
  rfl

theorem insertAtBeginning_heap_of_some {addr p : Nat} {contents : Mem} {size pubs subs : Nat}
    (hfree : list.heap addr = none) (hp : list.heap p = some box) :
    (insertAtBeginning list addr contents n size pubs subs).heap p = some box := by
  refine (Function.update_of_ne ?_ _ _).trans hp
  rintro rfl
  rw [hfree] at hp
  cases hp

theorem Names.insert (h : Names list ps ns) {addr : Nat} {contents : Mem} {size pubs subs : Nat}
    (hfree : list.heap addr = none) (hn : n.strlen < sizeofBoxName) :
    Names (insertAtBeginning list addr contents n size pubs subs) (addr :: ps) (n :: ns) := by
  obtain ⟨box, hbox, hname, -⟩ := insertAtBeginning_heap_self list addr contents size pubs subs hn
  exact .cons ⟨box, hbox, hname⟩ (h.congr fun q _ qbox hq => ⟨qbox, insertAtBeginning_heap_of_some hfree hq, rfl⟩)

theorem Names.deleteBox (h : Names list ps ns) (hsame : ∀ p ∈ ps.eraseP (list.isNamed m), SameBox list list' p) :
    Names list' (ps.eraseP (list.isNamed m)) (ns.erase m) := by
  have herase : Names list (ps.eraseP (list.isNamed m)) (ns.erase m) := by
    clear hsame
    unfold Names at h ⊢
    induction h with
    | nil => exact .nil
    | @cons p n ps ns hn hrest ih =>
        obtain ⟨box, hbox, hname⟩ := hn
        have hiff : list.isNamed m p = true ↔ n = m := by
          simpa [isNamed, hbox] using hname.named_iff
        by_cases hnm : n = m
        · subst hnm
          rw [List.eraseP_cons_of_pos (hiff.mpr rfl), List.erase_cons_head]
          exact hrest
        · rw [List.eraseP_cons_of_neg (mt hiff.mp hnm), List.erase_cons_tail (by simpa using hnm)]
          exact .cons ⟨box, hbox, hname⟩ ih
  refine herase.congr fun p hp box hbox => ?_
  obtain ⟨box₁, next, h₁, h₂⟩ := hsame p hp
  rw [hbox] at h₁
  cases h₁
  exact ⟨_, h₂, rfl⟩

/-- No box is found exactly if none has the name. -/
theorem Names.find_eq_none (h : Names list ps ns) : ps.find? (list.isNamed m) = none ↔ m ∉ ns := by
  unfold Names at h
  induction h with
  | nil => simp
  | @cons p n ps ns hn _ ih =>
      obtain ⟨box, hbox, hname⟩ := hn
      have hiff : list.isNamed m p = true ↔ n = m := by
        simpa [isNamed, hbox] using hname.named_iff
      rw [List.find?_cons, List.mem_cons, not_or]
      by_cases hnm : n = m
      · simp [hiff.mpr hnm, hnm]
      · have hfalse : list.isNamed m p = false := by
          rw [← Bool.not_eq_true, hiff]
          exact hnm
        rw [hfalse]
        simp only [ih, ne_comm.mp hnm, not_false_eq_true, true_and]

/-! ## Reading them off -/

/-- The names on the way from a pointer, in at most `k` boxes. -/
def boxNamesLoop (heap : Nat → Option BoxData) : Nat → Option Nat → List CString
  | 0, _ => []
  | _ + 1, none => []
  | k + 1, some p =>
    match heap p with
    | none => []
    | some box => box.name :: boxNamesLoop heap k box.next

/-- The `box_name` values in the list. -/
def boxNames (list : BoxList) : List CString := boxNamesLoop list.heap list.allocated list.head

theorem Names.boxNames_eq (hn : Names list ps ns) (h : Holds list ps) : list.boxNames = ns := by
  obtain ⟨hseg, hlen⟩ := h
  unfold boxNames
  unfold Names at hn
  rw [hlen]
  clear hlen
  generalize list.head = a at hseg
  induction hn generalizing a with
  | nil => rfl
  | @cons p n ps ns hpn _ ih =>
      obtain ⟨rfl, box, hbox, hseg⟩ := Seg.cons_iff.mp hseg
      obtain ⟨box', hbox', hname⟩ := hpn
      rw [hbox] at hbox'
      cases hbox'
      simp only [List.length_cons, boxNamesLoop, hbox, hname.name_eq, ih _ hseg]

end BoxList

end Mbroker.Protocol
