import Mbroker.Lib.LinkedList
import Mbroker.Protocol.Messages

/-!
# The list of boxes

`BoxData`, `BoxList` and the functions of `protocol/protocol.c` on them. A pointer is the address that `malloc`
gave; an address that was freed, or never given, holds nothing, and a function that follows a pointer to it
does not return.
-/

namespace Mbroker.Protocol

open Mbroker.Lib

/-! ## Boxes -/

structure BoxData where
  boxName : Mem
  boxSize : Nat
  nPublishers : Nat
  nSubscribers : Nat
  /-- Whether `box_condvar_lock` is taken. -/
  boxCondvarLock : Bool
  next : Option Nat

/-- The bytes from `box_name` on, as far as the end of `box_size`: a name that fills its field goes on there. -/
def BoxData.mem (box : BoxData) : Mem :=
  fun i => if i < sizeofBoxName then box.boxName i else leMem box.boxSize (i - sizeofBoxName)

/-- `strcmp(box_name, box->box_name) == 0` -/
def BoxData.named (box : BoxData) (boxName : CString) : Bool := strcmp box.mem boxName = 0

structure BoxList where
  heap : Nat → Option BoxData
  /-- How many addresses hold a box. -/
  allocated : Nat
  head : Option Nat
  tail : Option Nat
  /-- Whether `box_list_lock` is taken. -/
  boxListLock : Bool

namespace BoxList

def empty : BoxList := ⟨fun _ => none, 0, none, none, false⟩

def setBox (list : BoxList) (p : Nat) (box : BoxData) : BoxList :=
  { list with heap := Function.update list.heap p (some box) }

/-- `free(p)` -/
def free (list : BoxList) (p : Nat) : BoxList :=
  { list with heap := Function.update list.heap p none, allocated := list.allocated - 1 }

end BoxList

/-! ## Functions -/

/-- `addr` is what `malloc` returns, and `contents` what the memory there holds. What `strcpy` writes behind
`box_name` is overwritten by the fields that are set after it. -/
def insertAtBeginning (list : BoxList) (addr : Nat) (contents : Mem) (boxName : CString)
    (boxSize nPublishers nSubscribers : Nat) : BoxList :=
  let newBoxData : BoxData :=
    { boxName := contents.copy 0 boxName.mem (boxName.strlen + 1)
      boxSize := boxSize
      nPublishers := nPublishers
      nSubscribers := nSubscribers
      boxCondvarLock := false
      next := list.head }
  { list with
    heap := Function.update list.heap addr (some newBoxData)
    allocated := list.allocated + 1
    head := some addr
    tail := if list.tail = none then some addr else list.tail }

/-- The loop of `find_box`, for at most `n` rounds. -/
def findBoxLoop (heap : Nat → Option BoxData) (boxName : CString) : Nat → Option Nat → Option (Option Nat)
  | 0, _ => none
  | _ + 1, none => some none
  | n + 1, some p => do
    let box ← heap p
    if box.named boxName then some (some p) else findBoxLoop heap boxName n box.next

/-- A walk that meets more nodes than there are goes round for ever. -/
def findBox (list : BoxList) (current : Option Nat) (boxName : CString) : Option (Option Nat) :=
  findBoxLoop list.heap boxName (list.allocated + 1) current

/-- The loop of `delete_box`, which moves `prev` and `temp` on as long as `temp` is another box. -/
def deleteBoxLoop (heap : Nat → Option BoxData) (boxName : CString) :
    Nat → Option Nat → Option Nat → Option (Option Nat × Option Nat)
  | 0, _, _ => none
  | _ + 1, prev, none => some (prev, none)
  | n + 1, prev, some temp => do
    let box ← heap temp
    if box.named boxName then some (prev, some temp) else deleteBoxLoop heap boxName n (some temp) box.next

/-- The end of `delete_box`: `temp` is taken out from behind `prev`. -/
def unlinkBox (list : BoxList) (prev temp : Nat) : Option BoxList := do
  let box ← list.heap temp
  let prevBox ← list.heap prev
  let list := list.setBox prev { prevBox with next := box.next }
  let list := if some temp = list.tail then { list with tail := some prev } else list
  some (list.free temp)

def deleteBox (list : BoxList) (boxName : CString) : Option BoxList :=
  match list.head with
  | none => some list
  | some temp => do
    let box ← list.heap temp
    if box.named boxName then some ({ list with head := box.next }.free temp)
    else
      match ← deleteBoxLoop list.heap boxName (list.allocated + 1) none list.head with
      | (some prev, some temp) => unlinkBox list prev temp
      | (none, some _) => none
      | (_, none) => some list

/-! ## What the list holds -/

namespace BoxList

variable {list list' : BoxList} {ps : List Nat} {boxName : CString}

/-- The boxes of the list are those at the addresses `ps`, and there are no others. -/
structure Holds (list : BoxList) (ps : List Nat) : Prop where
  seg : Seg list.heap BoxData.next list.head ps none
  allocated : list.allocated = ps.length

theorem empty_holds : Holds .empty [] := ⟨.nil, rfl⟩

/-- Whether the box at `p` has the name. -/
def isNamed (list : BoxList) (boxName : CString) (p : Nat) : Bool := (list.heap p).any (·.named boxName)

theorem findBoxLoop_eq {heap : Nat → Option BoxData} {a : Option Nat} (h : Seg heap BoxData.next a ps none) {n : Nat}
    (hn : ps.length < n) :
    findBoxLoop heap boxName n a = some (ps.find? fun p => (heap p).any (·.named boxName)) := by
  induction ps generalizing a n with
  | nil =>
      cases h
      cases n with
      | zero => cases hn
      | succ n => rfl
  | cons p ps ih =>
      obtain ⟨rfl, box, hp, h⟩ := Seg.cons_iff.mp h
      cases n with
      | zero => cases hn
      | succ n =>
          have hrec := ih h (by simpa using hn)
          by_cases hname : box.named boxName = true
          · simp [findBoxLoop, hp, hname]
          · simp [findBoxLoop, hp, hname, hrec]

theorem Holds.findBox (h : Holds list ps) : findBox list list.head boxName = some (ps.find? (list.isNamed boxName)) :=
  findBoxLoop_eq h.seg (by rw [h.allocated]; exact Nat.lt_succ_self _)

theorem Holds.unique {ps' : List Nat} (h : Holds list ps) (h' : Holds list ps') : ps = ps' := h.seg.unique h'.seg

/-- Taking out the first node that meets a condition keeps all others. -/
theorem mem_eraseP_iff {f : Nat → Bool} {p : Nat} (hnd : ps.Nodup) :
    p ∈ ps.eraseP f ↔ p ∈ ps ∧ ps.find? f ≠ some p := by
  induction ps with
  | nil => simp
  | cons q qs ih =>
      obtain ⟨hq, hnd⟩ := List.nodup_cons.mp hnd
      by_cases hf : f q = true
      · rw [List.eraseP_cons_of_pos hf, List.find?_cons_of_pos hf, List.mem_cons]
        constructor
        · intro hp
          refine ⟨Or.inr hp, fun he => ?_⟩
          cases he
          exact hq hp
        · rintro ⟨rfl | hp, hne⟩
          · exact absurd rfl hne
          · exact hp
      · rw [List.eraseP_cons_of_neg hf, List.find?_cons_of_neg hf, List.mem_cons, List.mem_cons, ih hnd]
        constructor
        · rintro (rfl | ⟨hp, hne⟩)
          · exact ⟨Or.inl rfl, fun he => hq (List.mem_of_find?_eq_some he)⟩
          · exact ⟨Or.inr hp, hne⟩
        · rintro ⟨rfl | hp, hne⟩
          · exact Or.inl rfl
          · exact Or.inr ⟨hp, hne⟩

theorem Holds.insert (h : Holds list ps) {addr : Nat} {contents : Mem} {size pubs subs : Nat}
    (hfree : list.heap addr = none) :
    Holds (insertAtBeginning list addr contents boxName size pubs subs) (addr :: ps) :=
  ⟨h.seg.push hfree rfl, by simp [insertAtBeginning, h.allocated]⟩

theorem Holds.setBox (h : Holds list ps) {p : Nat} {box box' : BoxData} (hp : list.heap p = some box)
    (hn : box'.next = box.next) : Holds (list.setBox p box') ps :=
  ⟨h.seg.update_node hp hn, h.allocated⟩

/-- The loop stops at the first box with the name, and `prev` is the box before it. -/
theorem deleteBoxLoop_eq {heap : Nat → Option BoxData} {a : Option Nat} (h : Seg heap BoxData.next a ps none)
    {n : Nat} (hn : ps.length < n) (prev : Option Nat) :
    (∀ p ∈ ps, (heap p).any (·.named boxName) = false) ∧
        (∃ prev', deleteBoxLoop heap boxName n prev a = some (prev', none)) ∨
      ∃ l₁ p l₂, ps = l₁ ++ p :: l₂ ∧ (∀ q ∈ l₁, (heap q).any (·.named boxName) = false) ∧
        (heap p).any (·.named boxName) = true ∧
        deleteBoxLoop heap boxName n prev a = some ((l₁.getLast?).or prev, some p) := by
  induction ps generalizing a prev n with
  | nil =>
      cases h
      cases n with
      | zero => cases hn
      | succ n => exact Or.inl ⟨nofun, prev, rfl⟩
  | cons p ps ih =>
      obtain ⟨rfl, box, hp, h⟩ := Seg.cons_iff.mp h
      cases n with
      | zero => cases hn
      | succ n =>
          by_cases hname : box.named boxName = true
          · refine Or.inr ⟨[], p, ps, rfl, nofun, by simp [hp, hname], ?_⟩
            simp [deleteBoxLoop, hp, hname]
          · have hstep : deleteBoxLoop heap boxName (n + 1) prev (some p) =
                deleteBoxLoop heap boxName n (some p) box.next := by simp [deleteBoxLoop, hp, hname]
            have hother : (heap p).any (·.named boxName) = false := by simp [hp, hname]
            rw [hstep]
            obtain ⟨hnone, prev', hloop⟩ | ⟨l₁, q, l₂, rfl, hl₁, hq, hloop⟩ :=
              ih h (by simpa using hn) (some p)
            · refine Or.inl ⟨?_, prev', hloop⟩
              simpa [hother] using hnone
            · refine Or.inr ⟨p :: l₁, q, l₂, rfl, ?_, hq, ?_⟩
              · simpa [hother] using hl₁
              · rw [hloop]
                cases l₁ with
                | nil => rfl
                | cons x xs => simp [List.getLast?_cons]

/-- The box at `p` is the same in both lists, but for its pointer. -/
def SameBox (list list' : BoxList) (p : Nat) : Prop :=
  ∃ box next, list.heap p = some box ∧ list'.heap p = some { box with next := next }

theorem SameBox.of_heap {p : Nat} {box : BoxData} (hp : list.heap p = some box) (hp' : list'.heap p = list.heap p) :
    SameBox list list' p := ⟨box, box.next, hp, hp'.trans hp⟩

theorem unlinkBox_eq {p q : Nat} {box prevBox : BoxData} (hp : list.heap p = some box)
    (hq : list.heap q = some prevBox) :
    ∃ list', unlinkBox list q p = some list' ∧
      list'.heap = Function.update (Function.update list.heap q (some { prevBox with next := box.next })) p none ∧
      list'.head = list.head ∧ list'.allocated = list.allocated - 1 ∧
      list'.tail = if some p = list.tail then some q else list.tail := by
  refine ⟨_, by simp only [unlinkBox, hp, hq, Option.bind_eq_bind, Option.bind_some]; rfl, ?_⟩
  split
  · rename_i htail
    exact ⟨rfl, rfl, rfl, (if_pos htail).symm⟩
  · rename_i htail
    exact ⟨rfl, rfl, rfl, (if_neg htail).symm⟩

/-- What `delete_box` does to the boxes at `ps`: nothing, or it takes out the first of them, or one behind another. -/
inductive Deletion (list : BoxList) (ps : List Nat) (boxName : CString) (list' : BoxList) : Prop
  | absent : (∀ p ∈ ps, list.isNamed boxName p = false) → list' = list → Deletion list ps boxName list'
  | head {p qs box} : ps = p :: qs → list.heap p = some box → list.isNamed boxName p = true →
      list' = { list with head := box.next }.free p → Deletion list ps boxName list'
  | behind {l r q l₂ rbox qbox} : ps = l ++ r :: q :: l₂ → (∀ p ∈ l ++ [r], list.isNamed boxName p = false) →
      list.isNamed boxName q = true → list.heap r = some rbox → list.heap q = some qbox →
      list'.heap = Function.update (Function.update list.heap r (some { rbox with next := qbox.next })) q none →
      list'.head = list.head → list'.allocated = list.allocated - 1 →
      list'.tail = (if some q = list.tail then some r else list.tail) → Deletion list ps boxName list'

theorem Holds.deletion (h : Holds list ps) (boxName : CString) :
    ∃ list', deleteBox list boxName = some list' ∧ Deletion list ps boxName list' := by
  cases ps with
  | nil =>
      have hhead : list.head = none := Seg.nil_iff.mp h.seg
      exact ⟨list, by simp [Protocol.deleteBox, hhead], .absent nofun rfl⟩
  | cons p ps =>
      obtain ⟨hhead, box, hp, hrest⟩ := Seg.cons_iff.mp h.seg
      by_cases hname : box.named boxName = true
      · exact ⟨_, by simp [Protocol.deleteBox, hhead, hp, hname],
          .head rfl hp (by simp [isNamed, hp, hname]) rfl⟩
      · have hdelete : ∀ {r}, deleteBoxLoop list.heap boxName (list.allocated + 1) none list.head = some r →
            Protocol.deleteBox list boxName = match r with
              | (some prev, some temp) => unlinkBox list prev temp
              | (none, some _) => none
              | (_, none) => some list := by
          intro r hr
          rw [hhead] at hr
          simp [Protocol.deleteBox, hhead, hp, hname, hr]
        obtain ⟨hnone, prev', hr⟩ | ⟨l₁, q, l₂, hsplit, hl₁, hq, hr⟩ :=
          @deleteBoxLoop_eq _ boxName _ _ h.seg (list.allocated + 1)
            (by rw [h.allocated]; exact Nat.lt_succ_self _) none
        · refine ⟨list, ?_, .absent hnone rfl⟩
          rw [hdelete hr]
          cases prev' <;> rfl
        · obtain ⟨l, r, rfl⟩ : ∃ l r, l₁ = l ++ [r] := by
            rcases List.eq_nil_or_concat l₁ with rfl | ⟨l, r, rfl⟩
            · rw [List.nil_append, List.cons.injEq] at hsplit
              obtain ⟨rfl, -⟩ := hsplit
              simp [hp, hname] at hq
            · exact ⟨l, r, by simp⟩
          have hsplit' : p :: ps = l ++ r :: q :: l₂ := by simpa using hsplit
          obtain ⟨qbox, hqbox⟩ := h.seg.allocated (show q ∈ p :: ps by rw [hsplit']; simp)
          obtain ⟨rbox, hrbox⟩ := h.seg.allocated (show r ∈ p :: ps by rw [hsplit']; simp)
          obtain ⟨list', hlist', hheap, hhead', hall, htail⟩ := unlinkBox_eq hqbox hrbox
          refine ⟨list', ?_, .behind hsplit' hl₁ hq hrbox hqbox hheap hhead' hall htail⟩
          rw [hdelete hr]
          simpa using hlist'

/-- `delete_box` takes out the first box with the name, and frees it. -/
theorem Deletion.holds (hd : Deletion list ps boxName list') (h : Holds list ps) :
    Holds list' (ps.eraseP (list.isNamed boxName)) ∧
      ∀ p ∈ ps.eraseP (list.isNamed boxName), SameBox list list' p := by
  have hsame : ∀ p ∈ ps, list'.heap p = list.heap p → SameBox list list' p := by
    intro p hp he
    obtain ⟨box, hbox⟩ := h.seg.allocated hp
    exact .of_heap hbox he
  cases hd with
  | absent hnone he =>
      subst he
      rw [List.eraseP_of_forall_not fun x hx => by simp [hnone x hx]]
      exact ⟨h, fun p hp => hsame p hp rfl⟩
  | @head p qs box hps hp hname he =>
      subst hps he
      rw [List.eraseP_cons_of_pos hname]
      have hnodup := List.nodup_cons.mp h.seg.nodup
      have hseg := h.seg
      rw [(Seg.cons_iff.mp hseg).1] at hseg
      refine ⟨⟨hseg.pop hp, by simp [free, h.allocated]⟩, fun q hq => hsame q (List.mem_cons_of_mem _ hq) ?_⟩
      refine Function.update_of_ne ?_ _ _
      rintro rfl
      exact hnodup.1 hq
  | @behind l r q l₂ rbox qbox hps hnone hname hr hq hheap hhead hall htail =>
      subst hps
      have herase : (l ++ r :: q :: l₂).eraseP (list.isNamed boxName) = l ++ r :: l₂ := by
        have hl : l ++ r :: q :: l₂ = (l ++ [r]) ++ q :: l₂ := by simp
        rw [hl, List.eraseP_append_right _ fun x hx => by simp [hnone x hx], List.eraseP_cons_of_pos hname]
        simp
      rw [herase]
      refine ⟨⟨?_, ?_⟩, fun x hx => ?_⟩
      · rw [hheap, hhead]
        exact h.seg.unlink hr hq rfl
      · have hlen := h.allocated
        simp only [List.length_append, List.length_cons] at hlen ⊢
        omega
      · have hnd := h.seg.nodup
        rw [List.nodup_append, List.nodup_cons, List.nodup_cons] at hnd
        obtain ⟨-, ⟨hrq, hql, -⟩, hdisj⟩ := hnd
        have hxq : x ≠ q := by
          rintro rfl
          rcases List.mem_append.mp hx with hx | hx
          · exact hdisj x hx x (by simp) rfl
          · rcases List.mem_cons.mp hx with rfl | hx
            · exact hrq List.mem_cons_self
            · exact hql hx
        by_cases hxr : x = r
        · subst hxr
          exact ⟨rbox, qbox.next, hr, by rw [hheap, Function.update_of_ne hxq, Function.update_self]⟩
        · refine hsame x ?_ (by rw [hheap, Function.update_of_ne hxq, Function.update_of_ne hxr])
          simp only [List.mem_append, List.mem_cons] at hx ⊢
          tauto

theorem Holds.deleteBox (h : Holds list ps) :
    ∃ list', deleteBox list boxName = some list' ∧ Holds list' (ps.eraseP (list.isNamed boxName)) ∧
      ∀ p ∈ ps.eraseP (list.isNamed boxName), SameBox list list' p := by
  obtain ⟨list', he, hd⟩ := h.deletion boxName
  exact ⟨list', he, hd.holds h⟩

/-! ## A single address -/

@[simp] theorem setBox_heap_same {p : Nat} {box : BoxData} : (list.setBox p box).heap p = some box :=
  Function.update_self _ _ _

theorem setBox_heap_ne {p q : Nat} {box : BoxData} (h : q ≠ p) : (list.setBox p box).heap q = list.heap q :=
  Function.update_of_ne h _ _

theorem deleteBoxLoop_named {heap : Nat → Option BoxData} {n : Nat} {prev a prev' : Option Nat} {p : Nat}
    (h : deleteBoxLoop heap boxName n prev a = some (prev', some p)) : (heap p).any (·.named boxName) = true := by
  induction n generalizing prev a with
  | zero => cases h
  | succ n ih =>
      cases a with
      | none => cases h
      | some q =>
          obtain ⟨box, hq, h⟩ := Option.bind_eq_some_iff.mp h
          split at h
          · rename_i hname
            cases h
            rw [hq]
            exact hname
          · exact ih h

/-- The address holds nothing more, or the box that it held. -/
inductive AfterDelete (list list' : BoxList) (boxName : CString) (p : Nat) : Prop
  | none : list.heap p = none → list'.heap p = none → AfterDelete list list' boxName p
  | freed : list.isNamed boxName p = true → list'.heap p = none → AfterDelete list list' boxName p
  | same : SameBox list list' p → AfterDelete list list' boxName p

theorem AfterDelete.refl (p : Nat) : AfterDelete list list boxName p := by
  cases hp : list.heap p with
  | none => exact .none hp hp
  | some box => exact .same (.of_heap hp rfl)

/-- After one box was given another pointer, and one with the name was freed. -/
theorem AfterDelete.of_update {q r p : Nat} {next : Option Nat} {box : BoxData} (hq : list.isNamed boxName q = true)
    (hr : list.heap r = some box)
    (hheap : list'.heap = Function.update (Function.update list.heap r (some { box with next := next })) q .none) :
    AfterDelete list list' boxName p := by
  by_cases hpq : p = q
  · subst hpq
    exact .freed hq (by rw [hheap, Function.update_self])
  · by_cases hpr : p = r
    · subst hpr
      exact .same ⟨box, next, hr, by rw [hheap, Function.update_of_ne hpq, Function.update_self]⟩
    · have hp : list'.heap p = list.heap p := by
        rw [hheap, Function.update_of_ne hpq, Function.update_of_ne hpr]
      cases hbox : list.heap p with
      | none => exact .none hbox (hp.trans hbox)
      | some box' => exact .same (.of_heap hbox hp)

/-- Whatever the list is, `delete_box` frees at most a box with the name. -/
theorem deleteBox_heap (h : Protocol.deleteBox list boxName = some list') (p : Nat) :
    AfterDelete list list' boxName p := by
  unfold Protocol.deleteBox at h
  split at h
  · cases h
    exact .refl p
  · rename_i temp hhead
    obtain ⟨box, htemp, h⟩ := Option.bind_eq_some_iff.mp h
    split at h
    · rename_i hname
      cases h
      have hheap : (list.free temp).heap =
          Function.update (Function.update list.heap temp (some { box with next := box.next })) temp .none :=
        (Function.update_idem _ _ _).symm
      exact .of_update (by rw [isNamed, htemp]; exact hname) htemp hheap
    · obtain ⟨⟨prev, found⟩, hloop, h⟩ := Option.bind_eq_some_iff.mp h
      cases found with
      | none =>
          cases prev <;> cases h <;> exact .refl p
      | some q =>
          cases prev with
          | none => cases h
          | some r =>
              have hq := deleteBoxLoop_named hloop
              obtain ⟨qbox, hqbox, h'⟩ := Option.bind_eq_some_iff.mp h
              obtain ⟨rbox, hrbox, -⟩ := Option.bind_eq_some_iff.mp h'
              obtain ⟨list₁, hun, hheap, -⟩ := unlinkBox_eq hqbox hrbox
              have hlist : unlinkBox list r q = some list' := h
              rw [hun] at hlist
              cases hlist
              exact .of_update hq hrbox hheap

/-! ## A single field -/

/-- Every box of `list'` was one of `list`, with the same value of `f`. -/
def Keeps {α : Type} (f : BoxData → α) (list list' : BoxList) : Prop :=
  ∀ p box', list'.heap p = some box' → ∃ box, list.heap p = some box ∧ f box' = f box

namespace Keeps

variable {α : Type} {f : BoxData → α}

theorem refl : Keeps f list list := fun _ box' h => ⟨box', h, rfl⟩

theorem setBox {p : Nat} {box box' : BoxData} (hp : list.heap p = some box) (hf : f box' = f box) :
    Keeps f list (list.setBox p box') := by
  intro q qbox hq
  by_cases hqp : q = p
  · subst hqp
    rw [setBox_heap_same] at hq
    cases hq
    exact ⟨box, hp, hf⟩
  · rw [setBox_heap_ne hqp] at hq
    exact ⟨qbox, hq, rfl⟩

theorem deleteBox (hf : ∀ box next, f { box with next := next } = f box)
    (he : Protocol.deleteBox list boxName = some list') : Keeps f list list' := by
  intro q qbox hq
  cases deleteBox_heap he q with
  | none hold hnew | freed hold hnew =>
      rw [hnew] at hq
      cases hq
  | same hsame =>
      obtain ⟨box, next, hold, hnew⟩ := hsame
      rw [hnew] at hq
      cases hq
      exact ⟨box, hold, hf box next⟩

end Keeps

end BoxList

end Mbroker.Protocol
