import Mbroker.Lib.Stacks
import Mbroker.Protocol.BoxNames
import Mbroker.Protocol.ListCalls

/-!
# The list of boxes as a map of stacks

For each name the boxes that were inserted with it and not deleted, the newest first. The calls alone say what these
stacks are, the list of boxes and its pointers do not appear; `Kept` ties the two together.
-/

namespace Mbroker.Protocol

open Mbroker.Lib

/-! ## The calls on the stacks -/

/-- A box as it was inserted: where, and with which fields besides its name. -/
structure Inserted where
  addr : Nat
  boxSize : Nat
  nPublishers : Nat
  nSubscribers : Nat
  deriving DecidableEq

namespace ListCall

/-- A name that is inserted fits `box_name` with its NUL. -/
def NameFits : ListCall → Prop
  | .insert _ _ boxName _ _ _ => boxName.strlen < sizeofBoxName
  | .delete _ => True

instance : DecidablePred NameFits
  | .insert _ _ boxName _ _ _ => inferInstanceAs (Decidable (boxName.strlen < sizeofBoxName))
  | .delete _ => isTrue trivial

def stack (m : Stacks CString Inserted) : ListCall → Stacks CString Inserted
  | .insert addr _ boxName boxSize nPublishers nSubscribers =>
    m.push boxName ⟨addr, boxSize, nPublishers, nSubscribers⟩
  | .delete boxName => m.pop boxName

/-- The stacks after a sequence of calls. -/
def stacksOf (cs : List ListCall) : Stacks CString Inserted := cs.foldl stack .empty

end ListCall

/-! ## What the list keeps -/

namespace BoxList

variable {list list' : BoxList} {c : ListCall} {cs : List ListCall} {xs : List (CString × Inserted)} {n : CString}

/-- The box is where it was inserted, with the name and the fields it was inserted with. -/
def KeepsBox (list : BoxList) (x : CString × Inserted) : Prop :=
  ∃ box, list.heap x.2.addr = some box ∧ box.HasName x.1 ∧ box.boxSize = x.2.boxSize ∧
    box.nPublishers = x.2.nPublishers ∧ box.nSubscribers = x.2.nSubscribers

/-- The list holds the boxes `xs`, in this order, as they were inserted. -/
structure Kept (list : BoxList) (xs : List (CString × Inserted)) : Prop where
  chain : list.Chain (xs.map fun x => x.2.addr)
  boxes : ∀ x ∈ xs, list.KeepsBox x

theorem empty_kept : Kept .empty [] := ⟨empty_chain, by simp⟩

theorem KeepsBox.isNamed_eq {x : CString × Inserted} (h : list.KeepsBox x) (n : CString) :
    list.isNamed n x.2.addr = decide (x.1 = n) := by
  obtain ⟨box, hbox, hname, -⟩ := h
  rw [isNamed, hbox, Option.any_some, Bool.eq_iff_iff, hname.named_iff, decide_eq_true_iff]

theorem KeepsBox.same {x : CString × Inserted} (h : list.KeepsBox x) (hsame : SameBox list list' x.2.addr) :
    list'.KeepsBox x := by
  obtain ⟨box, hbox, hname, hfields⟩ := h
  obtain ⟨box', next, hold, hnew⟩ := hsame
  rw [hbox] at hold
  cases hold
  exact ⟨_, hnew, hname, hfields⟩

/-- A name that no box has takes none out. -/
theorem Deletion.eq_of_find?_eq_none {ps : List Nat} (hd : Deletion list ps n list')
    (h : ps.find? (list.isNamed n) = none) : list' = list := by
  rw [List.find?_eq_none] at h
  cases hd with
  | absent _ he => exact he
  | head hps _ hname _ => exact absurd hname (h _ (by simp [hps]))
  | behind hps _ hname => exact absurd hname (h _ (by simp [hps]))

namespace Kept

theorem insert (h : list.Kept xs) {addr size pubs subs : Nat} {contents : Mem} (hfree : list.heap addr = none)
    (hn : n.strlen < sizeofBoxName) :
    (insertAtBeginning list addr contents n size pubs subs).Kept ((n, ⟨addr, size, pubs, subs⟩) :: xs) := by
  refine ⟨h.chain.insert hfree, fun x hx => ?_⟩
  rcases List.mem_cons.mp hx with rfl | hx
  · exact insertAtBeginning_heap_self list addr contents size pubs subs hn
  · obtain ⟨box, hbox, hfields⟩ := h.boxes x hx
    exact ⟨box, insertAtBeginning_heap_of_some hfree hbox, hfields⟩

/-- The box a walk finds is the first one that was inserted with the name. -/
theorem find?_isNamed (h : list.Kept xs) (n : CString) :
    (xs.map fun x => x.2.addr).find? (list.isNamed n) = ((Stacks.ofEntries xs).top n).map Inserted.addr := by
  have hcongr : xs.find? (list.isNamed n ∘ fun x => x.2.addr) = xs.find? fun x => x.1 = n :=
    List.find?_congr fun x hx => (h.boxes x hx).isNamed_eq n
  rw [List.find?_map, hcongr, Stacks.top_ofEntries, Option.map_map]
  rfl

theorem eraseP_isNamed (h : list.Kept xs) (n : CString) :
    (xs.map fun x => x.2.addr).eraseP (list.isNamed n) = (xs.eraseP fun x => x.1 = n).map fun x => x.2.addr := by
  have hcongr : xs.eraseP (list.isNamed n ∘ fun x => x.2.addr) = xs.eraseP fun x => x.1 = n :=
    eraseP_congr fun x hx => (h.boxes x hx).isNamed_eq n
  rw [List.eraseP_map, hcongr]

/-- `find_box` finds the top of the stack. -/
theorem findBox (h : list.Kept xs) (n : CString) :
    findBox list list.head n = some (((Stacks.ofEntries xs).top n).map Inserted.addr) := by
  rw [h.chain.holds.findBox, h.find?_isNamed]

/-- `delete_box` takes the top off the stack, and every other box stays as it is. -/
theorem deleteBox (h : list.Kept xs) (n : CString) :
    ∃ list', deleteBox list n = some list' ∧ list'.Kept (xs.eraseP fun x => x.1 = n) ∧
      (∀ x ∈ xs.eraseP fun x => x.1 = n, SameBox list list' x.2.addr) ∧
      ((Stacks.ofEntries xs).top n = none → list' = list) := by
  obtain ⟨list', he, hd⟩ := h.chain.holds.deletion n
  have hchain := h.chain.deletion hd
  have hsame := (hd.holds h.chain.holds).2
  rw [h.eraseP_isNamed] at hchain hsame
  have hbox : ∀ x ∈ xs.eraseP fun x => x.1 = n, SameBox list list' x.2.addr :=
    fun x hx => hsame _ (List.mem_map_of_mem hx)
  have hboxes : ∀ x ∈ xs.eraseP fun x => x.1 = n, list'.KeepsBox x :=
    fun x hx => (h.boxes x (List.mem_of_mem_eraseP hx)).same (hbox x hx)
  refine ⟨list', he, ⟨hchain, hboxes⟩, hbox, fun hnone => hd.eq_of_find?_eq_none ?_⟩
  rw [h.find?_isNamed, hnone, Option.map_none]

/-- A call does to the entries of the list what it does to the stacks. -/
theorem call (h : list.Kept xs) (hc : Called list c list') (hfits : c.NameFits) :
    ∃ xs', list'.Kept xs' ∧ Stacks.ofEntries xs' = c.stack (Stacks.ofEntries xs) := by
  cases c with
  | insert addr contents boxName size pubs subs =>
      obtain ⟨hfree, rfl⟩ := called_insert.mp hc
      exact ⟨_, h.insert hfree hfits, Stacks.ofEntries_cons _ _ _⟩
  | delete boxName =>
      obtain ⟨list₁, he, hkept, -⟩ := h.deleteBox boxName
      have hlist : Protocol.deleteBox list boxName = some list' := hc
      rw [he] at hlist
      cases hlist
      exact ⟨_, hkept, Stacks.ofEntries_eraseP _ _⟩

/-- A sequence of calls, from entries that stand for the stacks `m`. -/
theorem steps (hsteps : Steps (Guarded (fun _ c => c.NameFits) Called) list cs list') :
    ∀ {xs}, list.Kept xs → ∃ xs', list'.Kept xs' ∧ Stacks.ofEntries xs' = cs.foldl ListCall.stack (.ofEntries xs) := by
  induction hsteps with
  | nil =>
      intro xs h
      exact ⟨xs, h, rfl⟩
  | cons hs _ ih =>
      intro xs h
      obtain ⟨xs₁, hkept, hstack⟩ := h.call hs.2 hs.1
      obtain ⟨xs', hkept', hstacks⟩ := ih hkept
      exact ⟨xs', hkept', by rw [hstacks, hstack, List.foldl_cons]⟩

end Kept

/-- After every sequence of calls from the empty list, it holds what the stacks hold. -/
theorem kept_of_steps (h : Steps (Guarded (fun _ c => c.NameFits) Called) .empty cs list) :
    ∃ xs, list.Kept xs ∧ Stacks.ofEntries xs = ListCall.stacksOf cs := by
  obtain ⟨xs, hkept, hstacks⟩ := Kept.steps h empty_kept
  rw [Stacks.ofEntries_nil] at hstacks
  exact ⟨xs, hkept, hstacks⟩

end BoxList

end Mbroker.Protocol
