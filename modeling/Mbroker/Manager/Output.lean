import Mbroker.Manager.Invariants
import Mbroker.Protocol.BoxSort

/-!
# What a listing prints

`manager/manager.c` behind the last read of a listing: the sort of the boxes, and the loop that prints them.
-/

namespace Mbroker.Manager

open Mbroker.Lib Mbroker.Protocol Mbroker.Sessions

/-! ## The lines -/

/-- `%zu` -/
def decimal (n : Nat) : List UInt8 := (Nat.toDigits 10 n).map fun c => UInt8.ofNat c.toNat

def space : UInt8 := 32

structure Entry where
  boxName : CString
  boxSize : Nat
  nPublishers : Nat
  nSubscribers : Nat

/-- `"%s %zu %zu %zu\n"` -/
def Entry.line (e : Entry) : List UInt8 :=
  e.boxName.chars ++ space :: (decimal e.boxSize ++ space :: (decimal e.nPublishers ++ space ::
    (decimal e.nSubscribers ++ [newline])))

/-- The fields of a node. Nothing is printed behind the eight bytes of `box_size`. -/
def entry (box : BoxData) : Entry where
  boxName := removeStringsFromBuffer box.mem (sizeofBoxName + 8)
  boxSize := box.boxSize
  nPublishers := box.nPublishers
  nSubscribers := box.nSubscribers

/-- The loop that prints the boxes, in at most `n` rounds. -/
def printLoop (heap : Nodes) : Nat → Option Nat → Option (List UInt8)
  | 0, _ => none
  | _ + 1, none => some []
  | n + 1, some boxData => do
    let box ← heap boxData
    let rest ← printLoop heap n box.next
    some ((entry box).line ++ rest)

def noBoxesFound : List UInt8 := (ascii "NO BOXES FOUND\n").chars

/-- What is printed behind the last read. -/
def Listing.stdout (s : Listing) : Option (List UInt8) :=
  let rounds := s.boxListSort.allocated + 1
  match s.client with
  | .noBoxes => some noBoxesFound
  | .sorting =>
    (mergeSortBoxdataList rounds s.boxListSort.heap s.boxListSort.head).bind fun sorted =>
      printLoop sorted.1 rounds sorted.2
  | _ => none

/-! ## The order of the lines -/

def byName (e e' : Entry) : Bool := decide (e.boxName.chars ≤ e'.boxName.chars)

def entryAt (heap : Nodes) (q : Nat) : Entry := ((heap q).map entry).getD ⟨ascii "", 0, 0, 0⟩

/-- The test that `merge_sort_boxdata_list` makes of the other two nodes fails. -/
def notLess (heap : Nodes) (p q : Nat) : Bool := !heap.less q p

variable {heap heap' : Nodes} {list : BoxList} {s : Listing} {p q : Nat} {ps qs : List Nat} {a : Option Nat}
  {box : BoxData} {n : CString} {e : Entry} {entries : List Entry}

theorem entry_of_hasName (h : box.HasName n) :
    entry box = ⟨n, box.boxSize, box.nPublishers, box.nSubscribers⟩ := by
  have hlen : n.chars.length ≤ sizeofBoxName + 8 := h.1.le.trans (Nat.le_add_right _ _)
  cases n with
  | mk chars noNul =>
      simp only [entry, removeStringsFromBuffer, Entry.mk.injEq, CString.mk.injEq, and_self, and_true]
      exact h.isStr.takeWhile_bytes noNul hlen

theorem entryAt_of_sameData (h : heap.SameData heap') (q : Nat) : entryAt heap' q = entryAt heap q := by
  have hentry : ∀ o : Option BoxData, o.map entry = (o.map fun box => { box with next := none }).map entry := by
    intro o
    cases o <;> rfl
  rw [entryAt, entryAt, hentry, h q, ← hentry]

theorem printLoop_eq (h : Seg heap BoxData.next a ps none) {n : Nat} (hn : ps.length < n) :
    printLoop heap n a = some (ps.flatMap fun p => (entryAt heap p).line) := by
  induction ps generalizing a n with
  | nil =>
      cases h
      cases n with
      | zero => cases hn
      | succ n => rfl
  | cons p ps ih =>
      obtain ⟨rfl, box, hp, h⟩ := Seg.cons_iff.mp h
      cases n with
      | zero => cases hn
      | succ n =>
          have hrest := ih h (Nat.lt_of_succ_lt_succ hn)
          simp [printLoop, hp, hrest, entryAt]

/-- The nodes have the names of their entries. -/
def Named (heap : Nodes) (qs : List Nat) : Prop :=
  ∀ q ∈ qs, ∃ box, heap q = some box ∧ box.HasName (entryAt heap q).boxName

theorem Named.less_iff (h : Named heap qs) (hp : p ∈ qs) (hq : q ∈ qs) :
    heap.less p q = true ↔ (entryAt heap p).boxName.chars < (entryAt heap q).boxName.chars := by
  obtain ⟨box, hp, hname⟩ := h p hp
  obtain ⟨box', hq, hname'⟩ := h q hq
  rw [Nodes.less_iff hp hq, strcmpNames]
  exact strncmp_neg_iff hname.isStr hname'.isStr (CString.noNul _) (CString.noNul _)
    (hname'.1.trans_le (Nat.le_add_right _ _))

/-- The sort puts the entries in the order of their names, and leaves those of one name in the order of the list turned
round. -/
theorem Named.mergeSort (h : Named heap qs) {qs' : List Nat} (hnd : qs.Nodup) (hsort : MergeSorts heap.less qs qs') :
    qs'.map (entryAt heap) = (qs.reverse.map (entryAt heap)).mergeSort byName := by
  have hle : ∀ p q, notLess heap p q = true ↔ heap.le p q := by
    intro p q
    rw [notLess, Bool.not_eq_true', Nodes.less, Nodes.le, decide_eq_false_iff_not, strncmp_swap]
    omega
  rw [hsort.eq_mergeSort_reverse (notLess heap) ?_ ?_ ?_ hnd]
  · refine List.map_mergeSort fun p hp q hq => ?_
    have hiff := h.less_iff (List.mem_reverse.mp hq) (List.mem_reverse.mp hp)
    rw [Bool.eq_iff_iff, notLess, byName, decide_eq_true_eq, Bool.not_eq_true', Bool.eq_false_iff, Ne, hiff]
    exact List.not_lt
  · intro x y z hxy hyz
    rw [hle] at hxy hyz ⊢
    exact Nodes.le_trans hxy hyz
  · intro x y
    simp [notLess]
  · intro x y hxy
    have hless : heap.less y x = true := by simpa [notLess] using hxy
    exact (hle y x).mpr (Nodes.le_of_less hless)

/-- What is printed of the manager's list. -/
theorem stdout_of_chain (hc : s.client = .sorting) (hchain : s.boxListSort.Chain qs)
    (hnamed : Named s.boxListSort.heap qs) : s.stdout =
      some (((qs.reverse.map (entryAt s.boxListSort.heap)).mergeSort byName).flatMap Entry.line) := by
  have hseg := hchain.holds.seg
  obtain ⟨heap', head', qs', hsort, hseg', hmerges, hsame, -⟩ := mergeSortBoxdataList_merges hseg
  have hrounds : qs.length < s.boxListSort.allocated + 1 := by
    rw [hchain.holds.allocated]
    exact Nat.lt_succ_self _
  have hprint := printLoop_eq hseg' (n := s.boxListSort.allocated + 1) (by rw [hmerges.perm.length_eq]; exact hrounds)
  have hentry : entryAt heap' = entryAt s.boxListSort.heap := funext (entryAt_of_sameData hsame)
  simp only [Listing.stdout, hc, hsort _ hrounds, Option.bind_some, hprint, hentry]
  rw [← hnamed.mergeSort hchain.nodup hmerges, List.flatMap_map]

/-! ## The boxes of the broker -/

/-- The entry is that of the box at `p` in the broker's list: it has the name without the '/'. -/
def Shows (list : BoxList) (p : Nat) (e : Entry) : Prop :=
  ∃ box, list.heap p = some box ∧ Listable box e.boxName ∧ e.boxSize = box.boxSize ∧
    e.nPublishers = box.nPublishers ∧ e.nSubscribers = box.nSubscribers

theorem newBoxName_injective {n n' : CString} (h : newBoxName n = newBoxName n') : n = n' := by
  cases n
  cases n'
  simpa [newBoxName] using h

theorem Shows.entryAt_eq {list' : BoxList} (h : Shows list p e) (hc : Carried list list' p q) :
    (∃ box, list'.heap q = some box ∧ box.HasName e.boxName) ∧ entryAt list'.heap q = e := by
  obtain ⟨box, hp, hlist, hsize, hpubs, hsubs⟩ := h
  obtain ⟨box₁, box', name, hp₁, hq, hname, hname', hsize', hpubs', hsubs'⟩ := hc
  rw [hp, Option.some.injEq] at hp₁
  subst hp₁
  obtain rfl : name = e.boxName := newBoxName_injective (hname.name_eq.symm.trans hlist.name.name_eq)
  refine ⟨⟨box', hq, hname'⟩, ?_⟩
  rw [entryAt, hq, Option.map_some, Option.getD_some, entry_of_hasName hname', hsize', hpubs', hsubs', ← hsize, ← hpubs,
    ← hsubs]

theorem listable_of_shows (hshow : List.Forall₂ (Shows list) ps entries) :
    ∀ p ∈ ps, ∀ box ∈ list.heap p, ∃ name, Listable box name := by
  induction hshow with
  | nil => nofun
  | cons he _ ih =>
      intro p hp box hbox
      rcases List.mem_cons.mp hp with rfl | hp
      · obtain ⟨box', hbox', hlist, -⟩ := he
        cases hbox'.symm.trans hbox
        exact ⟨_, hlist⟩
      · exact ih p hp box hbox

theorem carried_entries {list' : BoxList} (hshow : List.Forall₂ (Shows list) ps entries)
    (hc : List.Forall₂ (Carried list list') ps qs) : Named list'.heap qs ∧ qs.map (entryAt list'.heap) = entries := by
  induction hshow generalizing qs with
  | nil =>
      cases hc
      exact ⟨nofun, rfl⟩
  | cons he _ ih =>
      cases hc with
      | cons hcarried hc =>
          obtain ⟨hnamed, hmap⟩ := ih hc
          obtain ⟨hbox, hentry⟩ := he.entryAt_eq hcarried
          refine ⟨fun q hq => ?_, by rw [List.map_cons, hentry, hmap]⟩
          rcases List.mem_cons.mp hq with rfl | hq
          · rw [hentry]
            exact hbox
          · exact hnamed q hq

end Mbroker.Manager
