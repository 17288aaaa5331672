import Mbroker.Manager.Output

/-!
# Runs of a listing

What the manager has got when its last read returns 0, for every order of the worker's writes and the manager's reads.
-/

namespace Mbroker.Manager

open Mbroker.Lib Mbroker.Protocol Mbroker.Sessions

variable {list : BoxList} {s s' : Listing} {ps : List Nat} {es : List Event}

/-- In the end the manager's list has one node for each box, the last box first, with its name without the '/' and its
counts, and it reports that there are no boxes exactly if there are none. The end comes after a bounded number of
steps, before which one of the two can always go on. -/
theorem listing_whole (hps : list.Holds ps) (hlist : ∀ p ∈ ps, ∀ box ∈ list.heap p, ∃ name, Listable box name)
    (ho : s.Opened list) (hrun : Steps Step s es s') :
    (s'.client.Done → (∃ qs, s'.boxListSort.Chain qs ∧ List.Forall₂ (Carried list s'.boxListSort) ps.reverse qs) ∧
      (s'.client = .noBoxes ↔ ps = [])) ∧
      es.length ≤ 2 * ps.length + 2 ∧ (¬ s'.client.Done → ∃ e s'', Step s' e s'') := by
  obtain ⟨done, waiting, todo, h, hleft⟩ := InStep.steps hlist hrun (ho.inStep hps)
  refine ⟨fun hdone => ?_, ?_, h.progress⟩
  · obtain ⟨hclosed, rfl, hempty⟩ := h.ended hdone
    obtain ⟨-, rfl⟩ | ⟨a, hlisting, -⟩ := h.worker
    · have hsplit := h.split
      simp only [List.append_nil] at hsplit
      subst hsplit
      exact ⟨h.carried, hempty⟩
    · rw [hclosed] at hlisting
      cases hlisting
  · have hstart : stepsLeft s [] ps = 2 * ps.length + 2 := by
      simp [stepsLeft, ho.worker, ho.client, ClientPhase.Done]
    omega

/-- Two boxes. -/
def twoBoxes : BoxList :=
  insertAtBeginning (insertAtBeginning .empty 0 (fun _ => 0) (newBoxName (ascii "one")) 300 0 1) 1 (fun _ => 0)
    (newBoxName (ascii "two")) 0 1 0

/-- The worker gets ahead of the manager by a record. -/
def slowManager : List Event :=
  [.write, .write, .read 0 (fun _ => 0), .close, .read 1 (fun _ => 0), .eof]

theorem twoBoxes_holds : twoBoxes.Holds [1, 0] := (BoxList.empty_holds.insert rfl).insert rfl

def twoEntries : List Entry := [⟨ascii "two", 0, 1, 0⟩, ⟨ascii "one", 300, 0, 1⟩]

theorem twoBoxes_shows : List.Forall₂ (Shows twoBoxes) [1, 0] twoEntries := by
  have hone := BoxList.insertAtBeginning_heap_self .empty 0 (fun _ => 0) 300 0 1
    (show (newBoxName (ascii "one")).strlen < sizeofBoxName by decide)
  have htwo := BoxList.insertAtBeginning_heap_self
    (insertAtBeginning .empty 0 (fun _ => 0) (newBoxName (ascii "one")) 300 0 1) 1 (fun _ => 0) 0 1 0
    (show (newBoxName (ascii "two")).strlen < sizeofBoxName by decide)
  obtain ⟨one, hone, hone', hsize, hpubs, hsubs⟩ := hone
  obtain ⟨two, htwo, htwo', hsize', hpubs', hsubs'⟩ := htwo
  refine .cons ⟨two, htwo, ⟨htwo', ?_, ?_, ?_⟩, hsize'.symm, hpubs'.symm, hsubs'.symm⟩
    (.cons ⟨one, BoxList.insertAtBeginning_heap_of_some rfl hone, ⟨hone', ?_, ?_, ?_⟩, hsize.symm, hpubs.symm,
      hsubs.symm⟩ .nil)
  all_goals omega

theorem listing_whole_twoBoxes : ∃ s' qs, Steps Step (Listing.start twoBoxes) slowManager s' ∧
    s'.client = .sorting ∧ s'.boxListSort.boxNames = [ascii "one", ascii "two"] ∧ s'.boxListSort.Chain qs ∧
    List.Forall₂ (Carried twoBoxes s'.boxListSort) [0, 1] qs := by
  obtain ⟨s', hrun, hclient, hnames⟩ := exists_steps (fun s' => s'.client = .sorting ∧
    s'.boxListSort.boxNames = [ascii "one", ascii "two"])
    Step.of_step (Listing.start twoBoxes) slowManager (by decide +kernel)
  obtain ⟨hend, -⟩ :=
    listing_whole twoBoxes_holds (listable_of_shows twoBoxes_shows) (Listing.start_opened twoBoxes) hrun
  obtain ⟨⟨qs, hchain, hcarried⟩, -⟩ := hend (by rw [hclient]; trivial)
  exact ⟨s', qs, hrun, hclient, hnames, hchain, hcarried⟩

/-! ## The lines of a listing -/

/-- What is printed are the lines of the broker's boxes in the order of their names, those of one name in the order of
the list, or that there are none, for every order of the writes and reads. -/
theorem listing_printed {entries : List Entry} (hps : list.Holds ps) (hshow : List.Forall₂ (Shows list) ps entries)
    (ho : s.Opened list) (hrun : Steps Step s es s') (hdone : s'.client.Done) : s'.stdout =
      some (if ps = [] then noBoxesFound else (entries.mergeSort byName).flatMap Entry.line) := by
  obtain ⟨done, waiting, todo, h, -⟩ := InStep.steps (listable_of_shows hshow) hrun (ho.inStep hps)
  obtain ⟨hclosed, rfl, hempty⟩ := h.ended hdone
  obtain ⟨-, rfl⟩ | ⟨a, hlisting, -⟩ := h.worker
  · have hsplit := h.split
    simp only [List.append_nil] at hsplit
    subst hsplit
    by_cases hnil : ps = []
    · simp only [Listing.stdout, hempty.mpr hnil, if_pos hnil]
    · have hsorting : s'.client = .sorting := by
        cases hc : s'.client with
        | sorting => rfl
        | noBoxes => exact absurd (hempty.mp hc) hnil
        | first | reading =>
            rw [hc] at hdone
            cases hdone
      obtain ⟨qs, hchain, hcarried⟩ := h.carried
      obtain ⟨hnamed, hentries⟩ := carried_entries (List.rel_reverse hshow) hcarried
      rw [stdout_of_chain hsorting hchain hnamed, List.map_reverse, hentries, List.reverse_reverse, if_neg hnil]
  · rw [hclosed] at hlisting
    cases hlisting

theorem listing_printed_twoBoxes : ∃ s', Steps Step (Listing.start twoBoxes) slowManager s' ∧
    s'.stdout = some ((twoEntries.mergeSort byName).flatMap Entry.line) ∧
    s'.stdout = some (ascii "one 300 0 1\ntwo 0 1 0\n").chars := by
  obtain ⟨s', hrun, hclient, hout⟩ := exists_steps (fun s' => s'.client = .sorting ∧
    s'.stdout = some (ascii "one 300 0 1\ntwo 0 1 0\n").chars)
    Step.of_step (Listing.start twoBoxes) slowManager (by decide +kernel)
  have hprinted := listing_printed twoBoxes_holds twoBoxes_shows (Listing.start_opened twoBoxes) hrun
    (by rw [hclient]; trivial)
  exact ⟨s', hrun, hprinted, hout⟩

end Mbroker.Manager
