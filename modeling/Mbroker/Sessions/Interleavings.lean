import Mbroker.Sessions.Answers
import Mbroker.Sessions.Balance
import Mbroker.Sessions.Progress
import Mbroker.Sessions.Reservations
import Mbroker.Sessions.Theorems

/-!
# The broker under any interleaving

What holds in every run from the start, with requests of all kinds in progress at the same time.
-/

namespace Mbroker.Sessions

open Mbroker.Lib Mbroker.Fs Mbroker.Protocol

variable {b b' b₁ b₂ b₃ : Broker} {es es' : List Event} {v w : Nat}

/-! ## Listings -/

/-- A box is created, and a worker has the boxes to list. -/
def listingAsked : List Event := creation 0 0 (ascii "box") ++ [.take 1 (.listing (ascii "pipe"))]

/-- A publisher comes, and another box is created, while the worker is in the loop. -/
def duringListing : List Event :=
  [.take 0 (.request ⟨1, ascii "pipe", ascii "box"⟩), .tfsOpen 0, .take 2 (.request ⟨3, ascii "pipe", ascii "new"⟩),
    .listBox 1, .tfsOpen 2, .listBox 1, .insert 2 1 (fun _ => 0), .findBox 0]

/-- However creations and removals overlap: once none stands between the directory and the list, these hold the same
boxes exactly if every `delete_box` of the run has found its box. -/
theorem stores_agree_iff_found (h : b.Started) (hrun : Steps ShortStep b es b') (hs : Settled b') :
    StoresAgree b' ↔ Steps (Guarded FindsBox ShortStep) b es b' := by
  constructor
  · intro hagree
    obtain ⟨-, hfound⟩ | hsurplus := hrun.guarded_or_trap (fun _ _ _ hb hf hs => hb.step hf hs)
      (fun _ _ _ hb hf hs => hb.surplus hf hs) (fun _ _ _ hb hs => hb.step hs) h.even
    · exact hfound
    · exact absurd hagree (hsurplus.not_storesAgree hs)
  · intro hfound
    exact (hfound.invariant (fun _ _ _ hb hs => hb.step hs.1 hs.2) h.even).storesAgree hs

/-- Two boxes are created at the same time, and one of them is removed before the other one is in the list. -/
def creationsAndRemoval : List Event :=
  [.take 0 (.request ⟨3, ascii "pipe", ascii "box"⟩), .take 1 (.request ⟨3, ascii "pipe", ascii "new"⟩), .tfsOpen 0,
    .tfsOpen 1, .insert 0 0 (fun _ => 0), .respond 0, .take 0 (.request ⟨5, ascii "pipe", ascii "box"⟩), .tfsUnlink 0,
    .insert 1 1 (fun _ => 0), .deleteBox 0]

theorem stores_agree_iff_found_overlapping : ∃ b', Steps ShortStep (Broker.start 2) creationsAndRemoval b' ∧
    Settled b' ∧ (StoresAgree b' ↔ Steps (Guarded FindsBox ShortStep) (Broker.start 2) creationsAndRemoval b') := by
  obtain ⟨b', hrun, hs⟩ := exists_guarded (fun b e => CreatesBox b e ∧ ShortName e) Settled
    Step.of_step (Broker.start 2) creationsAndRemoval (by decide +kernel)
  exact ⟨b', hrun, hs, stores_agree_iff_found (Broker.start_started 2) hrun hs⟩

/-! ## Answers -/

/-- A creation, and one that fails, while another worker serves a subscriber. -/
def creationsAmong : List Event :=
  creation 0 0 (ascii "box") ++ [.take 1 (.request ⟨2, ascii "pipe", ascii "box"⟩), .findBox 1,
    .take 0 (.request ⟨3, ascii "pipe", ascii ""⟩), .tfsOpen 1, .test 1, .tfsOpen 0, .countSubscriber 1, .respond 0]

/-- A box is removed when its file is there and it is not yet in the list. -/
def removalOvertakes : List Event :=
  [.take 0 (.request ⟨3, ascii "pipe", ascii "box"⟩), .tfsOpen 0, .take 1 (.request ⟨5, ascii "pipe", ascii "box"⟩),
    .tfsUnlink 1, .deleteBox 1, .respond 1, .insert 0 0 (fun _ => 0), .respond 0]

/-- The return code of a removal does not tell whether a box went out of the list: here it is 0, and the list holds the
box for good. -/
theorem removal_missed : ∃ x, Steps HandleStep (Broker.start 2, .empty) removalOvertakes x ∧
    x.1.output 1 = [.response removeOk] ∧
    findBox (x.2.list 1) (x.2.list 1).head (newBoxName (ascii "box")) = some none ∧
    x.1.boxList.boxNames = [newBoxName (ascii "box")] :=
  exists_steps (fun x : Broker × Handled => x.1.output 1 = [.response removeOk] ∧
    findBox (x.2.list 1) (x.2.list 1).head (newBoxName (ascii "box")) = some none ∧
    x.1.boxList.boxNames = [newBoxName (ascii "box")]) HandleStep.of_withRecord (Broker.start 2, .empty)
    removalOvertakes (by decide +kernel)

/-! ## Progress -/

/-- A worker can take its next step by itself exactly if it neither waits for a request or for its client, nor sleeps on
a box whose size is still what it saw last, nor waits for a worker that lists the boxes and can go on; and once the
client has done its part, exactly if it neither sleeps nor waits for the list. In the run no box is removed under a
session, every message finds room, and no write to a subscriber fails. -/
theorem workers_go_on (h : b.Started) (hrun : Steps (Guarded Attended Step) b es b') (hv : v < b.numThreads) :
    (CanStepAlone b' v ↔ (b'.phase v).isIdle = false ∧ (b'.phase v).atClient = false ∧ ¬ Asleep b' v ∧
      ¬ WaitsForListing b' v) ∧ (CanStep b' v ↔ ¬ Asleep b' v ∧ ¬ WaitsForListing b' v) := by
  have hgoing : Going b' ∧ b'.numThreads = b.numThreads :=
    hrun.invariant (I := fun b' => Going b' ∧ b'.numThreads = b.numThreads)
      (fun _ _ _ ⟨hb, hn⟩ hs => ⟨hb.step hs.1.1 hs.2.outcome, hs.2.outcome.numThreads.trans hn⟩) ⟨h.going, rfl⟩
  have hv' : v < b'.numThreads := by
    rw [hgoing.2]
    exact hv
  exact ⟨hgoing.1.canStepAlone_iff hv', hgoing.1.canStep_iff hv'⟩

theorem workers_go_on_delivered : ∃ b', Steps (Guarded Attended Step) (Broker.start 2) deliveredInTurn b' ∧
    (CanStep b' 1 ↔ ¬ Asleep b' 1 ∧ ¬ WaitsForListing b' 1) := by
  obtain ⟨b', hrun, -⟩ := exists_guarded Attended (fun _ => True) Step.of_step (Broker.start 2) deliveredInTurn
    (by decide +kernel)
  exact ⟨b', hrun, (workers_go_on (Broker.start_started 2) hrun (by decide)).2⟩

/-! ## The counter of publishers -/

/-- `n_publishers` of a box is 0, or 1 while a session that set it is in progress; so a publisher with a handle that
finds its box is refused only if another session publishes in it. -/
theorem publishers_released (h : b.Started) (hrun : Steps Step b es b') : Reserved b' ∧
    ∀ w name fh p b'', b'.phase w = .pubFound name fh (some p) → 0 ≤ fh → Step b' (.test w) b'' →
      b''.phase w = .pubAccepted ⟨name, fh, p⟩ ∨ ∃ v, v ≠ w ∧ PublishesAt b' v p := by
  have hb' : Reserved b' := hrun.invariant (fun _ _ _ hb hs => hb.step hs.outcome) h.reserved
  exact ⟨hb', fun w name fh p b'' hw hfh hs => hb'.test hw hfh hs⟩

theorem publishers_released_refused : ∃ b', Steps Step (Broker.start 2) publisherRefused b' ∧ Reserved b' := by
  obtain ⟨b', hrun, -⟩ := exists_steps (fun _ => True)
    Step.of_step (Broker.start 2) publisherRefused (by decide +kernel)
  exact ⟨b', hrun, (publishers_released (Broker.start_started 2) hrun).1⟩

end Mbroker.Sessions
