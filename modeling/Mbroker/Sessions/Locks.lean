import Mbroker.Sessions.Invariants

/-!
# The locks of the boxes

A section under `box_condvar_lock` is one step, so the lock of a box is seen taken only if a section was left without
giving it back.
-/

namespace Mbroker.Sessions

open Mbroker.Lib Mbroker.Fs Mbroker.Protocol

variable {b b' : Broker} {e : Event}

/-- The lock of every box can be taken. -/
def LocksFree (list : BoxList) : Prop := ∀ p box, list.heap p = some box → box.boxCondvarLock = false

/-- A message is written only if there is room for some of it. -/
def RoomLeft (b : Broker) : Event → Prop
  | .publish w => match b.phase w with
    | .pubWriting s _ => b.fs.HasRoom s.fileHandle
    | _ => True
  | _ => True

instance (b : Broker) : DecidablePred (RoomLeft b) := by
  intro e
  induction e using Event.casesOn with
  | publish w =>
      dsimp only [RoomLeft]
      induction b.phase w using Phase.casesOn with
      | pubWriting s _ => infer_instance
      | _ => exact isTrue trivial
  | _ => exact isTrue trivial

namespace LocksFree

variable {list list' : BoxList}

theorem keep (h : LocksFree list) (hk : BoxList.Keeps BoxData.boxCondvarLock list list') : LocksFree list' := by
  intro p box' hp
  obtain ⟨box, hbox, hlock⟩ := hk p box' hp
  rw [hlock]
  exact h p box hbox

theorem insert (h : LocksFree list) {addr size pubs subs : Nat} {contents : Mem} {name : CString} :
    LocksFree (insertAtBeginning list addr contents name size pubs subs) := by
  intro q qbox hq
  simp only [insertAtBeginning, Function.update_apply] at hq
  split at hq
  · cases hq
    rfl
  · exact h q qbox hq

end LocksFree

/-- A step leaves every lock free exactly if it is no write of a message for which there is no room. -/
theorem Outcome.locksFree_iff (ho : Outcome b e b') {L : Layout} (hI : FsInv b.fs L) (h : LocksFree b.boxList) :
    LocksFree b'.boxList ↔ RoomLeft b e := by
  cases ho with
  | @publishFull w s message box n fs hw hbox hlock he hn =>
      have hiff := hI.tfsWrite_pos_iff (Nat.succ_pos _) he
      refine iff_of_false (fun hfree => ?_) (fun hroom => ?_)
      · cases hfree s.boxData _ BoxList.setBox_heap_same
      · simp only [RoomLeft, hw] at hroom
        exact absurd (hiff.mpr hroom) (not_lt.mpr hn)
  | publish hw hbox hlock he hn =>
      refine iff_of_true (h.keep (.setBox hbox rfl)) ?_
      simp only [RoomLeft, hw]
      exact (hI.tfsWrite_pos_iff (Nat.succ_pos _) he).mp hn
  | setPublishers hw hbox | countSubscriber hw hbox | sample hw hbox | resetPublishers hw hbox
  | uncountSubscriber hw hbox => exact iff_of_true (h.keep (.setBox hbox rfl)) trivial
  | insert hw hfree hlock => exact iff_of_true h.insert trivial
  | deleteBox hw hlock he => exact iff_of_true (h.keep (.deleteBox (fun _ _ => rfl) he)) trivial
  | _ => exact iff_of_true h trivial

end Mbroker.Sessions
