import Mbroker.Sessions.Invariants

/-!
# The boxes of the sessions

The pointers that `find_box` gave to the sessions in progress, and the removals that leave them behind.
-/

namespace Mbroker.Sessions

open Mbroker.Lib Mbroker.Fs Mbroker.Protocol

variable {b b' : Broker} {e : Event} {ps : List Nat}

/-- The box that a session got from `find_box`, as long as it may still follow the pointer. -/
def Phase.boxData : Phase → Option Nat
  | .pubFound _ h boxData => if 0 ≤ h then boxData else none
  | .subFound _ boxData => boxData
  | .subOpened _ boxData h => if 0 < h then boxData else none
  | .pubAccepted s | .pubTesting s | .pubReading s | .pubWriting s _ | .pubEnding s
  | .subAccepted s | .subCounted s | .subRead s | .subReplayed s | .subWaiting s _ | .subSending s _
  | .subEnding s => some s.boxData
  | _ => none

/-- The boxes of the sessions in progress are in the list. -/
def BoxesListed (b : Broker) : Prop :=
  ∃ ps, b.boxList.Holds ps ∧ ∀ v < b.numThreads, ∀ p, (b.phase v).boxData = some p → p ∈ ps

/-- The box that is taken out of the list is not that of a session in progress. -/
def KeepsBoxes (b : Broker) : Event → Prop
  | .deleteBox w => match b.phase w with
    | .removed name => ∀ v < b.numThreads, ∀ p ∈ (b.phase v).boxData,
        findBox b.boxList b.boxList.head name ≠ some (some p)
    | _ => True
  | _ => True

instance (b : Broker) : DecidablePred (KeepsBoxes b) := by
  intro e
  induction e using Event.casesOn with
  | deleteBox w =>
      dsimp only [KeepsBoxes]
      induction b.phase w using Phase.casesOn with
      | removed name => infer_instance
      | _ => exact isTrue trivial
  | _ => exact isTrue trivial

theorem Phase.start_boxData (d : Dispatch.Decoded) : (Phase.start d).boxData = none :=
  Phase.start_of (P := fun p => p.boxData = none) rfl (fun _ => rfl) (fun _ => rfl) (fun _ => rfl) (fun _ => rfl) rfl d

theorem Outcome.boxData (ho : Outcome b e b') (hb : b.boxList.Holds ps) : ∀ v p, (b'.phase v).boxData = some p →
    (b.phase v).boxData = some p ∨ p ∈ ps := by
  have hfound : ∀ {name boxData p}, findBox b.boxList b.boxList.head name = some boxData → boxData = some p →
      p ∈ ps := by
    rintro name boxData p hfind rfl
    rw [hb.findBox, Option.some.injEq] at hfind
    exact List.mem_of_find?_eq_some hfind
  refine ho.field fun _ hm p hp => ?_
  cases hm with
  | take =>
      rw [Phase.start_boxData] at hp
      cases hp
  | openSub =>
      simp only [Phase.boxData] at hp
      split at hp
      · exact Or.inl hp
      · cases hp
  | findPub _ hfind =>
      simp only [Phase.boxData] at hp
      split at hp
      · exact Or.inr (hfound hfind hp)
      · cases hp
  | findSub _ hfind => exact Or.inr (hfound hfind hp)
  | acceptPub hh | acceptSub hh => exact Or.inl ((if_pos hh).trans hp)
  | _ => first | exact Or.inl hp | cases hp

theorem Outcome.holds (ho : Outcome b e b') (hb : b.boxList.Holds ps) :
    (∃ ps', b'.boxList.Holds ps' ∧ ∀ p ∈ ps, p ∈ ps') ∧ KeepsBoxes b e ∨
      ∃ w name, e = .deleteBox w ∧ b.phase w = .removed name ∧
        b'.boxList.Holds (ps.eraseP (b.boxList.isNamed name)) ∧
        ∀ v, (b'.phase v).boxData = (b.phase v).boxData := by
  cases ho with
  | insert hw hfree => exact Or.inl ⟨⟨_, hb.insert hfree, fun _ => List.mem_cons_of_mem _⟩, trivial⟩
  | @deleteBox w name list hw hlock he =>
      obtain ⟨list', he', hlist, -⟩ := @BoxList.Holds.deleteBox _ _ name hb
      rw [he] at he'
      cases he'
      refine Or.inr ⟨w, name, rfl, hw, hlist, fun v => ?_⟩
      simp only [Broker.setPhase]
      by_cases hvw : v = w
      · subst hvw
        rw [Function.update_self, hw]
        rfl
      · rw [Function.update_of_ne hvw]
  | setPublishers hw hbox | countSubscriber hw hbox | sample hw hbox | resetPublishers hw hbox
  | uncountSubscriber hw hbox | publishFull hw hbox | publish hw hbox =>
      exact Or.inl ⟨⟨ps, hb.setBox hbox rfl, fun _ => id⟩, trivial⟩
  | lockList hw | unlockList hw => exact Or.inl ⟨⟨ps, ⟨hb.seg, hb.allocated⟩, fun _ => id⟩, trivial⟩
  | _ => exact Or.inl ⟨⟨ps, hb, fun _ => id⟩, trivial⟩

theorem Outcome.numThreads (ho : Outcome b e b') : b'.numThreads = b.numThreads := by
  cases ho <;> rfl

/-- A step keeps the boxes of the sessions in the list exactly if it takes out none of them. -/
theorem Outcome.boxesListed_iff (ho : Outcome b e b') (h : BoxesListed b) : BoxesListed b' ↔ KeepsBoxes b e := by
  obtain ⟨ps, hb, hin⟩ := h
  obtain ⟨⟨ps', hb', hsub⟩, hg⟩ | ⟨w, name, rfl, hw, hb', hsame⟩ := ho.holds hb
  · refine iff_of_true ⟨ps', hb', fun v hv p hp => hsub p ?_⟩ hg
    rw [ho.numThreads] at hv
    obtain hold | hnew := ho.boxData hb v p hp
    · exact hin v hv p hold
    · exact hnew
  · have hmem : ∀ p, p ∈ ps.eraseP (b.boxList.isNamed name) ↔
        p ∈ ps ∧ findBox b.boxList b.boxList.head name ≠ some (some p) := by
      intro p
      rw [BoxList.mem_eraseP_iff hb.seg.nodup, hb.findBox, ne_eq, ne_eq, Option.some.injEq]
    simp only [KeepsBoxes, hw, BoxesListed, ho.numThreads, hsame, Option.mem_def]
    constructor
    · rintro ⟨ps', hb'', hin'⟩ v hv p hp
      have hp' := hin' v hv p hp
      rw [hb''.unique hb', hmem] at hp'
      exact hp'.2
    · intro hg
      exact ⟨_, hb', fun v hv p hp => (hmem p).mpr ⟨hin v hv p hp, hg v hv p hp⟩⟩

end Mbroker.Sessions
