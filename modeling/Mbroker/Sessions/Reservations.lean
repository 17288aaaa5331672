import Mbroker.Sessions.ListLock
import Mbroker.Sessions.Publishers

/-!
# Boxes that are kept for a publisher

`n_publishers` of a box is set only while a session that set it is in progress, so no box is kept for a publisher that
has gone.
-/

namespace Mbroker.Sessions

open Mbroker.Lib Mbroker.Fs Mbroker.Protocol

variable {b b' : Broker} {e : Event} {v w p : Nat}

/-- A publisher session that has set `n_publishers` of the box at `p`, and not reset it. -/
def PublishesAt (b : Broker) (v p : Nat) : Prop := ∃ s, (b.phase v).publishing = some s ∧ s.boxData = p

/-- The counter of a box is 0, or 1 with a session in progress that set it. -/
def Reserved (b : Broker) : Prop :=
  ∀ p box, b.boxList.heap p = some box → box.nPublishers = 0 ∨ box.nPublishers = 1 ∧ ∃ v, PublishesAt b v p

theorem Broker.Started.reserved (h : b.Started) : Reserved b := by
  intro p box hp
  rw [h.boxList] at hp
  cases hp

namespace Reserved

theorem keep (h : Reserved b) (hs : ∀ v, (b'.phase v).publishing = (b.phase v).publishing)
    (hk : BoxList.Keeps BoxData.nPublishers b.boxList b'.boxList) : Reserved b' := by
  intro p box' hp
  obtain ⟨box, hbox, hcount⟩ := hk p box' hp
  rw [hcount]
  obtain hzero | ⟨hone, v, s, hv, hdata⟩ := h p box hbox
  · exact Or.inl hzero
  · exact Or.inr ⟨hone, v, s, by rw [hs v]; exact hv, hdata⟩

/-- The worker sets the counter of its box. -/
theorem set (h : Reserved b) {s : Session} {box : BoxData} (hw : b.phase w = .pubAccepted s) :
    Reserved ((b.setBox s.boxData { box with nPublishers := 1 }).setPhase w (.pubTesting s)) := by
  intro p box' hp
  by_cases hps : p = s.boxData
  · subst hps
    cases BoxList.setBox_heap_same.symm.trans hp
    exact Or.inr ⟨rfl, w, s, by rw [Broker.setPhase_self]; rfl, rfl⟩
  · obtain hzero | ⟨hone, v, t, hv, hdata⟩ := h p box' ((BoxList.setBox_heap_ne hps).symm.trans hp)
    · exact Or.inl hzero
    · refine Or.inr ⟨hone, v, t, ?_, hdata⟩
      rw [Broker.setPhase_ne]
      · exact hv
      · rintro rfl
        rw [hw] at hv
        cases hv

/-- The worker resets it. -/
theorem reset (h : Reserved b) {s : Session} {box : BoxData} (hw : b.phase w = .pubEnding s) :
    Reserved ((b.setBox s.boxData { box with nPublishers := 0 }).setPhase w .idle) := by
  intro p box' hp
  by_cases hps : p = s.boxData
  · subst hps
    cases BoxList.setBox_heap_same.symm.trans hp
    exact Or.inl rfl
  · obtain hzero | ⟨hone, v, t, hv, hdata⟩ := h p box' ((BoxList.setBox_heap_ne hps).symm.trans hp)
    · exact Or.inl hzero
    · refine Or.inr ⟨hone, v, t, ?_, hdata⟩
      rw [Broker.setPhase_ne]
      · exact hv
      · rintro rfl
        rw [hw] at hv
        cases hv
        exact hps hdata.symm

theorem insert (h : Reserved b) {phase : Phase} {name : CString} (hw : b.phase w = .created name) (addr : Nat)
    (contents : Mem) : Reserved
      ({ b with boxList := insertAtBeginning b.boxList addr contents name 0 0 0 }.setPhase w phase) := by
  intro q box' hq
  by_cases hqa : q = addr
  · subst hqa
    cases (Function.update_self _ _ _).symm.trans hq
    exact Or.inl rfl
  · obtain hzero | ⟨hone, v, s, hv, hdata⟩ := h q box' ((Function.update_of_ne hqa _ _).symm.trans hq)
    · exact Or.inl hzero
    · refine Or.inr ⟨hone, v, s, ?_, hdata⟩
      rw [Broker.setPhase_ne]
      · exact hv
      · rintro rfl
        rw [hw] at hv
        cases hv

theorem step (h : Reserved b) (ho : Outcome b e b') : Reserved b' := by
  have hsame := ho.publishing_eq
  cases ho with
  | setPublishers hw => exact h.set hw
  | resetPublishers hw => exact h.reset hw
  | insert hw => exact h.insert hw _ _
  | deleteBox hw _ he =>
      exact h.keep (hsame (fun _ he => by cases he) fun _ he => by cases he) (.deleteBox (fun _ _ => rfl) he)
  | countSubscriber _ hbox | sample _ hbox | uncountSubscriber _ hbox | publish _ hbox | publishFull _ hbox =>
      exact h.keep (hsame (fun _ he => by cases he) fun _ he => by cases he) (.setBox hbox rfl)
  | _ => exact h.keep (hsame (fun _ he => by cases he) fun _ he => by cases he) .refl

/-- A publisher with a handle and a box is accepted, unless another session publishes in it. -/
theorem test (h : Reserved b) {name : CString} {fh : Int} (hw : b.phase w = .pubFound name fh (some p)) (hfh : 0 ≤ fh)
    (hs : Step b (.test w) b') : b'.phase w = .pubAccepted ⟨name, fh, p⟩ ∨ ∃ v, v ≠ w ∧ PublishesAt b v p := by
  simp only [Step, Sessions.step, hw, Broker.testPublisher, if_neg (not_lt.mpr hfh)] at hs
  obtain ⟨box, hbox, hb'⟩ := Option.map_eq_some_iff.mp hs
  subst hb'
  by_cases hzero : box.nPublishers = 0
  · rw [if_pos hzero]
    exact Or.inl (Broker.setPhase_self _ _ _)
  · obtain hzero' | ⟨-, v, s, hv, hdata⟩ := h p box hbox
    · exact absurd hzero' hzero
    · refine Or.inr ⟨v, ?_, s, hv, hdata⟩
      rintro rfl
      rw [hw] at hv
      cases hv

end Reserved

end Mbroker.Sessions
