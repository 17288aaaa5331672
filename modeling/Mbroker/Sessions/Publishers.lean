import Mbroker.Sessions.Invariants

/-!
# One publisher at a time

The sessions between the test of `n_publishers` and its reset. The counter of a box excludes a second publisher as
long as no one comes between a test and the `n_publishers = 1` after it, and the sessions of a name share one box.
-/

namespace Mbroker.Sessions

open Mbroker.Lib Mbroker.Fs Mbroker.Protocol

variable {b b' : Broker} {e : Event}

/-- A publisher session that set `n_publishers` and has not reset it. -/
def Phase.publishing : Phase → Option Session
  | .pubTesting s | .pubReading s | .pubWriting s _ | .pubEnding s => some s
  | _ => none

/-- A publisher session that passed the test, and has not reset `n_publishers`. -/
def Phase.accepted : Phase → Option Session
  | .pubAccepted s | .pubTesting s | .pubReading s | .pubWriting s _ | .pubEnding s => some s
  | _ => none

def OnePublisher (b : Broker) : Prop :=
  ∀ v < b.numThreads, ∀ u < b.numThreads, ∀ s t, (b.phase v).publishing = some s → (b.phase u).publishing = some t →
    s.newBoxName = t.newBoxName → v = u

/-- When a publisher passes the test, no other session has passed it for this box without having set `n_publishers`,
and those accepted for the name have this box; and a new box is not put where a session still has an old one. -/
def KeepsExclusion (b : Broker) : Event → Prop
  | .test w => match b.phase w with
    | .pubFound name h (some p) => 0 ≤ h → (∃ box ∈ b.boxList.heap p, box.nPublishers = 0) →
        ∀ v < b.numThreads, ∀ s ∈ (b.phase v).accepted,
          (s.boxData = p → (b.phase v).publishing ≠ none) ∧ (s.newBoxName = name → s.boxData = p)
    | _ => True
  | .insert _ addr _ => ∀ v < b.numThreads, ∀ s ∈ (b.phase v).publishing, s.boxData ≠ addr
  | _ => True

deriving instance DecidableEq for Session

instance (b : Broker) : DecidablePred (KeepsExclusion b) := by
  intro e
  induction e using Event.casesOn with
  | test w =>
      dsimp only [KeepsExclusion]
      induction b.phase w using Phase.casesOn with
      | pubFound name h boxData =>
          induction boxData using Option.casesOn with
          | none => exact isTrue trivial
          | some p => infer_instance
      | _ => exact isTrue trivial
  | insert w addr contents =>
      exact inferInstanceAs (Decidable (∀ v < b.numThreads, ∀ s ∈ (b.phase v).publishing, s.boxData ≠ addr))
  | _ => exact isTrue trivial

theorem Phase.start_accepted (d : Dispatch.Decoded) : (Phase.start d).accepted = none :=
  Phase.start_of (P := fun p => p.accepted = none) rfl (fun _ => rfl) (fun _ => rfl) (fun _ => rfl) (fun _ => rfl) rfl d

theorem Phase.start_publishing (d : Dispatch.Decoded) : (Phase.start d).publishing = none :=
  Phase.start_of (P := fun p => p.publishing = none) rfl (fun _ => rfl) (fun _ => rfl) (fun _ => rfl) (fun _ => rfl)
    rfl d

theorem Phase.accepted_of_publishing {phase : Phase} {s : Session} (h : phase.publishing = some s) :
    phase.accepted = some s := by
  cases phase with
  | pubTesting t | pubReading t | pubWriting t | pubEnding t => exact h
  | _ => cases h

theorem Phase.publishing_of_accepted {phase : Phase} {s : Session} (h : phase.accepted = some s)
    (hp : phase.publishing ≠ none) : phase.publishing = some s := by
  cases phase with
  | pubTesting t | pubReading t | pubWriting t | pubEnding t => exact h
  | _ => exact absurd rfl hp

/-- Only the test accepts a publisher, and only `n_publishers = 1` follows it. -/
theorem Outcome.accepted_keep (ho : Outcome b e b') (htest : ∀ w, e ≠ .test w) :
    ∀ v s, (b'.phase v).accepted = some s → (b.phase v).accepted = some s := by
  refine ho.field_keep fun hm s hs => ?_
  cases hm with
  | take =>
      rw [Phase.start_accepted] at hs
      cases hs
  | acceptPub => exact absurd rfl (htest _)
  | _ => first | exact hs | cases hs

theorem Outcome.publishing_keep (ho : Outcome b e b') (hset : ∀ w, e ≠ .setPublishers w) :
    ∀ v s, (b'.phase v).publishing = some s → (b.phase v).publishing = some s := by
  refine ho.field_keep fun hm s hs => ?_
  cases hm with
  | take =>
      rw [Phase.start_publishing] at hs
      cases hs
  | setPublishers => exact absurd rfl (hset _)
  | _ => first | exact hs | cases hs

/-- Only the set and the reset of the counter change who publishes. -/
theorem Outcome.publishing_eq (ho : Outcome b e b') (hset : ∀ w, e ≠ .setPublishers w)
    (hreset : ∀ w, e ≠ .resetPublishers w) : ∀ v, (b'.phase v).publishing = (b.phase v).publishing := by
  refine ho.field_eq fun hm => ?_
  cases hm with
  | take => exact Phase.start_publishing _
  | setPublishers => exact absurd rfl (hset _)
  | resetPublishers => exact absurd rfl (hreset _)
  | _ => rfl

/-! ## The counter -/

/-- A box has at most one session that passed the test, and its counter is set while the session has it set. -/
structure Exclusive (b : Broker) : Prop where
  counted : ∀ v < b.numThreads, ∀ s box, (b.phase v).publishing = some s → b.boxList.heap s.boxData = some box →
    box.nPublishers ≠ 0
  apart : ∀ v < b.numThreads, ∀ u < b.numThreads, ∀ s t, (b.phase v).accepted = some s →
    (b.phase u).accepted = some t → s.boxData = t.boxData → v = u
  together : ∀ v < b.numThreads, ∀ u < b.numThreads, ∀ s t, (b.phase v).accepted = some s →
    (b.phase u).accepted = some t → s.newBoxName = t.newBoxName → s.boxData = t.boxData

theorem Broker.Started.exclusive (h : b.Started) : Exclusive b where
  counted := fun v _ s box hv => by
    rw [h.phase v] at hv
    cases hv
  apart := fun v _ u _ s t hv => by
    rw [h.phase v] at hv
    cases hv
  together := fun v _ u _ s t hv => by
    rw [h.phase v] at hv
    cases hv

namespace Exclusive

theorem onePublisher (h : Exclusive b) : OnePublisher b := by
  intro v hv u hu s t hs ht hname
  have hs := Phase.accepted_of_publishing hs
  have ht := Phase.accepted_of_publishing ht
  exact h.apart v hv u hu s t hs ht (h.together v hv u hu s t hs ht hname)

/-- A step after which no more sessions are accepted than before, and the boxes of those that have set the counter
have it set. -/
theorem keep (h : Exclusive b) (hn : b'.numThreads = b.numThreads)
    (ha : ∀ v s, (b'.phase v).accepted = some s → (b.phase v).accepted = some s)
    (hc : ∀ v < b.numThreads, ∀ s box, (b'.phase v).publishing = some s → b'.boxList.heap s.boxData = some box →
      box.nPublishers ≠ 0) : Exclusive b' where
  counted := fun v hv => hc v (by omega)
  apart := fun v hv u hu s t hs ht =>
    h.apart v (by omega) u (by omega) s t (ha v s hs) (ha u t ht)
  together := fun v hv u hu s t hs ht =>
    h.together v (by omega) u (by omega) s t (ha v s hs) (ha u t ht)

theorem counted_keep (h : Exclusive b)
    (hp : ∀ v s, (b'.phase v).publishing = some s → (b.phase v).publishing = some s)
    (hk : BoxList.Keeps BoxData.nPublishers b.boxList b'.boxList) :
    ∀ v < b.numThreads, ∀ s box, (b'.phase v).publishing = some s → b'.boxList.heap s.boxData = some box →
      box.nPublishers ≠ 0 := by
  intro v hv s box' hs hbox'
  obtain ⟨box, hbox, hcount⟩ := hk _ box' hbox'
  rw [hcount]
  exact h.counted v hv s box (hp v s hs) hbox

theorem accept (h : Exclusive b) {w p : Nat} {name : CString} {fh : Int} {box : BoxData}
    (hw : b.phase w = .pubFound name fh (some p)) (hfh : 0 ≤ fh) (hbox : b.boxList.heap p = some box)
    (hzero : box.nPublishers = 0) (hg : KeepsExclusion b (.test w)) :
    Exclusive (b.setPhase w (.pubAccepted ⟨name, fh, p⟩)) := by
  simp only [KeepsExclusion, hw] at hg
  -- no other session has this box, and no other box has this name
  have hother : ∀ v < b.numThreads, ∀ s, (b.phase v).accepted = some s →
      s.boxData ≠ p ∧ s.newBoxName ≠ name := by
    intro v hv s hs
    obtain ⟨hset, hbox'⟩ := hg hfh ⟨box, hbox, hzero⟩ v hv s hs
    have hne : s.boxData ≠ p := fun he =>
      h.counted v hv s box (Phase.publishing_of_accepted hs (hset he)) (by rw [he]; exact hbox) hzero
    exact ⟨hne, fun he => hne (hbox' he)⟩
  have hphase : ∀ v s, ((b.setPhase w (.pubAccepted ⟨name, fh, p⟩)).phase v).accepted = some s →
      v = w ∧ s = ⟨name, fh, p⟩ ∨ v ≠ w ∧ (b.phase v).accepted = some s := by
    intro v s hs
    simp only [Broker.setPhase] at hs
    by_cases hvw : v = w
    · subst hvw
      rw [Function.update_self] at hs
      cases hs
      exact Or.inl ⟨rfl, rfl⟩
    · rw [Function.update_of_ne hvw] at hs
      exact Or.inr ⟨hvw, hs⟩
  refine ⟨h.counted_keep (setPhase_keep rfl hw (Or.inl rfl)) .refl, ?_, ?_⟩
  · intro v hv u hu s t hs ht he
    obtain ⟨rfl, rfl⟩ | ⟨-, hs'⟩ := hphase v s hs
    · obtain ⟨rfl, -⟩ | ⟨-, ht'⟩ := hphase u t ht
      · rfl
      · exact absurd he.symm (hother u hu t ht').1
    · obtain ⟨-, rfl⟩ | ⟨-, ht'⟩ := hphase u t ht
      · exact absurd he (hother v hv s hs').1
      · exact h.apart v hv u hu s t hs' ht' he
  · intro v hv u hu s t hs ht he
    obtain ⟨-, rfl⟩ | ⟨-, hs'⟩ := hphase v s hs
    · obtain ⟨-, rfl⟩ | ⟨-, ht'⟩ := hphase u t ht
      · rfl
      · exact absurd he.symm (hother u hu t ht').2
    · obtain ⟨-, rfl⟩ | ⟨-, ht'⟩ := hphase u t ht
      · exact absurd he (hother v hv s hs').2
      · exact h.together v hv u hu s t hs' ht' he

theorem step (h : Exclusive b) (hout : OutsideIdle b) (hg : KeepsExclusion b e) (ho : Outcome b e b') :
    Exclusive b' := by
  have haccepted := ho.accepted_keep
  have hpublishing := ho.publishing_keep
  cases ho with
  | acceptPub hw hh hbox hzero => exact h.accept hw hh hbox hzero hg
  | @setPublishers w s box hw hbox =>
      refine h.keep rfl (haccepted fun _ he => by cases he) fun v hv t tbox ht htbox => ?_
      by_cases hp : t.boxData = s.boxData
      · rw [hp] at htbox
        change (b.boxList.setBox _ _).heap _ = _ at htbox
        rw [BoxList.setBox_heap_same] at htbox
        cases htbox
        exact one_ne_zero
      · change (b.boxList.setBox _ _).heap _ = _ at htbox
        rw [BoxList.setBox_heap_ne hp] at htbox
        obtain hold | hbad := setPhase_field (f := Phase.publishing) (P := fun t => t = s) (b := b) rfl
          (fun t ht => by cases ht; exact Or.inr rfl) v t ht
        · exact h.counted v hv t tbox hold htbox
        · rw [hbad] at hp
          exact absurd rfl hp
  | @resetPublishers w s box hw hbox =>
      refine h.keep rfl (setPhase_keep rfl hw (Or.inl rfl)) fun v hv t tbox ht htbox => ?_
      obtain ⟨hvw, ht⟩ := setPhase_none (f := Phase.publishing) (b := b) rfl rfl ht
      -- the session has another box
      have hp : t.boxData ≠ s.boxData := fun he => hvw (h.apart v hv w (hout.lt hw rfl) t s
        (Phase.accepted_of_publishing ht) (by rw [hw]; rfl) he)
      change (b.boxList.setBox _ _).heap _ = _ at htbox
      rw [BoxList.setBox_heap_ne hp] at htbox
      exact h.counted v hv t tbox ht htbox
  | @insert w name addr contents hw hfree hlock =>
      refine h.keep rfl (setPhase_keep rfl hw (Or.inl rfl)) fun v hv t tbox ht htbox => ?_
      obtain ⟨-, ht⟩ := setPhase_none (f := Phase.publishing) (b := b) rfl rfl ht
      simp only [Broker.setPhase, insertAtBeginning, Function.update_of_ne (hg v hv t ht)] at htbox
      exact h.counted v hv t tbox ht htbox
  | deleteBox hw hlock he =>
      exact h.keep rfl (haccepted fun _ he => by cases he)
        (h.counted_keep (hpublishing fun _ he => by cases he) (.deleteBox (fun _ _ => rfl) he))
  | publishFull _ hbox | publish _ hbox | countSubscriber _ hbox | sample _ hbox | uncountSubscriber _ hbox =>
      exact h.keep rfl (haccepted fun _ he => by cases he)
        (h.counted_keep (hpublishing fun _ he => by cases he) (.setBox hbox rfl))
  | refusePub hw | refuseSub hw | acceptSub hw =>
      exact h.keep rfl (setPhase_keep rfl hw (Or.inl rfl))
        (h.counted_keep (hpublishing fun _ he => by cases he) .refl)
  | _ =>
      exact h.keep rfl (haccepted fun _ he => by cases he)
        (h.counted_keep (hpublishing fun _ he => by cases he) .refl)

end Exclusive

end Mbroker.Sessions
