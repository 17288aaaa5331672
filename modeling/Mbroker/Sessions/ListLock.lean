import Mbroker.Sessions.Boxes
import Mbroker.Sessions.Listing

/-!
# The lock of the list

`box_list_lock` is seen taken only while a worker is in the loop of case 7. No box comes or goes then, and what that
worker writes is about the list as it was when the lock was taken.
-/

namespace Mbroker.Sessions

open Mbroker.Lib Mbroker.Fs Mbroker.Protocol

variable {b b' : Broker} {e : Event} {w : Nat} {ps : List Nat}

/-! ## Who has the lock -/

/-- The pointer of the loop of case 7. -/
def Phase.cursor : Phase → Option (Option Nat)
  | .listing boxData => some boxData
  | _ => none

/-- The lock is taken exactly while a worker is in the loop, and no second one is. -/
structure ListLocked (b : Broker) : Prop where
  taken : ∀ v c, (b.phase v).cursor = some c → b.boxList.boxListLock = true
  one : ∀ v u c d, (b.phase v).cursor = some c → (b.phase u).cursor = some d → v = u
  held : b.boxList.boxListLock = true → ∃ v c, (b.phase v).cursor = some c

theorem Phase.start_cursor (d : Dispatch.Decoded) : (Phase.start d).cursor = none :=
  Phase.start_of (P := fun p => p.cursor = none) rfl (fun _ => rfl) (fun _ => rfl) (fun _ => rfl) (fun _ => rfl) rfl d

theorem Phase.cursor_eq {phase : Phase} {c : Option Nat} (h : phase.cursor = some c) : phase = .listing c := by
  cases phase with
  | listing d =>
      cases h
      rfl
  | _ => cases h

/-- A worker comes into the loop only by its lock, and goes on in it only by a round. -/
theorem Outcome.lists_of_listing (ho : Outcome b e b') {c : Option Nat} (h : b'.phase e.worker = .listing c) :
    (∃ w, e = .lockList w) ∨ ∃ w, e = .listBox w := by
  have hto : ∀ {old phase}, Moves b old e phase → phase.cursor = some c →
      (∃ w, e = .lockList w) ∨ ∃ w, e = .listBox w := by
    intro old phase hm hc
    cases hm with
    | take =>
        rw [Phase.start_cursor] at hc
        cases hc
    | lockList => exact Or.inl ⟨_, rfl⟩
    | listBox => exact Or.inr ⟨_, rfl⟩
    | _ => cases hc
  exact hto ho.moves_self (by rw [h]; rfl)

/-- Only the loop of case 7 moves its pointer. -/
theorem Outcome.cursor_eq (ho : Outcome b e b') (hlock : ∀ w, e ≠ .lockList w) (hbox : ∀ w, e ≠ .listBox w) :
    ∀ v, (b'.phase v).cursor = (b.phase v).cursor := by
  refine ho.field_eq fun hm => ?_
  cases hm with
  | take => exact Phase.start_cursor _
  | lockList => exact absurd rfl (hlock _)
  | listBox | unlockList => exact absurd rfl (hbox _)
  | _ => rfl

theorem deleteBox_boxListLock {list list' : BoxList} {name : CString} (h : Protocol.deleteBox list name = some list') :
    list'.boxListLock = list.boxListLock := by
  unfold Protocol.deleteBox at h
  split at h
  · cases h
    rfl
  · rename_i temp hhead
    obtain ⟨box, -, h⟩ := Option.bind_eq_some_iff.mp h
    split at h
    · cases h
      rfl
    · obtain ⟨⟨prev, found⟩, -, h⟩ := Option.bind_eq_some_iff.mp h
      cases found with
      | none => cases prev <;> cases h <;> rfl
      | some q =>
          cases prev with
          | none => cases h
          | some r =>
              obtain ⟨qbox, -, h⟩ := Option.bind_eq_some_iff.mp h
              obtain ⟨rbox, -, h⟩ := Option.bind_eq_some_iff.mp h
              cases h
              dsimp only [BoxList.free]
              split <;> rfl

theorem Broker.Started.listLocked (h : b.Started) : ListLocked b where
  taken := fun v c hv => by
    rw [h.phase v] at hv
    cases hv
  one := fun v u c d hv => by
    rw [h.phase v] at hv
    cases hv
  held := fun hlock => by
    rw [h.boxList] at hlock
    cases hlock

namespace ListLocked

theorem keep (h : ListLocked b) (hc : ∀ v, (b'.phase v).cursor = (b.phase v).cursor)
    (hl : b'.boxList.boxListLock = b.boxList.boxListLock) : ListLocked b' where
  taken := fun v c hv => by
    rw [hc v] at hv
    rw [hl]
    exact h.taken v c hv
  one := fun v u c d hv hu => by
    rw [hc v] at hv
    rw [hc u] at hu
    exact h.one v u c d hv hu
  held := fun hlock => by
    rw [hl] at hlock
    simp only [hc]
    exact h.held hlock

theorem lock (h : ListLocked b) (hfree : b.boxList.boxListLock = false) (c : Option Nat) :
    ListLocked ({ b with boxList := { b.boxList with boxListLock := true } }.setPhase w (.listing c)) := by
  have hnone : ∀ v d, v ≠ w →
      (({ b with boxList := { b.boxList with boxListLock := true } }.setPhase w (.listing c)).phase v).cursor ≠
        some d := by
    intro v d hv hd
    rw [Broker.setPhase_ne _ _ hv] at hd
    have hlock := h.taken v d hd
    rw [hfree] at hlock
    cases hlock
  refine ⟨fun _ _ _ => rfl, fun v u d d' hv hu => ?_, fun _ => ⟨w, c, ?_⟩⟩
  · by_cases hvw : v = w
    · by_cases huw : u = w
      · rw [hvw, huw]
      · exact absurd hu (hnone u d' huw)
    · exact absurd hv (hnone v d hvw)
  · rw [Broker.setPhase_self]
    rfl

theorem unlock (h : ListLocked b) (hw : b.phase w = .listing none) :
    ListLocked ({ b with boxList := { b.boxList with boxListLock := false } }.setPhase w .idle) := by
  have hnone : ∀ v d,
      (({ b with boxList := { b.boxList with boxListLock := false } }.setPhase w .idle).phase v).cursor ≠ some d := by
    intro v d hv
    obtain ⟨hvw, hv⟩ := setPhase_none (f := Phase.cursor) (b := b) rfl rfl hv
    exact hvw (h.one v w d none hv (by rw [hw]; rfl))
  refine ⟨fun v d hv => absurd hv (hnone v d), fun v u d d' hv => absurd hv (hnone v d), fun hlock => ?_⟩
  cases hlock

theorem step (h : ListLocked b) (ho : Outcome b e b') : ListLocked b' := by
  have hcursor := ho.cursor_eq
  cases ho with
  | deleteBox hw hlock he =>
      exact h.keep (hcursor (fun _ he => by cases he) fun _ he => by cases he) (deleteBox_boxListLock he)
  | lockList hw hfree => exact h.lock hfree _
  | unlockList hw => exact h.unlock hw
  | @listBox v p box hw hbox =>
      -- the worker had the lock before
      have hcur : ∀ u d, (((b.write v [.listing (listingResponse b.boxList p box)]).setPhase v
          (.listing box.next)).phase u).cursor = some d → ∃ d', (b.phase u).cursor = some d' := by
        intro u d hu
        by_cases huv : u = v
        · subst huv
          exact ⟨some p, by rw [hw]; rfl⟩
        · rw [Broker.setPhase_ne _ _ huv] at hu
          exact ⟨d, hu⟩
      refine ⟨fun u d hu => ?_, fun u u' d d' hu hu' => ?_, fun _ => ⟨v, box.next, ?_⟩⟩
      · obtain ⟨d', hu⟩ := hcur u d hu
        exact h.taken u d' hu
      · obtain ⟨c, hu⟩ := hcur u d hu
        obtain ⟨c', hu'⟩ := hcur u' d' hu'
        exact h.one u u' c c' hu hu'
      · rw [Broker.setPhase_self]
        rfl
  | _ => exact h.keep (hcursor (fun _ he => by cases he) fun _ he => by cases he) rfl

end ListLocked

/-- The pointer of the loop is NULL, or to a box of the list. -/
def CursorListed (b : Broker) : Prop :=
  ∃ ps, b.boxList.Holds ps ∧ ∀ v c, (b.phase v).cursor = some c → ∀ p, c = some p → p ∈ ps

theorem Broker.Started.cursorListed (h : b.Started) : CursorListed b := by
  refine ⟨[], by rw [h.boxList]; exact BoxList.empty_holds, fun v c hv => ?_⟩
  rw [h.phase v] at hv
  cases hv

theorem Outcome.cursor (ho : Outcome b e b') (hb : b.boxList.Holds ps)
    (hin : ∀ v c, (b.phase v).cursor = some c → ∀ p, c = some p → p ∈ ps) :
    ∀ v c, (b'.phase v).cursor = some c → (b.phase v).cursor = some c ∨ ∀ p, c = some p → p ∈ ps := by
  refine ho.field fun hw hm c hc => ?_
  cases hm with
  | take =>
      rw [Phase.start_cursor] at hc
      cases hc
  | lockList =>
      refine Or.inr ?_
      rintro p rfl
      have hseg := hb.seg
      rw [Option.some.inj hc] at hseg
      exact hseg.head_mem
  | listBox hbox =>
      refine Or.inr ?_
      rintro p rfl
      exact hb.seg.next_mem (hin _ _ (congrArg Phase.cursor hw) _ rfl) hbox (Option.some.inj hc)
  | _ => cases hc

/-- No box is taken out while the loop is at it. -/
theorem CursorListed.step (h : CursorListed b) (hl : ListLocked b) (ho : Outcome b e b') : CursorListed b' := by
  obtain ⟨ps, hb, hin⟩ := h
  have hcursor := ho.cursor hb hin
  obtain ⟨⟨ps', hb', hsub⟩, -⟩ | ⟨w, name, rfl, hw, hb', -⟩ := ho.holds hb
  · refine ⟨ps', hb', fun v c hv p hp => hsub p ?_⟩
    obtain hold | hnew := hcursor v c hv
    · exact hin v c hold p hp
    · exact hnew p hp
  · refine ⟨_, hb', fun v c hv => ?_⟩
    cases ho with
    | deleteBox hw hfree he =>
        obtain ⟨-, hv⟩ := setPhase_none (f := Phase.cursor) (b := b) rfl rfl hv
        have hlock := hl.taken v c hv
        rw [hfree] at hlock
        cases hlock

/-- The loop can always go on. -/
theorem CursorListed.listBox (h : CursorListed b) {c : Option Nat} (hw : b.phase w = .listing c) :
    ∃ b', Step b (.listBox w) b' := by
  cases c with
  | none => exact ⟨_, by simp only [Step, Sessions.step, hw]; rfl⟩
  | some p =>
      obtain ⟨ps, hps, hin⟩ := h
      obtain ⟨box, hbox⟩ := hps.seg.allocated (hin w (some p) (by rw [hw]; rfl) p rfl)
      exact ⟨_, by simp only [Step, Sessions.step, hw, hbox]; rfl⟩

/-- A worker that has the list to lock has written nothing for its request. -/
def ListFresh (b : Broker) : Prop := ∀ v, b.phase v = .list → b.output v = []

theorem Broker.Started.listFresh (h : b.Started) : ListFresh b := by
  intro v hv
  rw [h.phase v] at hv
  cases hv

theorem ListFresh.step (h : ListFresh b) (ho : Outcome b e b') : ListFresh b' := by
  intro v hv
  by_cases hvw : v = e.worker
  · subst hvw
    have htake : ∀ {old phase}, Moves b old e phase → phase = .list → ∃ d, e = .take e.worker d := by
      intro old phase hm hlist
      cases hm with
      | take => exact ⟨_, rfl⟩
      | _ => cases hlist
    obtain ⟨d, he⟩ := htake ho.moves_self hv
    rw [he] at ho
    cases ho with
    | take => exact Function.update_self _ _ _
  · obtain ⟨hphase, hout⟩ := ho.others hvw
    rw [hphase] at hv
    rw [hout]
    exact h v hv

/-! ## While it is taken -/

/-- The boxes have the names and the order they had, and the lock is as it was. -/
structure Frozen (list list' : BoxList) : Prop where
  head : list'.head = list.head
  tail : list'.tail = list.tail
  allocated : list'.allocated = list.allocated
  boxListLock : list'.boxListLock = list.boxListLock
  boxes : ∀ p, (list'.heap p).map (fun box => (box.boxName, box.next)) =
    (list.heap p).map fun box => (box.boxName, box.next)

namespace Frozen

variable {list list' list'' : BoxList}

theorem refl : Frozen list list := ⟨rfl, rfl, rfl, rfl, fun _ => rfl⟩

theorem trans (h : Frozen list list') (h' : Frozen list' list'') : Frozen list list'' :=
  ⟨h'.head.trans h.head, h'.tail.trans h.tail, h'.allocated.trans h.allocated, h'.boxListLock.trans h.boxListLock,
    fun p => (h'.boxes p).trans (h.boxes p)⟩

theorem setBox {p : Nat} {box box' : BoxData} (hp : list.heap p = some box) (hname : box'.boxName = box.boxName)
    (hnext : box'.next = box.next) : Frozen list (list.setBox p box') := by
  refine ⟨rfl, rfl, rfl, rfl, fun q => ?_⟩
  by_cases hqp : q = p
  · subst hqp
    rw [BoxList.setBox_heap_same, hp]
    simp [hname, hnext]
  · rw [BoxList.setBox_heap_ne hqp]

theorem holds (h : Frozen list list') (hlist : list.Holds ps) : list'.Holds ps := by
  refine ⟨?_, by rw [h.allocated, hlist.allocated]⟩
  rw [h.head]
  refine hlist.seg.congr_next fun p => ?_
  have hboxes := congrArg (Option.map Prod.snd) (h.boxes p)
  simpa [Function.comp_def] using hboxes

/-- The box is still there. -/
theorem get (h : Frozen list list') {p : Nat} {box' : BoxData} (hp : list'.heap p = some box') :
    ∃ box, list.heap p = some box ∧ box'.boxName = box.boxName ∧ box'.next = box.next := by
  have hboxes := h.boxes p
  rw [hp, Option.map_some] at hboxes
  obtain ⟨box, hbox, heq⟩ := Option.map_eq_some_iff.mp hboxes.symm
  rw [Prod.mk.injEq] at heq
  exact ⟨box, hbox, heq.1.symm, heq.2.symm⟩

end Frozen

/-- A step while the lock is taken is one of the loop, or it changes no name and no pointer of the list. -/
theorem Outcome.frozen (ho : Outcome b e b') (hlock : b.boxList.boxListLock = true) :
    Frozen b.boxList b'.boxList ∨ ∃ v c, e = .listBox v ∧ b.phase v = .listing c := by
  have hcontra : ∀ {P : Prop}, b.boxList.boxListLock = false → P := by
    intro P hfree
    rw [hlock] at hfree
    cases hfree
  cases ho with
  | insert _ _ hfree | deleteBox _ hfree | lockList _ hfree => exact hcontra hfree
  | setPublishers _ hbox | resetPublishers _ hbox | publishFull _ hbox | publish _ hbox | countSubscriber _ hbox
  | uncountSubscriber _ hbox | sample _ hbox => exact Or.inl (.setBox hbox rfl rfl)
  | listBox hw | unlockList hw => exact Or.inr ⟨_, _, rfl, hw⟩
  | _ => exact Or.inl .refl

/-! ## The walk along the list -/

/-- The record is about the box that was at `p`. A name that fits its field is that of the record; behind a longer one
the field runs on into `box_size`. -/
structure Recorded (list : BoxList) (p : Nat) (r : ListingResponse) : Prop where
  code : r.code = 8
  last : r.last = if some p = list.tail then 1 else 0
  boxName : ∃ box, list.heap p = some box ∧ ∀ n, box.HasName (newBoxName n) → r.boxName = n

/-- The worker `w`, which has locked the list, is through with the boxes `done` and has `rest` before it. -/
structure Walking (list : BoxList) (w : Nat) (done rest : List Nat) (rs : List ListingResponse) (b : Broker) :
    Prop where
  phase : b.phase w = .listing rest.head?
  holds : list.Holds (done ++ rest)
  frozen : Frozen { list with boxListLock := true } b.boxList
  records : List.Forall₂ (Recorded list) done rs
  output : b.output w = rs.map .listing

/-- The worker is through with all of them. -/
structure Walked (list : BoxList) (w : Nat) (ps : List Nat) (rs : List ListingResponse) (b : Broker) : Prop where
  phase : b.phase w = .idle
  holds : list.Holds ps
  records : List.Forall₂ (Recorded list) ps rs
  output : b.output w = rs.map .listing

/-- It takes no other request. -/
def KeepsRequest (w : Nat) (_ : Broker) : Event → Prop
  | .take v _ => v ≠ w
  | _ => True

instance (w : Nat) (b : Broker) : DecidablePred (KeepsRequest w b) := by
  intro e
  induction e using Event.casesOn with
  | take v d => exact inferInstanceAs (Decidable (v ≠ w))
  | _ => exact isTrue trivial

section Walk

variable {list : BoxList} {done rest : List Nat} {rs : List ListingResponse}

/-- The worker has just locked the list. -/
theorem Walking.start (hb : b.boxList.Holds ps) (hout : b.output w = []) : Walking b.boxList w [] ps []
    ({ b with boxList := { b.boxList with boxListLock := true } }.setPhase w (.listing b.boxList.head)) := by
  refine ⟨?_, hb, .refl, .nil, hout⟩
  rw [Broker.setPhase_self, hb.head_eq]

theorem Walked.keep (h : Walked list w ps rs b) (hp : b'.phase w = b.phase w) (ho : b'.output w = b.output w) :
    Walked list w ps rs b' :=
  ⟨hp.trans h.phase, h.holds, h.records, ho.trans h.output⟩

theorem Walked.step (h : Walked list w ps rs b) (hg : KeepsRequest w b e) (ho : Outcome b e b') :
    Walked list w ps rs b' := by
  have hw : w ≠ e.worker := by
    rintro rfl
    obtain ⟨d, he⟩ := ho.take_of_idle h.phase
    rw [he] at hg
    exact hg rfl
  obtain ⟨hphase, hout⟩ := ho.others hw
  exact h.keep hphase hout

theorem Walking.holds_now (h : Walking list w done rest rs b) : b.boxList.Holds (done ++ rest) :=
  h.frozen.holds ⟨h.holds.seg, h.holds.allocated⟩

/-- The record that is written next is about the first box that is left. -/
theorem Walking.record {p : Nat} {box : BoxData} (h : Walking list w done (p :: rest) rs b)
    (hp : b.boxList.heap p = some box) :
    Recorded list p (listingResponse b.boxList p box) ∧ box.next = rest.head? := by
  obtain ⟨box₀, hbox₀, hname, hnext⟩ := h.frozen.get hp
  refine ⟨⟨rfl, ?_, box₀, hbox₀, fun n hn => ?_⟩, ?_⟩
  · simp only [listingResponse, h.frozen.tail]
  · refine listingResponse_boxName ⟨hn.1, ?_⟩ p
    rw [hname]
    exact hn.2
  · obtain ⟨c, -, hseg⟩ := Seg.append_iff.mp h.holds_now.seg
    obtain ⟨-, box', hp', hseg⟩ := Seg.cons_iff.mp hseg
    rw [hp] at hp'
    cases hp'
    cases rest with
    | nil => exact Seg.nil_iff.mp hseg
    | cons q rest => exact (Seg.cons_iff.mp hseg).1

/-- The steps of the others change nothing that the loop looks at. -/
theorem Walking.others (h : Walking list w done rest rs b) (hl : ListLocked b) (ho : Outcome b e b')
    (hw : w ≠ e.worker) : Walking list w done rest rs b' := by
  obtain ⟨hphase, hout⟩ := ho.others hw
  obtain hfrozen | ⟨v, c, rfl, hv⟩ := ho.frozen h.frozen.boxListLock
  · exact ⟨hphase.trans h.phase, h.holds, h.frozen.trans hfrozen, h.records, hout.trans h.output⟩
  · exact absurd (hl.one w v rest.head? c (by rw [h.phase]; rfl) (by rw [hv]; rfl)) hw

/-- A step of the loop writes the record of the next box as it is now, or gives the lock back. -/
theorem Walking.self (h : Walking list w done rest rs b) (ho : Outcome b (.listBox w) b') :
    (∃ p rest' box, rest = p :: rest' ∧ b.boxList.heap p = some box ∧
        Walking list w (done ++ [p]) rest' (rs ++ [listingResponse b.boxList p box]) b') ∨
      rest = [] ∧ Walked list w done rs b' := by
  obtain ⟨p, box, hc, hbox, rfl⟩ | ⟨hc, rfl⟩ := ho.listBox_of_listing h.phase
  · cases rest with
    | nil => cases hc
    | cons q rest =>
        cases hc
        obtain ⟨hrec, hnext⟩ := h.record hbox
        refine Or.inl ⟨p, rest, box, rfl, hbox, ?_, by simpa using h.holds, h.frozen,
          List.rel_append h.records (.cons hrec .nil), ?_⟩
        · rw [← hnext]
          exact Broker.setPhase_self _ _ _
        · change (b.write w _).output w = _
          simp [h.output]
  · cases rest with
    | nil => exact Or.inr ⟨rfl, Broker.setPhase_self _ _ _, by simpa using h.holds, h.records, h.output⟩
    | cons q rest => cases hc

/-! ## The moment of a record -/

/-- The worker wrote the record in a step of the run, for the box as it was then. -/
def WrittenIn (w : Nat) (b : Broker) (es : List Event) (p : Nat) (r : ListingResponse) : Prop :=
  ∃ es₁ es₂ now box, es = es₁ ++ .listBox w :: es₂ ∧ Steps Step b es₁ now ∧ now.boxList.heap p = some box ∧
    r = listingResponse now.boxList p box

theorem WrittenIn.append {es : List Event} {p : Nat} {r : ListingResponse} (h : WrittenIn w b es p r)
    (es' : List Event) : WrittenIn w b (es ++ es') p r := by
  obtain ⟨es₁, es₂, now, box, rfl, hrun, hbox, hr⟩ := h
  exact ⟨es₁, es₂ ++ es', now, box, by simp, hrun, hbox, hr⟩

end Walk

end Mbroker.Sessions
