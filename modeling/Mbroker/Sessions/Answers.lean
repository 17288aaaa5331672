import Mbroker.Sessions.ListLock
import Mbroker.Sessions.Replay

/-!
# What a worker writes for a request

The request that each worker handles, the steps it has taken for it, and what it has written to its client's pipe.
-/

namespace Mbroker.Sessions

open Mbroker.Lib Mbroker.Fs Mbroker.Protocol

variable {b b' : Broker} {e : Event} {v w : Nat} {d : Dispatch.Decoded} {name : CString} {out : List Output}
  {trace : List Event} {list list' : BoxList} {old phase : Phase}

/-! ## The record -/

/-- The last request of each worker, its steps since it took it, and the list as the worker found it when it put a box
in, took one out, or locked it. -/
structure Handled where
  asked : Nat → Option Dispatch.Decoded
  trace : Nat → List Event
  list : Nat → BoxList

def Handled.empty : Handled := ⟨fun _ => none, fun _ => [], fun _ => .empty⟩

/-- The list that the worker has found last. -/
def Event.found (b : Broker) (list : BoxList) : Event → BoxList
  | .insert _ _ _ | .deleteBox _ | .lockList _ => b.boxList
  | _ => list

def handle (h : Handled) (b : Broker) (e : Event) (_ : Broker) : Handled :=
  match e with
  | .take w d => { h with
      asked := Function.update h.asked w (some d)
      trace := Function.update h.trace w [e] }
  | _ => { h with
      trace := Function.update h.trace e.worker (h.trace e.worker ++ [e])
      list := Function.update h.list e.worker (e.found b (h.list e.worker)) }

/-- A step of the broker, with the record beside it. -/
def HandleStep (x : Broker × Handled) (e : Event) (x' : Broker × Handled) : Prop := withRecord step handle x e = some x'

theorem HandleStep.of_withRecord (x : Broker × Handled) (e : Event) (x' : Broker × Handled)
    (h : withRecord step handle x e = some x') : HandleStep x e x' := h

theorem HandleStep.outcome {x x' : Broker × Handled} (h : HandleStep x e x') :
    ∃ b', Outcome x.1 e b' ∧ x' = (b', handle x.2 x.1 e b') := by
  obtain ⟨hs, hhandle⟩ := withRecord_eq_some.mp h
  exact ⟨x'.1, Step.outcome hs, Prod.ext rfl hhandle⟩

theorem handle_others (h : Handled) (b b' : Broker) (hv : v ≠ e.worker) :
    (handle h b e b').asked v = h.asked v ∧ (handle h b e b').trace v = h.trace v ∧
      (handle h b e b').list v = h.list v := by
  cases e with
  | take => exact ⟨Function.update_of_ne hv _ _, Function.update_of_ne hv _ _, rfl⟩
  | _ => exact ⟨rfl, Function.update_of_ne hv _ _, Function.update_of_ne hv _ _⟩

theorem handle_self (h : Handled) (b b' : Broker) (he : ∀ w d, e ≠ .take w d) :
    (handle h b e b').asked e.worker = h.asked e.worker ∧
      (handle h b e b').trace e.worker = h.trace e.worker ++ [e] ∧
      (handle h b e b').list e.worker = e.found b (h.list e.worker) := by
  cases e with
  | take w d => exact absurd rfl (he w d)
  | _ => exact ⟨rfl, Function.update_self _ _ _, Function.update_self _ _ _⟩

/-! ## The shape of an answer -/

/-- A request with this code, for the box. -/
def Asks (d : Dispatch.Decoded) (code : UInt8) (name : CString) : Prop :=
  ∃ r, d = .request r ∧ r.code = code ∧ name = newBoxName r.boxName

/-- What the worker `v` did for the answer `r`, with `list` as it found it: a creation is answered with 0 if the box was
put into the list, and with -1 if `tfs_open` failed; a removal is answered with 0 if `tfs_unlink` did not fail, whether
`delete_box` then took the box out of the list or found none, and with -1 if it failed. -/
inductive Answers (v : Nat) (d : Dispatch.Decoded) (list : BoxList) : List Event → BoxResponse → Prop
  | created {name : CString} {addr : Nat} {contents : Mem} : Asks d 3 name →
      Answers v d list [.take v d, .tfsOpen v, .insert v addr contents] createOk
  | notCreated {name : CString} : Asks d 3 name → Answers v d list [.take v d, .tfsOpen v] createError
  | removed {name : CString} : Asks d 5 name → list.TakesOut name →
      Answers v d list [.take v d, .tfsUnlink v, .deleteBox v] removeOk
  | missed {name : CString} : Asks d 5 name → list.Misses name →
      Answers v d list [.take v d, .tfsUnlink v, .deleteBox v] removeOk
  | notRemoved {name : CString} : Asks d 5 name → Answers v d list [.take v d, .tfsUnlink v] removeError

/-- The steps of a subscriber's session up to the test. -/
def subscription (v : Nat) (d : Dispatch.Decoded) : List Event := [.take v d, .findBox v, .tfsOpen v, .test v]

/-- The session was accepted, and the subscriber was written the string "test" and then messages that fit their field
with a NUL. -/
def IsFeed (v : Nat) (d : Dispatch.Decoded) (trace : List Event) (out : List Output) : Prop :=
  (∃ rest, trace = subscription v d ++ .countSubscriber v :: rest) ∧
    ∃ texts : List CString, (∀ t ∈ texts, t.strlen < sizeofText) ∧ out = .test :: texts.map .message

/-- The records of these boxes, in this order. -/
def IsListing (list : BoxList) (ps : List Nat) (out : List Output) : Prop :=
  ∃ rs, List.Forall₂ (Recorded list) ps rs ∧ out = rs.map .listing

/-- What the worker has written when it is done: nothing to a publisher, or to a subscriber that it refused, the feed
to one that it accepted, one answer to a creation or removal, and to a listing a record for every box of the list as it
was when it was locked. -/
def Complete (v : Nat) (list : BoxList) (trace : List Event) (out : List Output) : Dispatch.Decoded → Prop
  | .request r =>
    if r.code = 2 then (trace = subscription v (.request r) ∧ out = []) ∨ IsFeed v (.request r) trace out
    else if r.code = 3 ∨ r.code = 5 then ∃ steps response, Answers v (.request r) list steps response ∧
      trace = steps ++ [.respond v] ∧ out = [.response response]
    else out = []
  | .listing _ => ∃ ps, list.Holds ps ∧ IsListing list ps out
  | .unknown _ => out = []

/-- Where the worker is, what it has done and what it has written belong to its request. -/
def Conforms (v : Nat) (d : Dispatch.Decoded) (list : BoxList) (trace : List Event) (out : List Output) : Phase → Prop
  | .idle => Complete v list trace out d
  | .pub _ | .pubOpened _ _ | .pubFound _ _ _ | .pubAccepted _ | .pubTesting _ | .pubReading _ | .pubWriting _ _
  | .pubEnding _ => (∃ name, Asks d 1 name) ∧ out = []
  | .sub _ => (∃ name, Asks d 2 name) ∧ trace = [.take v d] ∧ out = []
  | .subFound _ _ => (∃ name, Asks d 2 name) ∧ trace = [.take v d, .findBox v] ∧ out = []
  | .subOpened _ _ _ => (∃ name, Asks d 2 name) ∧ trace = [.take v d, .findBox v, .tfsOpen v] ∧ out = []
  | .subAccepted _ => (∃ name, Asks d 2 name) ∧ trace = subscription v d ∧ out = []
  | .subCounted _ | .subRead _ | .subReplayed _ | .subWaiting _ _ | .subSending _ _ | .subEnding _ =>
    (∃ name, Asks d 2 name) ∧ IsFeed v d trace out
  | .create name => Asks d 3 name ∧ trace = [.take v d] ∧ out = []
  | .created name => Asks d 3 name ∧ trace = [.take v d, .tfsOpen v] ∧ out = []
  | .remove name => Asks d 5 name ∧ trace = [.take v d] ∧ out = []
  | .removed name => Asks d 5 name ∧ trace = [.take v d, .tfsUnlink v] ∧ out = []
  | .responding response => Answers v d list trace response ∧ out = []
  | .list => (∃ path, d = .listing path) ∧ out = []
  | .listing boxData => (∃ path, d = .listing path) ∧ ∃ done rest, list.Holds (done ++ rest) ∧ boxData = rest.head? ∧
      IsListing list done out

/-! ## Texts -/

theorem firstMessage_fits (buffer : Mem) : (firstMessage buffer).strlen < sizeofText := by
  have hle := strlen_removeStringsFromBuffer_le buffer (sizeofFullBoxBuffer - 1)
  have hsize : sizeofFullBoxBuffer - 1 < sizeofText := by decide
  exact lt_of_le_of_lt hle hsize

theorem replayLoop_fits (buffer : Mem) (n offsetAux : Nat) :
    ∀ t ∈ replayLoop buffer n offsetAux, t.strlen < sizeofText := by
  induction n generalizing offsetAux with
  | zero => nofun
  | succ n ih =>
      intro t ht
      by_cases ho : offsetAux ≤ sizeofFullBoxBuffer
      · rw [replayLoop_succ ho rfl] at ht
        split at ht
        · cases ht
        · rcases List.mem_cons.mp ht with rfl | ht
          · exact firstMessage_fits (buffer.ptr offsetAux)
          · exact ih _ t ht
      · rw [replayLoop, if_pos (not_le.mp ho)] at ht
        cases ht

theorem IsFeed.append (h : IsFeed v d trace out) {texts : List CString} (ht : ∀ t ∈ texts, t.strlen < sizeofText) :
    IsFeed v d trace (out ++ texts.map .message) := by
  obtain ⟨htrace, texts', hfit, rfl⟩ := h
  refine ⟨htrace, texts' ++ texts, fun t hmem => ?_, by simp⟩
  rcases List.mem_append.mp hmem with hmem | hmem
  · exact hfit t hmem
  · exact ht t hmem

theorem IsFeed.next (h : IsFeed v d trace out) (e : Event) : IsFeed v d (trace ++ [e]) out := by
  obtain ⟨⟨rest, rfl⟩, hout⟩ := h
  exact ⟨⟨rest ++ [e], by simp⟩, hout⟩

/-! ## Steps -/

theorem Conforms.start (v : Nat) (d : Dispatch.Decoded) (list : BoxList) :
    Conforms v d list [.take v d] [] (.start d) := by
  cases d with
  | listing path => exact ⟨⟨path, rfl⟩, rfl⟩
  | unknown code => exact Eq.refl []
  | request r =>
      simp only [Phase.start]
      split
      · rename_i h1
        exact ⟨⟨_, r, rfl, h1, rfl⟩, rfl⟩
      split
      · rename_i h2
        exact ⟨⟨_, r, rfl, h2, rfl⟩, rfl, rfl⟩
      split
      · rename_i h3
        exact ⟨⟨r, rfl, h3, rfl⟩, rfl, rfl⟩
      split
      · rename_i h5
        exact ⟨⟨r, rfl, h5, rfl⟩, rfl, rfl⟩
      · rename_i h2 h3 h5
        simp only [Conforms, Complete, if_neg h2, h3, h5, or_self, ↓reduceIte]

theorem Answers.complete {response : BoxResponse} (h : Answers v d list trace response) :
    Complete v list (trace ++ [.respond v]) [.response response] d := by
  have hcomplete : ∀ {r : Request}, d = .request r → r.code = 3 ∨ r.code = 5 →
      Complete v list (trace ++ [.respond v]) [.response response] d := by
    rintro r rfl hcode
    have h2 : r.code ≠ 2 := by
      rintro h2
      rw [h2] at hcode
      revert hcode
      decide
    simp only [Complete, if_neg h2, if_pos hcode]
    exact ⟨trace, response, h, rfl, rfl⟩
  cases h with
  | created ha | notCreated ha =>
      obtain ⟨r, hd, hcode, -⟩ := ha
      exact hcomplete hd (Or.inl hcode)
  | removed ha | missed ha | notRemoved ha =>
      obtain ⟨r, hd, hcode, -⟩ := ha
      exact hcomplete hd (Or.inr hcode)

theorem Asks.complete_publisher (ha : Asks d 1 name) : Complete v list trace [] d := by
  obtain ⟨r, rfl, hcode, -⟩ := ha
  simp [Complete, hcode]

theorem Asks.complete_refused (ha : Asks d 2 name) : Complete v list (subscription v d) [] d := by
  obtain ⟨r, rfl, hcode, -⟩ := ha
  rw [Complete, if_pos hcode]
  exact Or.inl ⟨rfl, rfl⟩

theorem Asks.complete_feed (ha : Asks d 2 name) (hf : IsFeed v d trace out) : Complete v list trace out d := by
  obtain ⟨r, rfl, hcode, -⟩ := ha
  rw [Complete, if_pos hcode]
  exact Or.inr hf

/-- The steps in which a worker writes to its client. -/
def Event.writes : Event → Bool
  | .countSubscriber _ | .replay _ | .send _ true | .respond _ | .listBox _ => true
  | _ => false

theorem Outcome.output_eq (ho : Outcome b e b') (he : ∀ w d, e ≠ .take w d) (hw : e.writes = false) :
    b'.output = b.output := by
  cases ho with
  | take => exact absurd rfl (he _ _)
  | countSubscriber | replay | send | respond | listBox | unlockList => cases hw
  | _ => rfl

/-- A step that writes nothing goes on with the request. -/
theorem Moves.conforms (hm : Moves b old e phase) (he : ∀ w d, e ≠ .take w d) (hw : e.writes = false) {ps : List Nat}
    (hb : b.boxList.Holds ps) (h : Conforms e.worker d list trace out old) :
    Conforms e.worker d (e.found b list) (trace ++ [e]) out phase := by
  cases hm with
  | take => exact absurd rfl (he _ _)
  | countSubscriber | replay | send | respond | listBox | unlockList => cases hw
  | openPub | findPub | acceptPub | setPublishers | readProbe | readMessage | readEnd | publishFull | publish => exact h
  | refusePub | resetPublishers =>
      obtain ⟨⟨name, ha⟩, rfl⟩ := h
      exact ha.complete_publisher
  | findSub | openSub | acceptSub =>
      obtain ⟨ha, rfl, hout⟩ := h
      exact ⟨ha, rfl, hout⟩
  | refuseSub =>
      obtain ⟨⟨name, ha⟩, rfl, rfl⟩ := h
      exact ha.complete_refused
  | readBox | sample | wake | sendFailed => exact ⟨h.1, h.2.next _⟩
  | uncountSubscriber =>
      obtain ⟨⟨name, ha⟩, hfeed⟩ := h
      exact ha.complete_feed (hfeed.next _)
  | notCreated =>
      obtain ⟨ha, rfl, hout⟩ := h
      exact ⟨.notCreated ha, hout⟩
  | created | removed =>
      obtain ⟨ha, rfl, hout⟩ := h
      exact ⟨ha, rfl, hout⟩
  | insert =>
      obtain ⟨ha, rfl, hout⟩ := h
      exact ⟨.created ha, hout⟩
  | notRemoved =>
      obtain ⟨ha, rfl, hout⟩ := h
      exact ⟨.notRemoved ha, hout⟩
  | @deleteBox w name =>
      obtain ⟨ha, rfl, hout⟩ := h
      obtain hout' | hmiss := hb.takesOut_or_misses name
      · exact ⟨.removed ha hout', hout⟩
      · exact ⟨.missed ha hmiss, hout⟩
  | lockList =>
      obtain ⟨hpath, rfl⟩ := h
      exact ⟨hpath, [], ps, hb, hb.head_eq, [], .nil, rfl⟩

/-- A step that writes something goes on with it. -/
theorem Outcome.conforms_writes (ho : Outcome b e b') (hwrites : e.writes = true)
    (hl : ∀ c, b.phase e.worker = .listing c → ∃ done rest rs, Walking list e.worker done rest rs b)
    (h : Conforms e.worker d list trace (b.output e.worker) (b.phase e.worker)) :
    Conforms e.worker d (e.found b list) (trace ++ [e]) (b'.output e.worker) (b'.phase e.worker) := by
  cases ho with
  | countSubscriber hw =>
      dsimp only [Event.worker] at h ⊢
      rw [hw] at h
      obtain ⟨ha, rfl, hout⟩ := h
      rw [Broker.setPhase_self]
      refine ⟨ha, ⟨[], rfl⟩, [], nofun, ?_⟩
      change (b.write _ _).output _ = _
      rw [Broker.write_output_self, hout]
      rfl
  | @replay w s hw =>
      dsimp only [Event.worker] at h ⊢
      rw [hw] at h
      rw [Broker.setPhase_self]
      refine ⟨h.1, ?_⟩
      change IsFeed w d _ ((b.write w _).output w)
      rw [Broker.write_output_self]
      exact (h.2.append (replayLoop_fits _ _ _)).next _
  | @send w s last hw =>
      dsimp only [Event.worker] at h ⊢
      rw [hw] at h
      rw [Broker.setPhase_self]
      refine ⟨h.1, ?_⟩
      change IsFeed w d _ ((b.write w _).output w)
      rw [Broker.write_output_self]
      have hfit : ∀ t ∈ [firstMessage (b.fullBoxBuffer w)], t.strlen < sizeofText := by
        intro t ht
        rw [List.mem_singleton.mp ht]
        exact firstMessage_fits _
      exact (h.2.append hfit).next _
  | @respond w response hw =>
      dsimp only [Event.worker] at h ⊢
      rw [hw] at h
      obtain ⟨ha, hout⟩ := h
      rw [Broker.setPhase_self]
      change Complete w list _ ((b.write w _).output w) d
      rw [Broker.write_output_self, hout]
      exact ha.complete
  | listBox hwl hbox =>
      dsimp only [Event.worker] at h hl ⊢
      obtain ⟨done, rest, rs, hwalk⟩ := hl _ hwl
      rw [hwl] at h
      obtain ⟨p, rest', box', rfl, -, hnext⟩ | ⟨-, hdone⟩ := hwalk.self (.listBox hwl hbox)
      · rw [hnext.phase, hnext.output]
        exact ⟨h.1, _, rest', hnext.holds, rfl, _, hnext.records, rfl⟩
      · have hidle := hdone.phase
        rw [Broker.setPhase_self] at hidle
        cases hidle
  | unlockList hwl =>
      dsimp only [Event.worker] at h hl ⊢
      obtain ⟨done, rest, rs, hwalk⟩ := hl _ hwl
      rw [hwl] at h
      obtain ⟨⟨path, rfl⟩, -⟩ := h
      obtain ⟨p, rest', box', rfl, -, -⟩ | ⟨-, hdone⟩ := hwalk.self (.unlockList hwl)
      · cases hwalk.phase.symm.trans hwl
      · rw [hdone.phase, hdone.output]
        exact ⟨done, hdone.holds, rs, hdone.records, rfl⟩
  | _ => cases hwrites

/-- Every request that a worker has taken is answered as it should be. -/
def AllConform (x : Broker × Handled) : Prop :=
  ∀ v d, x.2.asked v = some d → Conforms v d (x.2.list v) (x.2.trace v) (x.1.output v) (x.1.phase v)

/-! ## The invariant -/

/-- The answers, and what they need of the listings in progress. -/
structure Answering (x : Broker × Handled) : Prop where
  conform : AllConform x
  locked : ListLocked x.1
  cursor : CursorListed x.1
  fresh : ListFresh x.1
  walking : ∀ v c, x.1.phase v = .listing c → ∃ done rest rs, Walking (x.2.list v) v done rest rs x.1

theorem Broker.Started.answering (h : b.Started) : Answering (b, .empty) where
  conform := nofun
  locked := h.listLocked
  cursor := h.cursorListed
  fresh := h.listFresh
  walking := fun v c hv => by
    rw [h.phase v] at hv
    cases hv

namespace Answering

variable {x x' : Broker × Handled}

/-- The loop of the worker goes on, or has begun. -/
theorem walking_self (h : Answering x) (ho : Outcome x.1 e b') {c : Option Nat}
    (hc : b'.phase e.worker = .listing c) :
    ∃ done rest rs, Walking (e.found x.1 (x.2.list e.worker)) e.worker done rest rs b' := by
  obtain ⟨ps, hb, -⟩ := id h.cursor
  obtain ⟨w, rfl⟩ | ⟨w, rfl⟩ := ho.lists_of_listing hc
  · cases ho with
    | lockList hw => exact ⟨[], ps, [], .start hb (h.fresh w hw)⟩
  · obtain ⟨d, hold⟩ : ∃ d, x.1.phase w = .listing d := by
      cases ho with
      | listBox hw | unlockList hw => exact ⟨_, hw⟩
    obtain ⟨done, rest, rs, hwalk⟩ := h.walking w d hold
    obtain ⟨p, rest', box', -, -, hnext⟩ | ⟨-, hdone⟩ := hwalk.self ho
    · exact ⟨_, rest', _, hnext⟩
    · cases hdone.phase.symm.trans hc

theorem conform_step (h : Answering x) (hs : HandleStep x e x') : AllConform x' := by
  obtain ⟨b', ho, rfl⟩ := hs.outcome
  obtain ⟨ps, hb, -⟩ := id h.cursor
  intro v d hv
  by_cases hw : v = e.worker
  · by_cases htake : ∃ w d, e = .take w d
    · obtain ⟨w, d', rfl⟩ := htake
      obtain rfl : v = w := hw
      have hd : d' = d := by
        simp only [handle, Function.update_self, Option.some.injEq] at hv
        exact hv
      subst hd
      simp only [handle, Function.update_self]
      cases ho with
      | take =>
          rw [Broker.setPhase_self]
          simp only [Broker.setPhase, Function.update_self]
          exact .start _ _ _
    · have he : ∀ w d, e ≠ .take w d := fun w d h => htake ⟨w, d, h⟩
      obtain ⟨hasked, htrace, hlist⟩ := handle_self x.2 x.1 b' he
      subst hw
      rw [hasked] at hv
      rw [htrace, hlist]
      cases hwrites : e.writes with
      | false =>
          rw [ho.output_eq he hwrites]
          exact ho.moves_self.conforms he hwrites hb (h.conform _ d hv)
      | true => exact ho.conforms_writes hwrites (fun c => h.walking _ c) (h.conform _ d hv)
  · obtain ⟨hphase, hout⟩ := ho.others hw
    obtain ⟨hasked, htrace, hlist⟩ := handle_others x.2 x.1 b' hw
    rw [hasked] at hv
    rw [hphase, hout, htrace, hlist]
    exact h.conform v d hv

theorem step (h : Answering x) (hs : HandleStep x e x') : Answering x' := by
  have hconform := h.conform_step hs
  obtain ⟨b', ho, rfl⟩ := hs.outcome
  refine
    { conform := hconform
      locked := h.locked.step ho
      cursor := h.cursor.step h.locked ho
      fresh := h.fresh.step ho
      walking := fun v c hc => ?_ }
  by_cases hw : v = e.worker
  · subst hw
    have he : ∀ w d, e ≠ .take w d := by
      rintro w d rfl
      obtain ⟨u, he⟩ | ⟨u, he⟩ := ho.lists_of_listing hc
      · cases he
      · cases he
    rw [(handle_self x.2 x.1 b' he).2.2]
    exact h.walking_self ho hc
  · rw [(handle_others x.2 x.1 b' hw).2.2]
    rw [(ho.others hw).1] at hc
    obtain ⟨done, rest, rs, hwalk⟩ := h.walking v c hc
    exact ⟨done, rest, rs, hwalk.others h.locked ho hw⟩

end Answering

end Mbroker.Sessions
