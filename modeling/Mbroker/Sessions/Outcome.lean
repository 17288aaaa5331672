import Mbroker.Sessions.Model

/-!
# What a step of the broker can do

One constructor for each way a step can go, and the lemma that every step is one of them. What is proved about
the broker is proved from here.
-/

namespace Mbroker.Sessions

open Mbroker.Lib Mbroker.Fs Mbroker.Protocol

inductive Outcome (b : Broker) : Event → Broker → Prop
  | take {w d} : b.phase w = .idle → w < b.numThreads → d.Fits →
      Outcome b (.take w d) ({ b with output := Function.update b.output w [] }.setPhase w (.start d))
  | openPub {w name h fs} : b.phase w = .pub name → Fs.tfsOpen b.fs (some name) tfsOAppend = .ok (h, fs) →
      Outcome b (.tfsOpen w) ({ b with fs := fs }.setPhase w (.pubOpened name h))
  | openSub {w name boxData h fs} : b.phase w = .subFound name boxData →
      Fs.tfsOpen b.fs (some name) 0 = .ok (h, fs) →
      Outcome b (.tfsOpen w) ({ b with fs := fs }.setPhase w (.subOpened name boxData h))
  | openCreate {w name h fs} : b.phase w = .create name → Fs.tfsOpen b.fs (some name) tfsOCreat = .ok (h, fs) →
      Outcome b (.tfsOpen w)
        ({ b with fs := fs }.setPhase w (if h = -1 then .responding createError else .created name))
  | findPub {w name h boxData} : b.phase w = .pubOpened name h → b.boxList.boxListLock = false →
      findBox b.boxList b.boxList.head name = some boxData →
      Outcome b (.findBox w) (b.setPhase w (.pubFound name h boxData))
  | findSub {w name boxData} : b.phase w = .sub name → b.boxList.boxListLock = false →
      findBox b.boxList b.boxList.head name = some boxData →
      Outcome b (.findBox w) (b.setPhase w (.subFound name boxData))
  | refusePub {w name h boxData} : b.phase w = .pubFound name h boxData → Outcome b (.test w) (b.setPhase w .idle)
  | acceptPub {w name h p box} : b.phase w = .pubFound name h (some p) → 0 ≤ h → b.boxList.heap p = some box →
      box.nPublishers = 0 → Outcome b (.test w) (b.setPhase w (.pubAccepted ⟨name, h, p⟩))
  | refuseSub {w name boxData h} : b.phase w = .subOpened name boxData h → Outcome b (.test w) (b.setPhase w .idle)
  | acceptSub {w name p h} : b.phase w = .subOpened name (some p) h → 0 < h →
      Outcome b (.test w) (b.setPhase w (.subAccepted ⟨name, h, p⟩))
  | setPublishers {w s box} : b.phase w = .pubAccepted s → b.boxList.heap s.boxData = some box →
      Outcome b (.setPublishers w) ((b.setBox s.boxData { box with nPublishers := 1 }).setPhase w (.pubTesting s))
  | readProbe {w s} : b.phase w = .pubTesting s → Outcome b (.readProbe w) (b.setPhase w (.pubReading s))
  | readMessage {w s message} : b.phase w = .pubReading s → message.strlen ≤ sizeofText →
      Outcome b (.readMessage w message) (b.setPhase w (.pubWriting s message))
  | readEnd {w s} : b.phase w = .pubReading s → Outcome b (.readEnd w) (b.setPhase w (.pubEnding s))
  | publishFull {w s message box n fs} : b.phase w = .pubWriting s message → b.boxList.heap s.boxData = some box →
      box.boxCondvarLock = false → Fs.tfsWrite b.fs s.fileHandle message.mem (message.strlen + 1) = .ok (n, fs) →
      n ≤ 0 → Outcome b (.publish w)
        (({ b with fs := fs }.setBox s.boxData { box with boxCondvarLock := true }).setPhase w (.pubEnding s))
  | publish {w s message box n fs} : b.phase w = .pubWriting s message → b.boxList.heap s.boxData = some box →
      box.boxCondvarLock = false → Fs.tfsWrite b.fs s.fileHandle message.mem (message.strlen + 1) = .ok (n, fs) →
      0 < n → Outcome b (.publish w)
        (({ b with fs := fs }.setBox s.boxData { box with boxSize := toSize (box.boxSize + message.strlen) }).setPhase
          w (.pubReading s))
  | resetPublishers {w s box} : b.phase w = .pubEnding s → b.boxList.heap s.boxData = some box →
      Outcome b (.resetPublishers w) ((b.setBox s.boxData { box with nPublishers := 0 }).setPhase w .idle)
  | countSubscriber {w s box} : b.phase w = .subAccepted s → b.boxList.heap s.boxData = some box →
      Outcome b (.countSubscriber w) (((b.write w [.test]).setBox s.boxData
        { box with nSubscribers := toSize (box.nSubscribers + 1) }).setPhase w (.subCounted s))
  | readBox {w s n data fs} : b.phase w = .subCounted s →
      Fs.tfsRead b.fs s.fileHandle sizeofFullBoxBuffer = .ok (n, data, fs) → 0 ≤ n →
      Outcome b (.readBox w) ({ b with
        fs := fs
        fullBoxBuffer := Function.update b.fullBoxBuffer w
          ((b.fullBoxBuffer w).copy 0 (Mem.ofList data) data.length) }.setPhase w (.subRead s))
  | replay {w s} : b.phase w = .subRead s → Outcome b (.replay w)
      ((b.write w ((Sessions.replay (b.fullBoxBuffer w)).map .message)).setPhase w (.subReplayed s))
  | sample {w s box} : b.phase w = .subReplayed s → b.boxList.heap s.boxData = some box →
      Outcome b (.sample w) ((b.setBox s.boxData box).setPhase w (.subWaiting s box.boxSize))
  | wake {w s last box n data fs} : b.phase w = .subWaiting s last → b.boxList.heap s.boxData = some box →
      box.boxCondvarLock = false → box.boxSize ≠ last →
      Fs.tfsRead b.fs s.fileHandle sizeofFullBoxBuffer = .ok (n, data, fs) → 0 ≤ n →
      Outcome b (.wake w) ({ b with
        fs := fs
        fullBoxBuffer := Function.update b.fullBoxBuffer w
          ((b.fullBoxBuffer w).copy 0 (Mem.ofList data) data.length) }.setPhase w (.subSending s box.boxSize))
  | send {w s last} : b.phase w = .subSending s last → Outcome b (.send w true)
      ((b.write w [.message (firstMessage (b.fullBoxBuffer w))]).setPhase w (.subWaiting s last))
  | sendFailed {w s last} : b.phase w = .subSending s last →
      Outcome b (.send w false) (b.setPhase w (.subEnding s))
  | uncountSubscriber {w s box} : b.phase w = .subEnding s → b.boxList.heap s.boxData = some box →
      Outcome b (.uncountSubscriber w)
        ((b.setBox s.boxData { box with nSubscribers := sizeSub box.nSubscribers 1 }).setPhase w .idle)
  | insert {w name addr contents} : b.phase w = .created name → b.boxList.heap addr = none →
      b.boxList.boxListLock = false → Outcome b (.insert w addr contents)
        ({ b with boxList := insertAtBeginning b.boxList addr contents name 0 0 0 }.setPhase w
          (.responding createOk))
  | tfsUnlink {w name r fs} : b.phase w = .remove name → Fs.tfsUnlink b.fs (some name) = .ok (r, fs) →
      Outcome b (.tfsUnlink w)
        ({ b with fs := fs }.setPhase w (if r = -1 then .responding removeError else .removed name))
  | deleteBox {w name list} : b.phase w = .removed name → b.boxList.boxListLock = false →
      Protocol.deleteBox b.boxList name = some list →
      Outcome b (.deleteBox w) ({ b with boxList := list }.setPhase w (.responding removeOk))
  | respond {w response} : b.phase w = .responding response →
      Outcome b (.respond w) ((b.write w [.response response]).setPhase w .idle)
  | lockList {w} : b.phase w = .list → b.boxList.boxListLock = false → Outcome b (.lockList w)
      ({ b with boxList := { b.boxList with boxListLock := true } }.setPhase w (.listing b.boxList.head))
  | listBox {w p box} : b.phase w = .listing (some p) → b.boxList.heap p = some box → Outcome b (.listBox w)
      ((b.write w [.listing (listingResponse b.boxList p box)]).setPhase w (.listing box.next))
  | unlockList {w} : b.phase w = .listing none → Outcome b (.listBox w)
      ({ b with boxList := { b.boxList with boxListLock := false } }.setPhase w .idle)

variable {b b' : Broker} {e : Event}

section Steps

variable {w : Nat}

/-! ## The pieces of the cases -/

theorem Broker.openBox_eq_some {name : CString} {mode : Nat} {next : Int → Phase}
    (h : b.openBox w name mode next = some b') : ∃ fileHandle fs,
      Fs.tfsOpen b.fs (some name) mode = .ok (fileHandle, fs) ∧
        b' = { b with fs := fs }.setPhase w (next fileHandle) := by
  unfold Broker.openBox at h
  split at h
  · rename_i fileHandle fs ho
    cases h
    exact ⟨fileHandle, fs, ho, rfl⟩
  · cases h

theorem Broker.find_eq_some {name : CString} {next : Option Nat → Phase} (h : b.find w name next = some b') :
    b.boxList.boxListLock = false ∧ ∃ boxData, findBox b.boxList b.boxList.head name = some boxData ∧
      b' = b.setPhase w (next boxData) := by
  unfold Broker.find at h
  split at h
  · cases h
  · rename_i hlock
    obtain ⟨boxData, hfind, rfl⟩ := Option.map_eq_some_iff.mp h
    exact ⟨Bool.eq_false_iff.mpr hlock, boxData, hfind, rfl⟩

theorem Broker.access_eq_some {s : Session} {update : BoxData → BoxData} {next : BoxData → Phase}
    (h : b.access w s update next = some b') : ∃ box, b.boxList.heap s.boxData = some box ∧
      b' = (b.setBox s.boxData (update box)).setPhase w (next box) := by
  obtain ⟨box, hbox, rfl⟩ := Option.map_eq_some_iff.mp h
  exact ⟨box, hbox, rfl⟩

theorem Broker.readBox_eq_some {s : Session} {next : Phase} (h : b.readBox w s next = some b') : ∃ n data fs,
    Fs.tfsRead b.fs s.fileHandle sizeofFullBoxBuffer = .ok (n, data, fs) ∧ 0 ≤ n ∧ b' = { b with
      fs := fs
      fullBoxBuffer := Function.update b.fullBoxBuffer w
        ((b.fullBoxBuffer w).copy 0 (Mem.ofList data) data.length) }.setPhase w next := by
  unfold Broker.readBox at h
  split at h
  · rename_i n data fs hread
    split at h
    · cases h
    · rename_i hn
      cases h
      exact ⟨n, data, fs, hread, not_lt.mp hn, rfl⟩
  · cases h

/-! ## Every step is one of them -/

theorem outcome_tfsOpen (h : step b (.tfsOpen w) = some b') : Outcome b (.tfsOpen w) b' := by
  simp only [step] at h
  split at h
  · rename_i name hw
    obtain ⟨fileHandle, fs, ho, rfl⟩ := Broker.openBox_eq_some h
    exact .openPub hw ho
  · rename_i name boxData hw
    obtain ⟨fileHandle, fs, ho, rfl⟩ := Broker.openBox_eq_some h
    exact .openSub hw ho
  · rename_i name hw
    obtain ⟨fileHandle, fs, ho, rfl⟩ := Broker.openBox_eq_some h
    exact .openCreate hw ho
  · cases h

theorem outcome_findBox (h : step b (.findBox w) = some b') : Outcome b (.findBox w) b' := by
  simp only [step] at h
  split at h
  · rename_i name fileHandle hw
    obtain ⟨hlock, boxData, hfind, rfl⟩ := Broker.find_eq_some h
    exact .findPub hw hlock hfind
  · rename_i name hw
    obtain ⟨hlock, boxData, hfind, rfl⟩ := Broker.find_eq_some h
    exact .findSub hw hlock hfind
  · cases h

theorem outcome_testPublisher {name : CString} {fileHandle : Int} {boxData : Option Nat}
    (hw : b.phase w = .pubFound name fileHandle boxData) (h : b.testPublisher w name fileHandle boxData = some b') :
    Outcome b (.test w) b' := by
  unfold Broker.testPublisher at h
  split at h
  · cases h
    exact .refusePub hw
  · split at h
    · cases h
      exact .refusePub hw
    · rename_i hneg
      obtain ⟨box, hbox, rfl⟩ := Option.map_eq_some_iff.mp h
      split
      · rename_i hzero
        exact .acceptPub hw (not_lt.mp hneg) hbox hzero
      · exact .refusePub hw

theorem outcome_testSubscriber {name : CString} {boxData : Option Nat} {fileHandle : Int}
    (hw : b.phase w = .subOpened name boxData fileHandle) :
    Outcome b (.test w) (b.testSubscriber w name boxData fileHandle) := by
  unfold Broker.testSubscriber
  split
  · exact .refuseSub hw
  · split
    · rename_i hpos
      exact .acceptSub hw hpos
    · exact .refuseSub hw

theorem outcome_test (h : step b (.test w) = some b') : Outcome b (.test w) b' := by
  simp only [step] at h
  split at h
  · rename_i name fileHandle boxData hw
    exact outcome_testPublisher hw h
  · rename_i name boxData fileHandle hw
    cases h
    exact outcome_testSubscriber hw
  · cases h

theorem outcome_publish {s : Session} {message : CString} (hw : b.phase w = .pubWriting s message)
    (h : b.publish w s message = some b') : Outcome b (.publish w) b' := by
  obtain ⟨box, hbox, h⟩ := Option.bind_eq_some_iff.mp h
  split at h
  · cases h
  · rename_i hlock
    have hlock := Bool.eq_false_iff.mpr hlock
    split at h
    · rename_i n fs hwrite
      split at h
      · rename_i hn
        cases h
        exact .publishFull hw hbox hlock hwrite hn
      · rename_i hn
        cases h
        exact .publish hw hbox hlock hwrite (not_le.mp hn)
    · cases h

theorem outcome_wake {s : Session} {lastSize : Nat} (hw : b.phase w = .subWaiting s lastSize)
    (h : b.wake w s lastSize = some b') : Outcome b (.wake w) b' := by
  obtain ⟨box, hbox, h⟩ := Option.bind_eq_some_iff.mp h
  split at h
  · cases h
  · rename_i hcond
    rw [not_or] at hcond
    obtain ⟨n, data, fs, hread, hn, rfl⟩ := Broker.readBox_eq_some h
    exact .wake hw hbox (Bool.eq_false_iff.mpr hcond.1) hcond.2 hread hn

theorem outcome_insert {addr : Nat} {contents : Mem} (h : step b (.insert w addr contents) = some b') :
    Outcome b (.insert w addr contents) b' := by
  simp only [step] at h
  split at h
  · rename_i name hw hfree
    split at h
    · cases h
    · rename_i hlock
      cases h
      exact .insert hw hfree (Bool.eq_false_iff.mpr hlock)
  · cases h

theorem outcome_tfsUnlink (h : step b (.tfsUnlink w) = some b') : Outcome b (.tfsUnlink w) b' := by
  simp only [step] at h
  split at h
  · rename_i name hw
    split at h
    · rename_i r fs hun
      cases h
      exact .tfsUnlink hw hun
    · cases h
  · cases h

theorem outcome_deleteBox (h : step b (.deleteBox w) = some b') : Outcome b (.deleteBox w) b' := by
  simp only [step] at h
  split at h
  · rename_i name hw
    split at h
    · cases h
    · rename_i hlock
      obtain ⟨list, hdel, rfl⟩ := Option.map_eq_some_iff.mp h
      exact .deleteBox hw (Bool.eq_false_iff.mpr hlock) hdel
  · cases h

theorem outcome_lockList (h : step b (.lockList w) = some b') : Outcome b (.lockList w) b' := by
  simp only [step] at h
  split at h
  · rename_i hw
    split at h
    · cases h
    · rename_i hlock
      cases h
      exact .lockList hw (Bool.eq_false_iff.mpr hlock)
  · cases h

theorem outcome_listBox (h : step b (.listBox w) = some b') : Outcome b (.listBox w) b' := by
  simp only [step] at h
  split at h
  · rename_i p hw
    obtain ⟨box, hbox, rfl⟩ := Option.map_eq_some_iff.mp h
    exact .listBox hw hbox
  · rename_i hw
    cases h
    exact .unlockList hw
  · cases h

theorem Step.outcome (h : Step b e b') : Outcome b e b' := by
  unfold Step at h
  cases e with
  | tfsOpen w => exact outcome_tfsOpen h
  | findBox w => exact outcome_findBox h
  | test w => exact outcome_test h
  | take w d =>
      simp only [step] at h
      split at h
      · rename_i hw
        split at h
        · rename_i hlt
          cases h
          exact .take hw hlt.1 hlt.2
        · cases h
      · cases h
  | setPublishers w | resetPublishers w | countSubscriber w | sample w | uncountSubscriber w =>
      simp only [step] at h
      split at h
      · rename_i s hw
        obtain ⟨box, hbox, rfl⟩ := Broker.access_eq_some h
        first
          | exact .setPublishers hw hbox
          | exact .resetPublishers hw hbox
          | exact .countSubscriber hw hbox
          | exact .sample hw hbox
          | exact .uncountSubscriber hw hbox
      · cases h
  | readProbe w | readEnd w | replay w | respond w =>
      simp only [step] at h
      split at h
      · rename_i hw
        cases h
        first | exact .readProbe hw | exact .readEnd hw | exact .replay hw | exact .respond hw
      · cases h
  | readMessage w message =>
      simp only [step] at h
      split at h
      · rename_i s hw
        split at h
        · rename_i hlen
          cases h
          exact .readMessage hw hlen
        · cases h
      · cases h
  | publish w =>
      simp only [step] at h
      split at h
      · rename_i s message hw
        exact outcome_publish hw h
      · cases h
  | readBox w =>
      simp only [step] at h
      split at h
      · rename_i s hw
        obtain ⟨n, data, fs, hread, hn, rfl⟩ := Broker.readBox_eq_some h
        exact .readBox hw hread hn
      · cases h
  | wake w =>
      simp only [step] at h
      split at h
      · rename_i s last hw
        exact outcome_wake hw h
      · cases h
  | send w written =>
      simp only [step] at h
      split at h
      · rename_i s last hw
        cases written with
        | true =>
            cases h
            exact .send hw
        | false =>
            cases h
            exact .sendFailed hw
      · cases h
  | insert w addr contents => exact outcome_insert h
  | tfsUnlink w => exact outcome_tfsUnlink h
  | deleteBox w => exact outcome_deleteBox h
  | lockList w => exact outcome_lockList h
  | listBox w => exact outcome_listBox h

end Steps

/-! ## The way of a worker -/

/-- What is so wherever a case begins. -/
theorem Phase.start_of {P : Phase → Prop} (idle : P .idle) (pub : ∀ n, P (.pub n)) (sub : ∀ n, P (.sub n))
    (create : ∀ n, P (.create n)) (remove : ∀ n, P (.remove n)) (list : P .list) (d : Dispatch.Decoded) :
    P (.start d) := by
  cases d with
  | request r =>
      simp only [Phase.start]
      repeat' split
      · exact pub _
      · exact sub _
      · exact create _
      · exact remove _
      · exact idle
  | listing path => exact list
  | unknown code => exact idle

/-- The worker is at the `open` of its client's pipe, with which its case begins. -/
def Phase.opens : Phase → Bool
  | .pub _ | .sub _ | .create _ | .remove _ | .list => true
  | _ => false

/-- The worker that takes the step. -/
def Event.worker : Event → Nat
  | .take w _ | .tfsOpen w | .findBox w | .test w | .setPublishers w | .readProbe w | .readMessage w _ | .readEnd w
  | .publish w | .resetPublishers w | .countSubscriber w | .readBox w | .replay w | .sample w | .wake w | .send w _
  | .uncountSubscriber w | .insert w _ _ | .tfsUnlink w | .deleteBox w | .respond w | .lockList w | .listBox w => w

/-- From where to where a step leads its worker. -/
inductive Moves (b : Broker) : Phase → Event → Phase → Prop
  | take {w d} : d.Fits → Moves b .idle (.take w d) (.start d)
  | openPub {w name h} : Moves b (.pub name) (.tfsOpen w) (.pubOpened name h)
  | openSub {w name boxData h} : Moves b (.subFound name boxData) (.tfsOpen w) (.subOpened name boxData h)
  | notCreated {w name} : Moves b (.create name) (.tfsOpen w) (.responding createError)
  | created {w name} : Moves b (.create name) (.tfsOpen w) (.created name)
  | findPub {w name h boxData} : b.boxList.boxListLock = false →
      findBox b.boxList b.boxList.head name = some boxData →
      Moves b (.pubOpened name h) (.findBox w) (.pubFound name h boxData)
  | findSub {w name boxData} : b.boxList.boxListLock = false →
      findBox b.boxList b.boxList.head name = some boxData →
      Moves b (.sub name) (.findBox w) (.subFound name boxData)
  | refusePub {w name h boxData} : Moves b (.pubFound name h boxData) (.test w) .idle
  | acceptPub {w name h p} : 0 ≤ h → Moves b (.pubFound name h (some p)) (.test w) (.pubAccepted ⟨name, h, p⟩)
  | refuseSub {w name boxData h} : Moves b (.subOpened name boxData h) (.test w) .idle
  | acceptSub {w name p h} : 0 < h → Moves b (.subOpened name (some p) h) (.test w) (.subAccepted ⟨name, h, p⟩)
  | setPublishers {w s} : Moves b (.pubAccepted s) (.setPublishers w) (.pubTesting s)
  | readProbe {w s} : Moves b (.pubTesting s) (.readProbe w) (.pubReading s)
  | readMessage {w s message} : message.strlen ≤ sizeofText →
      Moves b (.pubReading s) (.readMessage w message) (.pubWriting s message)
  | readEnd {w s} : Moves b (.pubReading s) (.readEnd w) (.pubEnding s)
  | publishFull {w s message} : Moves b (.pubWriting s message) (.publish w) (.pubEnding s)
  | publish {w s message} : Moves b (.pubWriting s message) (.publish w) (.pubReading s)
  | resetPublishers {w s} : Moves b (.pubEnding s) (.resetPublishers w) .idle
  | countSubscriber {w s} : Moves b (.subAccepted s) (.countSubscriber w) (.subCounted s)
  | readBox {w s} : Moves b (.subCounted s) (.readBox w) (.subRead s)
  | replay {w s} : Moves b (.subRead s) (.replay w) (.subReplayed s)
  | sample {w s box} : b.boxList.heap s.boxData = some box →
      Moves b (.subReplayed s) (.sample w) (.subWaiting s box.boxSize)
  | wake {w s last box} : b.boxList.heap s.boxData = some box → box.boxSize ≠ last →
      Moves b (.subWaiting s last) (.wake w) (.subSending s box.boxSize)
  | send {w s last} : Moves b (.subSending s last) (.send w true) (.subWaiting s last)
  | sendFailed {w s last} : Moves b (.subSending s last) (.send w false) (.subEnding s)
  | uncountSubscriber {w s} : Moves b (.subEnding s) (.uncountSubscriber w) .idle
  | insert {w name addr contents} : b.boxList.boxListLock = false →
      Moves b (.created name) (.insert w addr contents) (.responding createOk)
  | notRemoved {w name} : Moves b (.remove name) (.tfsUnlink w) (.responding removeError)
  | removed {w name} : Moves b (.remove name) (.tfsUnlink w) (.removed name)
  | deleteBox {w name} : b.boxList.boxListLock = false →
      Moves b (.removed name) (.deleteBox w) (.responding removeOk)
  | respond {w response} : Moves b (.responding response) (.respond w) .idle
  | lockList {w} : b.boxList.boxListLock = false → Moves b .list (.lockList w) (.listing b.boxList.head)
  | listBox {w p box} : b.boxList.heap p = some box → Moves b (.listing (some p)) (.listBox w) (.listing box.next)
  | unlockList {w} : Moves b (.listing none) (.listBox w) .idle

theorem Moves.setPhase {w : Nat} {old phase : Phase} (h : Moves b old e phase) (hw : b.phase w = old) (b₁ : Broker) :
    Moves b (b.phase w) e ((b₁.setPhase w phase).phase w) := by
  rw [hw, Broker.setPhase_self]
  exact h

theorem Outcome.moves_self (ho : Outcome b e b') : Moves b (b.phase e.worker) e (b'.phase e.worker) := by
  cases ho with
  | take hw hlt hd => exact (Moves.take hd).setPhase hw _
  | openPub hw => exact Moves.openPub.setPhase hw _
  | openSub hw => exact Moves.openSub.setPhase hw _
  | openCreate hw =>
      refine Moves.setPhase ?_ hw _
      split
      · exact .notCreated
      · exact .created
  | findPub hw hlock hfind => exact (Moves.findPub hlock hfind).setPhase hw _
  | findSub hw hlock hfind => exact (Moves.findSub hlock hfind).setPhase hw _
  | refusePub hw => exact Moves.refusePub.setPhase hw _
  | acceptPub hw hh => exact (Moves.acceptPub hh).setPhase hw _
  | refuseSub hw => exact Moves.refuseSub.setPhase hw _
  | acceptSub hw hh => exact (Moves.acceptSub hh).setPhase hw _
  | setPublishers hw => exact Moves.setPublishers.setPhase hw _
  | readProbe hw => exact Moves.readProbe.setPhase hw _
  | readMessage hw hlen => exact (Moves.readMessage hlen).setPhase hw _
  | readEnd hw => exact Moves.readEnd.setPhase hw _
  | publishFull hw => exact Moves.publishFull.setPhase hw _
  | publish hw => exact Moves.publish.setPhase hw _
  | resetPublishers hw => exact Moves.resetPublishers.setPhase hw _
  | countSubscriber hw => exact Moves.countSubscriber.setPhase hw _
  | readBox hw => exact Moves.readBox.setPhase hw _
  | replay hw => exact Moves.replay.setPhase hw _
  | sample hw hbox => exact (Moves.sample hbox).setPhase hw _
  | wake hw hbox _ hne => exact (Moves.wake hbox hne).setPhase hw _
  | send hw => exact Moves.send.setPhase hw _
  | sendFailed hw => exact Moves.sendFailed.setPhase hw _
  | uncountSubscriber hw => exact Moves.uncountSubscriber.setPhase hw _
  | insert hw _ hlock => exact (Moves.insert hlock).setPhase hw _
  | tfsUnlink hw =>
      refine Moves.setPhase ?_ hw _
      split
      · exact .notRemoved
      · exact .removed
  | deleteBox hw hlock => exact (Moves.deleteBox hlock).setPhase hw _
  | respond hw => exact Moves.respond.setPhase hw _
  | lockList hw hlock => exact (Moves.lockList hlock).setPhase hw _
  | listBox hw hbox => exact (Moves.listBox hbox).setPhase hw _
  | unlockList hw => exact Moves.unlockList.setPhase hw _

theorem Outcome.moves (ho : Outcome b e b') {old : Phase} (hw : b.phase e.worker = old) :
    ∃ phase, b'.phase e.worker = phase ∧ Moves b old e phase := ⟨_, rfl, hw ▸ ho.moves_self⟩

/-! ## The other workers -/

theorem Broker.write_output_ne {v w : Nat} (output : List Output) (h : v ≠ w) :
    (b.write w output).output v = b.output v := Function.update_of_ne h _ _

@[simp] theorem Broker.write_output_self (w : Nat) (output : List Output) :
    (b.write w output).output w = b.output w ++ output := Function.update_self _ _ _

/-- They are where they were, and have written nothing. -/
theorem Outcome.others (ho : Outcome b e b') {v : Nat} (hv : v ≠ e.worker) :
    b'.phase v = b.phase v ∧ b'.output v = b.output v := by
  cases ho with
  | take => exact ⟨Broker.setPhase_ne _ _ hv, Function.update_of_ne hv _ _⟩
  | countSubscriber | replay | send | respond | listBox =>
      exact ⟨Broker.setPhase_ne _ _ hv, Broker.write_output_ne _ hv⟩
  | _ => exact ⟨Broker.setPhase_ne _ _ hv, rfl⟩

section Field

variable {α : Type} {f : Phase → Option α} {P : α → Prop}

/-- Only the worker that takes the step gets something else. -/
theorem Outcome.field (ho : Outcome b e b')
    (h : ∀ {old phase}, b.phase e.worker = old → Moves b old e phase → ∀ a, f phase = some a → f old = some a ∨ P a) :
    ∀ v a, f (b'.phase v) = some a → f (b.phase v) = some a ∨ P a := by
  intro v a hv
  by_cases hw : v = e.worker
  · subst hw
    exact h rfl ho.moves_self a hv
  · rw [(ho.others hw).1] at hv
    exact Or.inl hv

/-- The worker goes on with what it has, or needs it no more. -/
theorem Outcome.field_keep (ho : Outcome b e b')
    (h : ∀ {old phase}, Moves b old e phase → ∀ a, f phase = some a → f old = some a) :
    ∀ v a, f (b'.phase v) = some a → f (b.phase v) = some a := fun v a hv =>
  (ho.field (P := fun _ => False) (fun _ hm a ha => Or.inl (h hm a ha)) v a hv).resolve_right id

theorem Outcome.field_eq {f : Phase → α} (ho : Outcome b e b')
    (h : ∀ {old phase}, Moves b old e phase → f phase = f old) : ∀ v, f (b'.phase v) = f (b.phase v) := by
  intro v
  by_cases hw : v = e.worker
  · subst hw
    exact h ho.moves_self
  · rw [(ho.others hw).1]

end Field

/-- A worker that is idle can only take a request. -/
theorem Outcome.take_of_idle (ho : Outcome b e b') (hidle : b.phase e.worker = .idle) : ∃ d, e = .take e.worker d := by
  obtain ⟨phase, -, hm⟩ := ho.moves hidle
  cases hm with
  | take => exact ⟨_, rfl⟩

/-- A worker in the loop of case 7 can only go on with it. -/
theorem Outcome.event_of_listing (ho : Outcome b e b') {c : Option Nat} (h : b.phase e.worker = .listing c) :
    e = .listBox e.worker := by
  obtain ⟨phase, -, hm⟩ := ho.moves h
  cases hm <;> rfl

theorem Outcome.listBox_of_listing (ho : Outcome b e b') {c : Option Nat} (h : b.phase e.worker = .listing c) :
    (∃ p box, c = some p ∧ b.boxList.heap p = some box ∧ b' =
        (b.write e.worker [.listing (listingResponse b.boxList p box)]).setPhase e.worker (.listing box.next)) ∨
      c = none ∧ b' = { b with boxList := { b.boxList with boxListLock := false } }.setPhase e.worker .idle := by
  rw [ho.event_of_listing h] at ho
  cases ho with
  | @listBox v p box hw hbox =>
      cases hw.symm.trans h
      exact Or.inl ⟨p, box, rfl, hbox, rfl⟩
  | unlockList hw =>
      cases hw.symm.trans h
      exact Or.inr ⟨rfl, rfl⟩

end Mbroker.Sessions
