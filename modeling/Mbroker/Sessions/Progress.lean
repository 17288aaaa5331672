import Mbroker.Fs.Reads
import Mbroker.Sessions.Files
import Mbroker.Sessions.ListLock
import Mbroker.Sessions.Locks

/-!
# Workers that can go on

In a run in which no box is removed under a session and every message finds room, a worker can always take its next
step, unless it waits for a request or its client, sleeps on a box whose size it knows, or another worker is listing the
boxes. Pipes hold all that is written to them.
-/

namespace Mbroker.Sessions

open Mbroker.Lib Mbroker.Fs Mbroker.Protocol

variable {b b' : Broker} {e : Event} {v w : Nat} {L : Layout} {a : FileSystem}

/-! ## What is stated -/

/-- The step removes no box of a session in progress, neither its file nor its node, and writes a message only where
there is room for some of it. -/
def Undisturbed (b : Broker) (e : Event) : Prop := NotRemoved b e ∧ KeepsBoxes b e ∧ RoomLeft b e

instance (b : Broker) : DecidablePred (Undisturbed b) := fun e =>
  inferInstanceAs (Decidable (NotRemoved b e ∧ KeepsBoxes b e ∧ RoomLeft b e))

/-- No write to a subscriber fails. The handler of SIGPIPE is there for one of them only, and the next one before
another `signal` ends the process. -/
def Attended (b : Broker) (e : Event) : Prop := Undisturbed b e ∧ ∀ w, e = .send w false → False

instance (b : Broker) : DecidablePred (Attended b) := by
  intro e
  have hdec : Decidable (∀ w, e = .send w false → False) := by
    induction e using Event.casesOn with
    | send w written =>
        induction written using Bool.casesOn with
        | true => exact isTrue fun _ he => by cases he
        | false => exact isFalse fun h => h w rfl
    | _ => exact isTrue fun _ he => by cases he
  exact inferInstanceAs (Decidable (Undisturbed b e ∧ ∀ w, e = .send w false → False))

/-- The worker can take a step, if its client does its part. -/
def CanStep (b : Broker) (v : Nat) : Prop := ∃ e b', e.worker = v ∧ Step b e b'

/-- The worker is at the `open` of its client's pipe, or at a `read` of it. -/
def Phase.atClient : Phase → Bool
  | .pubTesting _ | .pubReading _ => true
  | phase => phase.opens

/-- Before the step the worker waits for a request, or in `open` or `read` for its client. -/
def Event.waits (b : Broker) : Event → Bool
  | .take _ _ | .readProbe _ | .readMessage _ _ | .readEnd _ | .tfsUnlink _ | .lockList _ => true
  | .tfsOpen w =>
    match b.phase w with
    | .pub _ | .create _ => true
    | _ => false
  | .findBox w =>
    match b.phase w with
    | .sub _ => true
    | _ => false
  | _ => false

/-- The worker can take a step without a request and without its client. -/
def CanStepAlone (b : Broker) (v : Nat) : Prop := ∃ e b', e.worker = v ∧ e.waits b = false ∧ Step b e b'

/-- The worker waits for a message, and the box has the size it saw last. -/
def Asleep (b : Broker) (v : Nat) : Prop :=
  ∃ s lastSize box, b.phase v = .subWaiting s lastSize ∧ b.boxList.heap s.boxData = some box ∧ box.boxSize = lastSize

/-- The next thing the worker does is to lock the list. -/
def Phase.locksList : Phase → Bool
  | .pubOpened _ _ | .sub _ | .created _ | .removed _ | .list => true
  | _ => false

/-- The worker waits for the lock of the list, and the one that has it can go on. -/
def WaitsForListing (b : Broker) (v : Nat) : Prop :=
  (b.phase v).locksList = true ∧ ∃ u c b', u ≠ v ∧ b.phase u = .listing c ∧ Step b (.listBox u) b'

/-! ## Accepted sessions -/

/-- What an accepted session holds. -/
def Phase.session : Phase → Option Session
  | .pubAccepted s | .pubTesting s | .pubReading s | .pubWriting s _ | .pubEnding s
  | .subAccepted s | .subCounted s | .subRead s | .subReplayed s | .subWaiting s _ | .subSending s _
  | .subEnding s => some s
  | _ => none

theorem Phase.start_session (d : Dispatch.Decoded) : (Phase.start d).session = none :=
  Phase.start_of (P := fun p => p.session = none) rfl (fun _ => rfl) (fun _ => rfl) (fun _ => rfl) (fun _ => rfl) rfl d

theorem Phase.opened_of_session {phase : Phase} {s : Session} (h : phase.session = some s) :
    phase.opened = some (s.newBoxName, s.fileHandle) := by
  cases phase with
  | pubAccepted t | pubTesting t | pubReading t | pubWriting t | pubEnding t | subAccepted t | subCounted t | subRead t
  | subReplayed t | subWaiting t | subSending t | subEnding t =>
      cases h
      rfl
  | _ => cases h

theorem Phase.boxData_of_session {phase : Phase} {s : Session} (h : phase.session = some s) :
    phase.boxData = some s.boxData := by
  cases phase with
  | pubAccepted t | pubTesting t | pubReading t | pubWriting t | pubEnding t | subAccepted t | subCounted t | subRead t
  | subReplayed t | subWaiting t | subSending t | subEnding t =>
      cases h
      rfl
  | _ => cases h

/-- No session was accepted without a handle. -/
def HandlesGiven (b : Broker) : Prop := ∀ v s, (b.phase v).session = some s → 0 ≤ s.fileHandle

theorem Broker.Started.handlesGiven (h : b.Started) : HandlesGiven b := by
  intro v s hs
  rw [h.phase v] at hs
  cases hs

theorem Outcome.handlesGiven (ho : Outcome b e b') (h : HandlesGiven b) : HandlesGiven b' := by
  have hnew : ∀ v s, (b'.phase v).session = some s → (b.phase v).session = some s ∨ 0 ≤ s.fileHandle := by
    refine ho.field fun _ hm s hs => ?_
    cases hm with
    | take =>
        rw [Phase.start_session] at hs
        cases hs
    | acceptPub hh =>
        cases hs
        exact Or.inr hh
    | acceptSub hh =>
        cases hs
        exact Or.inr hh.le
    | _ => first | exact Or.inl hs | cases hs
  intro v s hs
  obtain hold | hpos := hnew v s hs
  · exact h v s hold
  · exact hpos

/-! ## The files of the sessions -/

theorem Files.reading (h : Files b L a) {old phase : Phase} {p : CString} {fh n : Int} {data : List UInt8} {fs : State}
    (buffer : Nat → Mem) (hw : b.phase w = old) (hold : old.isIdle = false) (hf : old.opened = some (p, fh))
    (he : Fs.tfsRead b.fs fh sizeofFullBoxBuffer = .ok (n, data, fs)) (hn : 0 ≤ n) (hop : phase.opened = old.opened) :
    ∃ a, Files ({ b with fs := fs, fullBoxBuffer := buffer }.setPhase w phase) L a := by
  have hfiles : ∀ {b₁ : Broker}, b₁.phase = b.phase → b₁.numThreads = b.numThreads → b₁.fs = fs →
      ∃ a, Files (b₁.setPhase w phase) L a := by
    intro b₁ hb hthreads hfs
    obtain ⟨i, off, -, -, -, hfiles⟩ := h.read hb hthreads hfs hw hold hf he hn hop
    exact ⟨_, hfiles⟩
  exact hfiles rfl rfl rfl

theorem Files.writing (h : Files b L a) (htexts : TextsFit b) {s : Session} {message : CString} {n : Int} {fs : State}
    {b₁ : Broker} (hb : b₁.phase = b.phase) (hthreads : b₁.numThreads = b.numThreads) (hfs : b₁.fs = fs)
    (hw : b.phase w = .pubWriting s message)
    (he : Fs.tfsWrite b.fs s.fileHandle message.mem (message.strlen + 1) = .ok (n, fs)) {phase : Phase}
    (hop : phase.opened = some (s.newBoxName, s.fileHandle)) : ∃ a, Files (b₁.setPhase w phase) L a := by
  have hlen : message.strlen ≤ 1024 := htexts w message (by rw [hw]; rfl)
  obtain ⟨-, hfiles⟩ | ⟨-, i, off, -, -, -, hfiles⟩ :=
    h.write phase hb hthreads hfs hw rfl rfl (by omega) he hop
  · exact ⟨_, hfiles⟩
  · exact ⟨_, hfiles⟩

theorem Files.step (h : Files b L a) (htexts : TextsFit b) (hg : NotRemoved b e) (ho : Outcome b e b') :
    ∃ L a, Files b' L a := by
  cases ho with
  | take hw hlt => exact ⟨L, a, h.keep rfl rfl hlt hw (Phase.start_opened _) h.view rfl fun _ => rfl⟩
  | @openPub w name r fs hw he =>
      obtain ⟨-, hfiles⟩ | ⟨i, -, -, hfiles⟩ := h.openBox (.pubOpened name r) (Or.inr rfl) hw rfl rfl he rfl
      · exact ⟨_, _, hfiles⟩
      · exact ⟨_, _, hfiles⟩
  | @openSub w name boxData r fs hw he =>
      obtain ⟨-, hfiles⟩ | ⟨i, -, -, hfiles⟩ := h.openBox (.subOpened name boxData r) (Or.inl rfl) hw rfl rfl he rfl
      · exact ⟨_, _, hfiles⟩
      · exact ⟨_, _, hfiles⟩
  | @openCreate w name r fs hw he =>
      have hop : (if r = -1 then Phase.responding createError else .created name).opened = none := by
        split <;> rfl
      obtain ⟨L', a', hfiles, -⟩ := h.createBox hw rfl rfl he hop
      exact ⟨L', a', hfiles⟩
  | @tfsUnlink w name r fs hw he =>
      have hop : (if r = -1 then Phase.responding removeError else .removed name).opened = none := by
        split <;> rfl
      obtain ⟨L', a', hfiles, -⟩ := h.removeBox hw hg he hop
      exact ⟨L', a', hfiles⟩
  | readBox hw he hn | wake hw _ _ _ he hn =>
      exact ⟨L, h.reading _ hw rfl rfl he hn rfl⟩
  | publish hw _ _ he | publishFull hw _ _ he =>
      refine ⟨L, h.writing htexts ?_ ?_ ?_ hw he ?_⟩
      all_goals rfl
  | refusePub hw | refuseSub hw | resetPublishers hw | uncountSubscriber hw =>
      exact ⟨L, _, h.finish rfl rfl rfl hw rfl rfl⟩
  | _ => exact ⟨L, a, h.quiet rfl rfl rfl (by assumption) (by rfl) (by rfl)⟩

/-! ## The heap -/

/-- There is memory for another box. -/
def Spacious (list : BoxList) : Prop := ∃ n, ∀ p, n ≤ p → list.heap p = none

theorem Spacious.keep {α : Type} {f : BoxData → α} {list list' : BoxList} (h : Spacious list)
    (hk : BoxList.Keeps f list list') : Spacious list' := by
  obtain ⟨n, hn⟩ := h
  refine ⟨n, fun p hp => ?_⟩
  cases hbox : list'.heap p with
  | none => rfl
  | some box' =>
      obtain ⟨box, hold, -⟩ := hk p box' hbox
      rw [hn p hp] at hold
      cases hold

theorem Spacious.insert {list : BoxList} (h : Spacious list) (addr : Nat) (contents : Mem) (name : CString) :
    Spacious (insertAtBeginning list addr contents name 0 0 0) := by
  obtain ⟨n, hn⟩ := h
  refine ⟨max n (addr + 1), fun p hp => ?_⟩
  have hne : p ≠ addr := by omega
  simp only [insertAtBeginning, Function.update_of_ne hne]
  exact hn p (by omega)

theorem Outcome.spacious (ho : Outcome b e b') (h : Spacious b.boxList) : Spacious b'.boxList := by
  cases ho with
  | setPublishers hw hbox | countSubscriber hw hbox | sample hw hbox | resetPublishers hw hbox
  | uncountSubscriber hw hbox | publishFull hw hbox | publish hw hbox =>
      exact h.keep (f := BoxData.next) (.setBox hbox rfl)
  | insert => exact h.insert _ _ _
  | deleteBox hw hlock he => exact h.keep (f := BoxData.nPublishers) (.deleteBox (fun _ _ => rfl) he)
  | _ => exact h

/-! ## The invariant -/

/-- What the run keeps that the next step of a worker needs. -/
structure Going (b : Broker) : Prop where
  files : ∃ L a, Files b L a
  fits : TextsFit b
  given : HandlesGiven b
  locked : ListLocked b
  cursor : CursorListed b
  free : LocksFree b.boxList
  listed : BoxesListed b
  spacious : Spacious b.boxList

theorem Broker.Started.going (h : b.Started) : Going b where
  files := ⟨_, _, h.files⟩
  fits := h.textsFit
  given := h.handlesGiven
  locked := h.listLocked
  cursor := h.cursorListed
  free := by
    rw [h.boxList]
    nofun
  listed := by
    refine ⟨[], by rw [h.boxList]; exact BoxList.empty_holds, fun v _ p hp => ?_⟩
    rw [h.phase v] at hp
    cases hp
  spacious := by
    rw [h.boxList]
    exact ⟨0, fun _ _ => rfl⟩

namespace Going

theorem step (h : Going b) (hg : Undisturbed b e) (ho : Outcome b e b') : Going b' := by
  obtain ⟨L, a, hfiles⟩ := h.files
  exact
    { files := hfiles.step h.fits hg.1 ho
      fits := ho.textsFit h.fits
      given := ho.handlesGiven h.given
      locked := h.locked.step ho
      cursor := h.cursor.step h.locked ho
      free := (ho.locksFree_iff hfiles.view.inv h.free).mpr hg.2.2
      listed := (ho.boxesListed_iff h.listed).mpr hg.2.1
      spacious := ho.spacious h.spacious }

/-! ## The next step -/

theorem holds (h : Going b) : ∃ ps, b.boxList.Holds ps := by
  obtain ⟨ps, hps, -⟩ := h.listed
  exact ⟨ps, hps⟩

/-- The box of a session can be accessed. -/
theorem box (h : Going b) (hv : v < b.numThreads) {s : Session} (hs : (b.phase v).session = some s) :
    ∃ box, b.boxList.heap s.boxData = some box ∧ box.boxCondvarLock = false := by
  obtain ⟨ps, hps, hin⟩ := h.listed
  obtain ⟨box, hbox⟩ := hps.seg.allocated (hin v hv s.boxData (Phase.boxData_of_session hs))
  exact ⟨box, hbox, h.free _ box hbox⟩

/-- A read for a session returns what is between its offset and the end of the file. -/
theorem read (h : Going b) {s : Session} (hs : (b.phase v).session = some s) :
    ∃ n data fs, Fs.tfsRead b.fs s.fileHandle sizeofFullBoxBuffer = .ok (n, data, fs) ∧ 0 ≤ n := by
  obtain ⟨L, a, hfiles⟩ := h.files
  obtain ⟨i, hi⟩ := Int.eq_ofNat_of_zero_le (h.given v s hs)
  have hopened := Phase.opened_of_session hs
  rw [hi] at hopened ⊢
  obtain ⟨-, hn, off, hhandle, hoff⟩ := hfiles.handle hopened
  obtain ⟨-, hentry, -, hsize⟩ := hfiles.view.entry hhandle
  obtain ⟨hopen, -⟩ := hfiles.view.refines.handle_some i _ off hhandle
  have hopen := (State.isOpen_only.mp hopen).2
  obtain ⟨⟨n, data, fs⟩, he⟩ := hfiles.view.inv.tfsRead_ok hopen (by rw [hentry]) (by rw [hentry, hsize]; exact hoff)
    sizeofFullBoxBuffer
  refine ⟨n, data, fs, he, ?_⟩
  cases hfiles.view.inv.tfsRead_outcome he with
  | closed hget =>
      rw [getOpenFileEntry_natCast hopen] at hget
      cases hget
  | nothing => exact le_refl _
  | data => exact Int.natCast_nonneg _

/-- A write of a message returns. -/
theorem write (h : Going b) {s : Session} {message : CString} (hv : b.phase v = .pubWriting s message) :
    ∃ n fs, Fs.tfsWrite b.fs s.fileHandle message.mem (message.strlen + 1) = .ok (n, fs) := by
  obtain ⟨L, a, hfiles⟩ := h.files
  obtain ⟨⟨n, fs⟩, he, -⟩ | ⟨-, i, hi, -, hfar⟩ :=
    hfiles.view.inv.tfsWrite_outcome s.fileHandle message.mem (message.strlen + 1)
  · exact ⟨n, fs, he⟩
  · have hlen : message.strlen ≤ 1024 := h.fits v message (by rw [hv]; rfl)
    have hopened : (b.phase v).opened = some (s.newBoxName, (i : Int)) := by rw [hv, ← hi]; rfl
    obtain ⟨-, hn, off, hhandle, hoff⟩ := hfiles.handle hopened
    obtain ⟨-, hentry, -, -⟩ := hfiles.view.entry hhandle
    have hmax := hfiles.view.content_le hn
    have hbs : b.fs.blockSize = 1024 := by rw [State.blockSize, hfiles.params]; rfl
    simp only [hentry, hbs] at hfar
    have hwrite : writeLen 1024 off (message.strlen + 1) ≤ 1025 := by
      unfold writeLen
      split
      · rw [sizeSub_of_le (by omega) (by omega)]
        omega
      · omega
    omega

/-- A worker that has the list to lock can do it, or another one has it locked and can go on. -/
theorem lock (h : Going b) (hv : (b.phase v).locksList = true)
    (hfree : b.boxList.boxListLock = false → CanStep b v) : CanStep b v ∨ WaitsForListing b v := by
  cases hlock : b.boxList.boxListLock with
  | false => exact Or.inl (hfree hlock)
  | true =>
      obtain ⟨u, c, hu⟩ := h.locked.held hlock
      have hphase := Phase.cursor_eq hu
      obtain ⟨b', hs⟩ := h.cursor.listBox hphase
      refine Or.inr ⟨hv, u, c, b', ?_, hphase, hs⟩
      rintro rfl
      rw [hphase] at hv
      cases hv

/-- One access to the box of a session. -/
theorem access (h : Going b) (hv : v < b.numThreads) {s : Session} (hs : (b.phase v).session = some s)
    (b₁ : Broker) (hb : b₁.boxList = b.boxList) (update : BoxData → BoxData) (next : BoxData → Phase) :
    ∃ b', b₁.access v s update next = some b' := by
  obtain ⟨box, hbox, -⟩ := h.box hv hs
  exact ⟨_, by simp only [Broker.access, hb, hbox]; rfl⟩

theorem openBox (h : Going b) (name : CString) (mode : Nat) (next : Int → Phase) :
    ∃ b', b.openBox v name mode next = some b' := by
  obtain ⟨L, a, hfiles⟩ := h.files
  obtain ⟨⟨fh, fs⟩, he, -⟩ := hfiles.view.inv.tfsOpen_outcome (some name) mode
  exact ⟨_, by simp only [Broker.openBox, he]; rfl⟩

theorem readBox (h : Going b) {s : Session} (hs : (b.phase v).session = some s) (next : Phase) :
    ∃ b', b.readBox v s next = some b' := by
  obtain ⟨n, data, fs, he, hn⟩ := h.read hs
  exact ⟨_, by simp only [Broker.readBox, he, if_neg (not_lt.mpr hn)]; rfl⟩

theorem find (h : Going b) (hfree : b.boxList.boxListLock = false) (name : CString) (next : Option Nat → Phase) :
    ∃ b', b.find v name next = some b' := by
  obtain ⟨ps, hps⟩ := h.holds
  exact ⟨_, by simp only [Broker.find, hfree, hps.findBox]; rfl⟩

/-- A subscriber in its loop sleeps, or can read. -/
theorem wake (h : Going b) (hv : v < b.numThreads) {s : Session} {lastSize : Nat}
    (hphase : b.phase v = .subWaiting s lastSize) : CanStep b v ∨ Asleep b v := by
  have hs : (b.phase v).session = some s := by rw [hphase]; rfl
  obtain ⟨box, hbox, hlock⟩ := h.box hv hs
  by_cases hsize : box.boxSize = lastSize
  · exact Or.inr ⟨s, lastSize, box, hphase, hbox, hsize⟩
  · obtain ⟨b', hb'⟩ := h.readBox hs (.subSending s box.boxSize)
    refine Or.inl ⟨.wake v, b', rfl, ?_⟩
    have hcond : ¬ (box.boxCondvarLock = true ∨ box.boxSize = lastSize) := by simp [hlock, hsize]
    simp only [Step, Sessions.step, hphase, Broker.wake, hbox, Option.bind_eq_bind, Option.bind_some, if_neg hcond]
    exact hb'

/-- A section under `box_condvar_lock` of a publisher. -/
theorem publish (h : Going b) (hv : v < b.numThreads) {s : Session} {message : CString}
    (hphase : b.phase v = .pubWriting s message) : CanStep b v := by
  obtain ⟨box, hbox, hlock⟩ := h.box hv (by rw [hphase]; rfl)
  obtain ⟨n, fs, he⟩ := h.write hphase
  have hfree : ¬ box.boxCondvarLock = true := by simp [hlock]
  by_cases hn : n ≤ 0
  · exact ⟨.publish v, _, rfl, by
      simp only [Step, Sessions.step, hphase, Broker.publish, hbox, Option.bind_eq_bind, Option.bind_some, if_neg hfree,
        he, if_pos hn]
      rfl⟩
  · exact ⟨.publish v, _, rfl, by
      simp only [Step, Sessions.step, hphase, Broker.publish, hbox, Option.bind_eq_bind, Option.bind_some, if_neg hfree,
        he, if_neg hn]
      rfl⟩

/-- The test of a publisher reads `n_publishers` of a box that is there. -/
theorem testPublisher (h : Going b) (hv : v < b.numThreads) {name : CString} {fh : Int} {boxData : Option Nat}
    (hphase : b.phase v = .pubFound name fh boxData) : ∃ b', b.testPublisher v name fh boxData = some b' := by
  cases boxData with
  | none => exact ⟨_, rfl⟩
  | some p =>
      by_cases hfh : fh < 0
      · exact ⟨b.setPhase v .idle, by simp only [Broker.testPublisher, if_pos hfh]⟩
      · obtain ⟨ps, hps, hin⟩ := h.listed
        have hp : (b.phase v).boxData = some p := by
          rw [hphase]
          simp [Phase.boxData, not_lt.mp hfh]
        obtain ⟨box, hbox⟩ := hps.seg.allocated (hin v hv p hp)
        exact ⟨_, by simp only [Broker.testPublisher, if_neg hfh, hbox]; rfl⟩

/-- By where the worker is: it can step, or it sleeps, or it waits for the list. -/
theorem progress (h : Going b) (hv : v < b.numThreads) : CanStep b v ∨ Asleep b v ∨ WaitsForListing b v := by
  have hcan : ∀ {e : Event} {b' : Broker}, e.worker = v → Sessions.step b e = some b' →
      CanStep b v ∨ Asleep b v ∨ WaitsForListing b v := fun he hs => Or.inl ⟨_, _, he, hs⟩
  cases hphase : b.phase v with
  | idle =>
      have hguard : v < b.numThreads ∧ (Dispatch.Decoded.unknown 0).Fits := ⟨hv, trivial⟩
      exact hcan (e := .take v (.unknown 0)) rfl (by simp only [Sessions.step, hphase, if_pos hguard]; rfl)
  | pub name =>
      obtain ⟨b', hb'⟩ := h.openBox (v := v) name tfsOAppend fun fh => .pubOpened name fh
      exact hcan (e := .tfsOpen v) rfl (by simp only [Sessions.step, hphase]; exact hb')
  | subFound name boxData =>
      obtain ⟨b', hb'⟩ := h.openBox (v := v) name 0 fun fh => .subOpened name boxData fh
      exact hcan (e := .tfsOpen v) rfl (by simp only [Sessions.step, hphase]; exact hb')
  | create name =>
      obtain ⟨b', hb'⟩ := h.openBox (v := v) name tfsOCreat fun create =>
        if create = -1 then .responding createError else .created name
      exact hcan (e := .tfsOpen v) rfl (by simp only [Sessions.step, hphase]; exact hb')
  | pubOpened name fh =>
      obtain hstep | hwait := h.lock (v := v) (by rw [hphase]; rfl) fun hfree => by
        obtain ⟨b', hb'⟩ := h.find (v := v) hfree name fun boxData => .pubFound name fh boxData
        exact ⟨.findBox v, b', rfl, by simp only [Step, Sessions.step, hphase]; exact hb'⟩
      · exact Or.inl hstep
      · exact Or.inr (Or.inr hwait)
  | sub name =>
      obtain hstep | hwait := h.lock (v := v) (by rw [hphase]; rfl) fun hfree => by
        obtain ⟨b', hb'⟩ := h.find (v := v) hfree name fun boxData => .subFound name boxData
        exact ⟨.findBox v, b', rfl, by simp only [Step, Sessions.step, hphase]; exact hb'⟩
      · exact Or.inl hstep
      · exact Or.inr (Or.inr hwait)
  | created name =>
      obtain hstep | hwait := h.lock (v := v) (by rw [hphase]; rfl) fun hfree => by
        obtain ⟨n, hn⟩ := h.spacious
        exact ⟨.insert v n fun _ => 0, _, rfl, by
          simp only [Step, Sessions.step, hphase, hn n le_rfl, hfree, Bool.false_eq_true, ↓reduceIte]; rfl⟩
      · exact Or.inl hstep
      · exact Or.inr (Or.inr hwait)
  | removed name =>
      obtain hstep | hwait := h.lock (v := v) (by rw [hphase]; rfl) fun hfree => by
        obtain ⟨ps, hps⟩ := h.holds
        obtain ⟨list, he, -⟩ := @BoxList.Holds.deleteBox _ _ name hps
        exact ⟨.deleteBox v, _, rfl, by simp only [Step, Sessions.step, hphase, hfree, he]; rfl⟩
      · exact Or.inl hstep
      · exact Or.inr (Or.inr hwait)
  | list =>
      obtain hstep | hwait := h.lock (v := v) (by rw [hphase]; rfl) fun hfree =>
        ⟨.lockList v, _, rfl, by simp only [Step, Sessions.step, hphase, hfree]; rfl⟩
      · exact Or.inl hstep
      · exact Or.inr (Or.inr hwait)
  | pubFound name fh boxData =>
      obtain ⟨b', hb'⟩ := h.testPublisher hv hphase
      exact hcan (e := .test v) rfl (by simp only [Sessions.step, hphase]; exact hb')
  | subOpened name boxData fh => exact hcan (e := .test v) rfl (by simp only [Sessions.step, hphase]; rfl)
  | pubAccepted s =>
      obtain ⟨b', hb'⟩ := h.access hv (by rw [hphase]; rfl) b rfl (fun box => { box with nPublishers := 1 })
        fun _ => .pubTesting s
      exact hcan (e := .setPublishers v) rfl (by simp only [Sessions.step, hphase]; exact hb')
  | pubTesting s => exact hcan (e := .readProbe v) rfl (by simp only [Sessions.step, hphase]; rfl)
  | pubReading s => exact hcan (e := .readEnd v) rfl (by simp only [Sessions.step, hphase]; rfl)
  | pubWriting s message => exact Or.inl (h.publish hv hphase)
  | pubEnding s =>
      obtain ⟨b', hb'⟩ := h.access hv (by rw [hphase]; rfl) b rfl (fun box => { box with nPublishers := 0 })
        fun _ => .idle
      exact hcan (e := .resetPublishers v) rfl (by simp only [Sessions.step, hphase]; exact hb')
  | subAccepted s =>
      obtain ⟨b', hb'⟩ := h.access hv (by rw [hphase]; rfl) (b.write v [.test]) rfl
        (fun box => { box with nSubscribers := toSize (box.nSubscribers + 1) }) fun _ => .subCounted s
      exact hcan (e := .countSubscriber v) rfl (by simp only [Sessions.step, hphase]; exact hb')
  | subCounted s =>
      obtain ⟨b', hb'⟩ := h.readBox (v := v) (by rw [hphase]; rfl) (.subRead s)
      exact hcan (e := .readBox v) rfl (by simp only [Sessions.step, hphase]; exact hb')
  | subRead s => exact hcan (e := .replay v) rfl (by simp only [Sessions.step, hphase]; rfl)
  | subReplayed s =>
      obtain ⟨b', hb'⟩ := h.access hv (by rw [hphase]; rfl) b rfl id fun box => .subWaiting s box.boxSize
      exact hcan (e := .sample v) rfl (by simp only [Sessions.step, hphase]; exact hb')
  | subWaiting s lastSize =>
      obtain hstep | hasleep := h.wake hv hphase
      · exact Or.inl hstep
      · exact Or.inr (Or.inl hasleep)
  | subSending s lastSize => exact hcan (e := .send v true) rfl (by simp only [Sessions.step, hphase]; rfl)
  | subEnding s =>
      obtain ⟨b', hb'⟩ := h.access hv (by rw [hphase]; rfl) b rfl
        (fun box => { box with nSubscribers := sizeSub box.nSubscribers 1 }) fun _ => .idle
      exact hcan (e := .uncountSubscriber v) rfl (by simp only [Sessions.step, hphase]; exact hb')
  | remove name =>
      obtain ⟨L, a, hfiles⟩ := h.files
      obtain ⟨⟨r, fs⟩, he, -⟩ := hfiles.view.inv.tfsUnlink_outcome (some name)
      exact hcan (e := .tfsUnlink v) rfl (by simp only [Sessions.step, hphase, he]; rfl)
  | responding response => exact hcan (e := .respond v) rfl (by simp only [Sessions.step, hphase]; rfl)
  | listing c =>
      obtain ⟨b', hb'⟩ := h.cursor.listBox hphase
      exact hcan rfl hb'

end Going

/-! ## Workers that cannot step -/

theorem Asleep.not_canStep (h : Asleep b v) : ¬ CanStep b v := by
  obtain ⟨s, lastSize, box, hphase, hbox, hsize⟩ := h
  rintro ⟨e, b', rfl, hs⟩
  obtain ⟨phase, -, hm⟩ := hs.outcome.moves hphase
  cases hm with
  | wake hbox' hne =>
      cases hbox'.symm.trans hbox
      exact hne hsize

/-- What begins with the lock of the list waits until it is free. -/
theorem Moves.free {old phase : Phase} (hm : Moves b old e phase) (h : old.locksList = true) :
    b.boxList.boxListLock = false := by
  cases hm with
  | findPub hfree | findSub hfree | insert hfree | deleteBox hfree | lockList hfree => exact hfree
  | _ => cases h

theorem WaitsForListing.not_canStep (h : WaitsForListing b v) (hl : ListLocked b) : ¬ CanStep b v := by
  obtain ⟨hlocks, u, c, -, -, hu, -⟩ := h
  have htaken : b.boxList.boxListLock = true := hl.taken u c (by rw [hu]; rfl)
  rintro ⟨e, b', rfl, hs⟩
  have hfree := hs.outcome.moves_self.free hlocks
  rw [htaken] at hfree
  cases hfree

/-- A worker can step exactly if it neither sleeps nor waits for the list. -/
theorem Going.canStep_iff (h : Going b) (hv : v < b.numThreads) :
    CanStep b v ↔ ¬ Asleep b v ∧ ¬ WaitsForListing b v := by
  constructor
  · exact fun hcan => ⟨fun hasleep => hasleep.not_canStep hcan, fun hwaits => hwaits.not_canStep h.locked hcan⟩
  · rintro ⟨hawake, hfree⟩
    obtain hcan | hasleep | hwaits := h.progress hv
    · exact hcan
    · exact absurd hasleep hawake
    · exact absurd hwaits hfree

/-- A step waits for the client by where its worker is. -/
theorem Outcome.waits_eq (ho : Outcome b e b') :
    e.waits b = ((b.phase e.worker).isIdle || (b.phase e.worker).atClient) := by
  cases ho with
  | openPub hw | openSub hw | openCreate hw | findPub hw | findSub hw => simp only [Event.waits, Event.worker, hw]; rfl
  | _ => simp only [Event.waits, Event.worker, *]; rfl

theorem Going.canStepAlone_iff (h : Going b) (hv : v < b.numThreads) :
    CanStepAlone b v ↔ (b.phase v).isIdle = false ∧ (b.phase v).atClient = false ∧ ¬ Asleep b v ∧
      ¬ WaitsForListing b v := by
  rw [← h.canStep_iff hv]
  constructor
  · rintro ⟨e, b', rfl, hwaits, hs⟩
    rw [hs.outcome.waits_eq, Bool.or_eq_false_iff] at hwaits
    exact ⟨hwaits.1, hwaits.2, e, b', rfl, hs⟩
  · rintro ⟨hidle, hclient, e, b', rfl, hs⟩
    refine ⟨e, b', rfl, ?_, hs⟩
    rw [hs.outcome.waits_eq, hidle, hclient]
    rfl

end Mbroker.Sessions
