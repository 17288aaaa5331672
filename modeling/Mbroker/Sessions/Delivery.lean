import Mbroker.Sessions.Append
import Mbroker.Sessions.Boxes

/-!
# What a subscriber is sent

A subscriber notices news by `box_size` and takes it from where its handle is; after a wake-up it sends one message.
Beside the broker stands a record of the messages that were stored in the box of each session since its first
`tfs_read`, and of those it was sent since.
-/

namespace Mbroker.Sessions

open Mbroker.Lib Mbroker.Fs Mbroker.Protocol

variable {b b' b₁ : Broker} {e : Event} {L L' : Layout} {a a' : FileSystem} {v w : Nat} {phase : Phase}

/-! ## What is stated -/

/-- A subscriber session that has done its first `tfs_read`. -/
def Phase.following : Phase → Option Session
  | .subRead s | .subReplayed s | .subWaiting s _ | .subSending s _ | .subEnding s => some s
  | _ => none

/-- A subscriber session that is to be sent what is stored from now on. -/
def Phase.awaiting : Phase → Option Session
  | .subRead s | .subReplayed s | .subWaiting s _ | .subSending s _ => some s
  | _ => none

/-- `last_size`, once it is set. -/
def Phase.lastSize : Phase → Option Nat
  | .subWaiting _ lastSize | .subSending _ lastSize => some lastSize
  | _ => none

/-- `last_size` of a session that waits. -/
def Phase.waitSize : Phase → Option Nat
  | .subWaiting _ lastSize => some lastSize
  | _ => none

/-- The `box_size` of the box at `p`. -/
def Broker.sizeAt (b : Broker) (p : Nat) : Option Nat := (b.boxList.heap p).map BoxData.boxSize

/-- What was stored in the box of each session, and what was sent to it. -/
structure Feed where
  stored : Nat → List CString
  sent : Nat → List CString

def Feed.empty : Feed := ⟨fun _ => [], fun _ => []⟩

def Output.text? : Output → Option CString
  | .message text => some text
  | _ => none

/-- The messages that the worker `w` writes in a step. -/
def messagesSent (b b' : Broker) (w : Nat) : List CString :=
  ((b'.output w).drop (b.output w).length).filterMap Output.text?

def feed (f : Feed) (b : Broker) (e : Event) (b' : Broker) : Feed :=
  match e with
  | .readBox w => ⟨Function.update f.stored w [], Function.update f.sent w []⟩
  | .publish _ => match stored b e b' with
    | some (s, message) => { f with stored := fun v =>
        if (b.phase v).following.any (·.newBoxName = s.newBoxName) then f.stored v ++ [message] else f.stored v }
    | none => f
  | .send w _ => { f with sent := Function.update f.sent w (f.sent w ++ messagesSent b b' w) }
  | _ => f

/-- A step of the broker, with the record beside it. -/
def FeedStep (x : Broker × Feed) (e : Event) (x' : Broker × Feed) : Prop := withRecord step feed x e = some x'

theorem FeedStep.of_withRecord (x : Broker × Feed) (e : Event) (x' : Broker × Feed)
    (h : withRecord step feed x e = some x') : FeedStep x e x' := h

theorem FeedStep.outcome {x x' : Broker × Feed} (h : FeedStep x e x') :
    ∃ b', Outcome x.1 e b' ∧ x' = (b', feed x.2 x.1 e b') := by
  obtain ⟨hs, hfeed⟩ := withRecord_eq_some.mp h
  exact ⟨x'.1, Step.outcome hs, Prod.ext rfl hfeed⟩

theorem messagesSent_write (output : List Output) :
    messagesSent b ((b.write w output).setPhase w phase) w = output.filterMap Output.text? := by
  simp [messagesSent, Broker.write, Broker.setPhase]

theorem messagesSent_setPhase : messagesSent b (b.setPhase w phase) w = [] := by
  simp [messagesSent, Broker.setPhase]

/-- A session was sent what was stored, in order, and all of it when it waits with `box_size == last_size`. -/
def ExactDelivery (x : Broker × Feed) : Prop :=
  ∀ v s, (x.1.phase v).following = some s → x.2.sent v <+: x.2.stored v ∧
    ∀ lastSize, (x.1.phase v).waitSize = some lastSize → x.1.sizeAt s.boxData = some lastSize →
      x.2.sent v = x.2.stored v

/-- A text that is written goes to the end of the file, whole. -/
def StoredWhole (b : Broker) (s : Session) (message : CString) : Prop :=
  ∀ i ∈ getOpenFileEntry b.fs s.fileHandle, ∀ c ∈ b.fs.content s.newBoxName,
    (b.fs.openFileTable.cell i).ofOffset = c.length ∧ c.length + (message.strlen + 1) ≤ b.fs.blockSize

/-- When a publisher stores a message, every subscriber session on its box has sampled `last_size` and taken the last
message; and the message is not empty, and stored whole. -/
def TakenBefore (b : Broker) : Event → Prop
  | .publish w => match b.phase w with
    | .pubWriting s message => b.fs.HasRoom s.fileHandle → ∀ v < b.numThreads, ∀ t ∈ (b.phase v).awaiting,
        t.newBoxName = s.newBoxName ∨ t.boxData = s.boxData →
          (t.newBoxName = s.newBoxName ∧ t.boxData = s.boxData) ∧ (b.phase v).lastSize = b.sizeAt s.boxData ∧
            0 < message.strlen ∧ StoredWhole b s message
    | _ => True
  | _ => True

instance (b : Broker) (s : Session) (message : CString) : Decidable (StoredWhole b s message) := by
  unfold StoredWhole
  infer_instance

instance (b : Broker) : DecidablePred (TakenBefore b) := by
  intro e
  induction e using Event.casesOn with
  | publish w =>
      dsimp only [TakenBefore]
      induction b.phase w using Phase.casesOn with
      | pubWriting s message => infer_instance
      | _ => exact isTrue trivial
  | _ => exact isTrue trivial

/-- The box is not removed under a session either. -/
def KeepsDelivery (x : Broker × Feed) (e : Event) : Prop := NotRemoved x.1 e ∧ KeepsBoxes x.1 e ∧ TakenBefore x.1 e

instance (x : Broker × Feed) : DecidablePred (KeepsDelivery x) := fun e => by
  unfold KeepsDelivery
  infer_instance

/-! ## Sizes -/

/-- A step that stores nothing leaves the sizes of the boxes. -/
theorem Outcome.sizeAt (ho : Outcome b e b') (hnone : stored b e b' = none) {p : Nat} (hp : b.boxList.heap p ≠ none)
    (hp' : b'.boxList.heap p ≠ none) : b'.sizeAt p = b.sizeAt p := by
  have hset : ∀ {q : Nat} {box box' : BoxData}, b.boxList.heap q = some box → box'.boxSize = box.boxSize →
      ((b.boxList.setBox q box').heap p).map BoxData.boxSize = (b.boxList.heap p).map BoxData.boxSize := by
    intro q box box' hq hsize
    by_cases hpq : p = q
    · rw [hpq, BoxList.setBox_heap_same, hq]
      exact congrArg some hsize
    · rw [BoxList.setBox_heap_ne hpq]
  cases ho with
  | setPublishers hw hbox | resetPublishers hw hbox | countSubscriber hw hbox | uncountSubscriber hw hbox
  | sample hw hbox | publishFull hw hbox => exact hset hbox rfl
  | publish hw => cases (stored_publish hw).symm.trans hnone
  | @insert v name addr contents hw hfree =>
      have hne : p ≠ addr := by
        rintro rfl
        exact hp hfree
      simp only [Broker.sizeAt, Broker.setPhase, insertAtBeginning, Function.update_of_ne hne]
  | deleteBox hw hlock he =>
      cases BoxList.deleteBox_heap he p with
      | none _ hnew => exact absurd hnew hp'
      | freed _ hnew => exact absurd hnew hp'
      | same hsame =>
          obtain ⟨box, next, hold, hnew⟩ := hsame
          simp only [Broker.sizeAt, Broker.setPhase, hold, hnew]
          rfl
  | _ => rfl

/-! ## The invariant -/

/-- The bytes of its file that the session has not read. -/
def Unread (a : FileSystem) (s : Session) (l : List UInt8) : Prop :=
  ∃ i off : Nat, s.fileHandle = i ∧ a.handles i = some (s.newBoxName.tail.chars, off) ∧
    off ≤ (a.content s.newBoxName.tail.chars).length ∧ (a.content s.newBoxName.tail.chars).drop off = l

/-- The messages that the session has not taken, and their bytes: at most one, and none exactly if it waits. -/
inductive News (size : Option Nat) (last : Nat) : List CString → List UInt8 → Prop
  | none : size = some last → News size last [] []
  | one {m : CString} : size ≠ some last → m.strlen < sizeofFullBoxBuffer → News size last [m] (m.chars ++ [0])

/-- What is known of the worker `v`, if it has a subscriber session that follows its box. -/
inductive Tracks (b : Broker) (a : FileSystem) (f : Feed) (v : Nat) : Prop
  | away : (b.phase v).following = none → Tracks b a f v
  | starting {s} : b.phase v = .subRead s ∨ b.phase v = .subReplayed s → Unread a s [] → f.stored v = f.sent v →
      Tracks b a f v
  | waiting {s last news l} : b.phase v = .subWaiting s last → Unread a s l →
      News (b.sizeAt s.boxData) last news l → f.stored v = f.sent v ++ news → Tracks b a f v
  | sending {s last m news l} : b.phase v = .subSending s last → (b.fullBoxBuffer v).IsStr m.chars →
      m.strlen < sizeofFullBoxBuffer → Unread a s l → News (b.sizeAt s.boxData) last news l →
      f.stored v = f.sent v ++ m :: news → Tracks b a f v
  | ending {s} : b.phase v = .subEnding s → f.sent v <+: f.stored v → Tracks b a f v

variable {f f' : Feed} {s : Session}

theorem Phase.opened_of_following {p : Phase} (h : p.following = some s) :
    p.opened = some (s.newBoxName, s.fileHandle) ∧ p.boxData = some s.boxData := by
  cases p with
  | subRead t | subReplayed t | subWaiting t | subSending t | subEnding t =>
      cases h
      exact ⟨rfl, rfl⟩
  | _ => cases h

namespace Tracks

theorem exact (h : Tracks b a f v) (hv : (b.phase v).following = some s) : f.sent v <+: f.stored v ∧
    ∀ lastSize, (b.phase v).waitSize = some lastSize → b.sizeAt s.boxData = some lastSize → f.sent v = f.stored v := by
  cases h with
  | away hnone =>
      rw [hnone] at hv
      cases hv
  | starting _ _ hsame => exact ⟨by rw [hsame], fun _ _ _ => hsame.symm⟩
  | waiting hphase _ hnews hstored =>
      rw [hphase] at hv ⊢
      cases hv
      refine ⟨hstored ▸ List.prefix_append _ _, fun lastSize hwait hsize => ?_⟩
      cases hwait
      cases hnews with
      | none => rw [hstored, List.append_nil]
      | one hne => exact absurd hsize hne
  | sending hphase _ _ _ _ hstored =>
      refine ⟨hstored ▸ List.prefix_append _ _, fun lastSize hwait => ?_⟩
      rw [hphase] at hwait
      cases hwait
  | ending hphase hpre =>
      refine ⟨hpre, fun lastSize hwait => ?_⟩
      rw [hphase] at hwait
      cases hwait

/-- A step of another worker that leaves the session's file and box. -/
theorem frame (h : Tracks b a f v) (hphase : b'.phase v = b.phase v) (hbuf : b'.fullBoxBuffer v = b.fullBoxBuffer v)
    (hsize : ∀ s, (b.phase v).following = some s → b'.sizeAt s.boxData = b.sizeAt s.boxData)
    (hunread : ∀ s l, (b.phase v).following = some s → Unread a s l → Unread a' s l)
    (hstored : f'.stored v = f.stored v) (hsent : f'.sent v = f.sent v) : Tracks b' a' f' v := by
  cases h with
  | away hnone => exact .away (by rw [hphase]; exact hnone)
  | @starting s hs hun hsame =>
      have hfollow : (b.phase v).following = some s := by
        obtain hs | hs := hs <;>
          rw [hs] <;> rfl
      exact .starting (by rw [hphase]; exact hs) (hunread s _ hfollow hun) (by rw [hstored, hsent, hsame])
  | @waiting s last news l hs hun hnews hrest =>
      have hfollow : (b.phase v).following = some s := by rw [hs]; rfl
      refine .waiting (hphase.trans hs) (hunread s _ hfollow hun) ?_ (by rw [hstored, hsent, hrest])
      rw [hsize s hfollow]
      exact hnews
  | @sending s last m news l hs hstr hm hun hnews hrest =>
      have hfollow : (b.phase v).following = some s := by rw [hs]; rfl
      refine .sending (hphase.trans hs) (by rw [hbuf]; exact hstr) hm (hunread s _ hfollow hun) ?_
        (by rw [hstored, hsent, hrest])
      rw [hsize s hfollow]
      exact hnews
  | ending hs hpre => exact .ending (hphase.trans hs) (by rw [hstored, hsent]; exact hpre)

end Tracks

/-- The file grows at its end. -/
theorem Unread.append {l new : List UInt8} (h : Unread a s l)
    (hhandle : ∀ j : Nat, s.fileHandle = j → a'.handles j = a.handles j)
    (hcontent : a'.content s.newBoxName.tail.chars = a.content s.newBoxName.tail.chars ++ new) :
    Unread a' s (l ++ new) := by
  obtain ⟨i, off, hfh, hi, hle, hl⟩ := h
  refine ⟨i, off, hfh, (hhandle i hfh).trans hi, ?_, ?_⟩
  · rw [hcontent, List.length_append]
    exact Nat.le_add_right_of_le hle
  · rw [hcontent, List.drop_append_of_le_length hle, hl]

theorem Unread.congr {l : List UInt8} (h : Unread a s l)
    (hhandle : ∀ j : Nat, s.fileHandle = j → a'.handles j = a.handles j)
    (hcontent : a'.content s.newBoxName.tail.chars = a.content s.newBoxName.tail.chars) : Unread a' s l := by
  have h' := h.append hhandle (hcontent.trans (List.append_nil _).symm)
  rw [List.append_nil] at h'
  exact h'

theorem Unread.of_untouched {l : List UInt8} (h : Unread a s l) (hother : Untouched b w a a') (hvw : v ≠ w)
    (hv : (b.phase v).following = some s) : Unread a' s l := by
  have hopened := (Phase.opened_of_following hv).1
  have hsame : ∀ j : Nat, s.fileHandle = j → a'.handles j = a.handles j ∧
      a'.content s.newBoxName.tail.chars = a.content s.newBoxName.tail.chars := by
    intro j hj
    exact hother v s.newBoxName j hvw (by rw [hopened, hj])
  obtain ⟨i, -, hfh, -⟩ := id h
  exact h.congr (fun j hj => (hsame j hj).1) (hsame i hfh).2

/-! ## The state -/

structure Delivering (x : Broker × Feed) (L : Layout) (a : FileSystem) : Prop where
  files : Files x.1 L a
  fits : TextsFit x.1
  listed : BoxesListed x.1
  tracks : ∀ v, Tracks x.1 a x.2 v

theorem Broker.Started.delivering (h : b.Started) : Delivering (b, .empty) Layout.empty FileSystem.empty where
  files := h.files
  fits := h.textsFit
  listed := by
    refine ⟨[], ?_, fun v _ p hp => ?_⟩
    · rw [h.boxList]
      exact BoxList.empty_holds
    · rw [h.phase v] at hp
      cases hp
  tracks := fun v => .away (by rw [h.phase v]; rfl)

namespace Delivering

variable {x : Broker × Feed}

theorem allocated (hlisted : BoxesListed b) (hv : v < b.numThreads) (hs : (b.phase v).following = some s) :
    b.boxList.heap s.boxData ≠ none := by
  obtain ⟨ps, hholds, hin⟩ := hlisted
  obtain ⟨box, hbox⟩ := hholds.seg.allocated (hin v hv s.boxData (Phase.opened_of_following hs).2)
  rw [hbox]
  nofun

/-- The worker `w` goes on, and the other sessions find their files and boxes as they were. -/
theorem next (h : Delivering x L a) (hb : b₁.phase = x.1.phase) (hthreads : b₁.numThreads = x.1.numThreads)
    (hfiles : Files (b₁.setPhase w phase) L' a') (hfits : TextsFit (b₁.setPhase w phase))
    (hlisted : BoxesListed (b₁.setPhase w phase)) (hother : Untouched x.1 w a a')
    (hbuf : ∀ v, v ≠ w → b₁.fullBoxBuffer v = x.1.fullBoxBuffer v)
    (hsize : ∀ p, x.1.boxList.heap p ≠ none → (b₁.setPhase w phase).boxList.heap p ≠ none →
      (b₁.setPhase w phase).sizeAt p = x.1.sizeAt p)
    (hfeed : ∀ v, v ≠ w → f.stored v = x.2.stored v ∧ f.sent v = x.2.sent v)
    (hself : Tracks (b₁.setPhase w phase) a' f w) : Delivering (b₁.setPhase w phase, f) L' a' := by
  refine ⟨hfiles, hfits, hlisted, fun v => ?_⟩
  by_cases hvw : v = w
  · rw [hvw]
    exact hself
  · have hphase : (b₁.setPhase w phase).phase v = x.1.phase v := by
      simp only [Broker.setPhase_ne _ _ hvw, hb]
    refine (h.tracks v).frame hphase (hbuf v hvw) (fun s hs => ?_) (fun s l hs hl => hl.of_untouched hother hvw hs)
      (hfeed v hvw).1 (hfeed v hvw).2
    have hlt : v < x.1.numThreads := h.files.lt_of_opened (Phase.opened_of_following hs).1
    have hlt' : v < (b₁.setPhase w phase).numThreads := hlt.trans_eq hthreads.symm
    exact hsize s.boxData (allocated h.listed hlt hs) (allocated hlisted hlt' (by rw [hphase]; exact hs))

end Delivering

/-! ## The steps of a subscriber session -/

/-- A read of the whole block leaves nothing behind the offset. -/
theorem Unread.read {n : List UInt8} {i off : Nat} {data : List UInt8} (hn : s.newBoxName.tail.chars = n)
    (hfh : s.fileHandle = i) (hoff : off ≤ (a.content n).length) (hmax : (a.content n).length ≤ sizeofFullBoxBuffer)
    (hdata : data = ((a.content n).drop off).take sizeofFullBoxBuffer) :
    data = (a.content n).drop off ∧ Unread (a.setHandle i (some (n, off + data.length))) s [] := by
  have hall : ((a.content n).drop off).take sizeofFullBoxBuffer = (a.content n).drop off := by
    refine List.take_of_length_le ?_
    rw [List.length_drop]
    omega
  rw [hall] at hdata
  subst hn
  refine ⟨hdata, i, off + data.length, hfh, FileSystem.setHandle_same, ?_, ?_⟩
  · change _ ≤ (a.content _).length
    rw [hdata, List.length_drop]
    omega
  · change (a.content _).drop _ = []
    refine List.drop_eq_nil_of_le ?_
    rw [hdata, List.length_drop]
    omega

/-- The buffer starts with the message that was read. -/
theorem isStr_copy {buffer : Mem} {m : CString} :
    (buffer.copy 0 (Mem.ofList (m.chars ++ [0])) (m.chars ++ [0]).length).IsStr m.chars := by
  intro i hi
  have hlt : i < 0 + (m.chars ++ [0]).length := by
    rw [List.length_append, List.length_singleton]
    omega
  rw [Mem.copy_apply_of_mem (Nat.zero_le i) hlt, Nat.sub_zero, Mem.ofList]
  simp only [List.getD_eq_getElem?_getD]
  by_cases hend : i < m.chars.length
  · rw [List.getElem?_append_left hend]
  · have hlast : i = m.chars.length := by omega
    rw [hlast, List.getElem?_append_right (Nat.le_refl _), Nat.sub_self, List.getElem?_eq_none (Nat.le_refl _)]
    rfl

theorem firstMessage_of_isStr {buffer : Mem} {m : CString} (h : buffer.IsStr m.chars)
    (hm : m.strlen < sizeofFullBoxBuffer) : firstMessage buffer = m := by
  have hle : m.chars.length ≤ sizeofFullBoxBuffer - 1 := Nat.le_sub_one_of_lt hm
  have hchars := h.takeWhile_bytes m.noNul hle
  cases m
  simp only [firstMessage, removeFirstStringFromBuffer, removeStringsFromBuffer, CString.mk.injEq]
  exact hchars

namespace Tracks

variable {last : Nat}

theorem of_starting (h : Tracks b a f v) (hv : b.phase v = .subRead s ∨ b.phase v = .subReplayed s) :
    Unread a s [] ∧ f.stored v = f.sent v := by
  cases h with
  | starting hs hun hsame =>
      obtain hs | hs := hs <;> obtain hv | hv := hv <;>
        rw [hs] at hv <;> cases hv <;> exact ⟨hun, hsame⟩
  | away hs | waiting hs | sending hs | ending hs => obtain hv | hv := hv <;> rw [hv] at hs <;> cases hs

theorem of_waiting (h : Tracks b a f v) (hv : b.phase v = .subWaiting s last) :
    ∃ news l, Unread a s l ∧ News (b.sizeAt s.boxData) last news l ∧ f.stored v = f.sent v ++ news := by
  cases h with
  | waiting hs hun hnews hrest =>
      rw [hs] at hv
      cases hv
      exact ⟨_, _, hun, hnews, hrest⟩
  | starting hs => obtain hs | hs := hs <;> rw [hv] at hs <;> cases hs
  | away hs | sending hs | ending hs =>
      rw [hv] at hs
      cases hs

theorem of_sending (h : Tracks b a f v) (hv : b.phase v = .subSending s last) :
    ∃ m news l, (b.fullBoxBuffer v).IsStr m.chars ∧ m.strlen < sizeofFullBoxBuffer ∧ Unread a s l ∧
      News (b.sizeAt s.boxData) last news l ∧ f.stored v = f.sent v ++ m :: news := by
  cases h with
  | sending hs hstr hm hun hnews hrest =>
      rw [hs] at hv
      cases hv
      exact ⟨_, _, _, hstr, hm, hun, hnews, hrest⟩
  | starting hs => obtain hs | hs := hs <;> rw [hv] at hs <;> cases hs
  | away hs | waiting hs | ending hs =>
      rw [hv] at hs
      cases hs

end Tracks

namespace Delivering

variable {x : Broker × Feed} {last : Nat} {box : BoxData} {n : Int} {data : List UInt8} {fs : State}

/-- A `tfs_read` of a session takes all that it has not read. -/
theorem read (h : Delivering x L a) (phase : Phase) {old : Phase} (hb : b₁.phase = x.1.phase)
    (hthreads : b₁.numThreads = x.1.numThreads) (hfs : b₁.fs = fs) (hw : x.1.phase w = old)
    (hold : old.isIdle = false) (hf : old.opened = some (s.newBoxName, s.fileHandle))
    (he : Fs.tfsRead x.1.fs s.fileHandle sizeofFullBoxBuffer = .ok (n, data, fs)) (hn : 0 ≤ n)
    (hop : phase.opened = old.opened) :
    ∃ a', Files (b₁.setPhase w phase) L a' ∧ Untouched x.1 w a a' ∧ Unread a' s [] ∧ ∀ l, Unread a s l → data = l := by
  obtain ⟨i, off, hfh, hi, hdata, hfiles⟩ := h.files.read hb hthreads hfs hw hold hf he hn hop
  have hopened : (x.1.phase w).opened = some (s.newBoxName, (i : Int)) := by rw [hw, hf, hfh]
  obtain ⟨-, hmem, off', hi', hoff⟩ := h.files.handle hopened
  rw [hi] at hi'
  cases hi'
  have hmax : (a.content s.newBoxName.tail.chars).length ≤ sizeofFullBoxBuffer := by
    have hbs : x.1.fs.blockSize = sizeofFullBoxBuffer := by
      rw [State.blockSize, h.files.params]
      rfl
    rw [← hbs]
    exact h.files.view.content_le hmem
  obtain ⟨hall, hun⟩ := Unread.read rfl hfh hoff hmax hdata
  refine ⟨_, hfiles, h.files.untouched_of_own hopened, hun, ?_⟩
  rintro l ⟨j, off', hfh', hj, -, hl⟩
  obtain rfl : i = j := by omega
  rw [hi] at hj
  cases hj
  exact hall.trans hl

theorem plain (h : Delivering x L a) (hb : b₁.phase = x.1.phase) (hthreads : b₁.numThreads = x.1.numThreads)
    (hbuf : b₁.fullBoxBuffer = x.1.fullBoxBuffer) (hfiles : Files (b₁.setPhase w phase) L' a')
    (hfits : TextsFit (b₁.setPhase w phase)) (hlisted : BoxesListed (b₁.setPhase w phase))
    (hother : Untouched x.1 w a a')
    (hsize : ∀ p, x.1.boxList.heap p ≠ none → (b₁.setPhase w phase).boxList.heap p ≠ none →
      (b₁.setPhase w phase).sizeAt p = x.1.sizeAt p)
    (hnone : phase.following = none) : ∃ L a, Delivering (b₁.setPhase w phase, x.2) L a := by
  refine ⟨L', a', h.next hb hthreads hfiles hfits hlisted hother (fun _ _ => by rw [hbuf]) hsize
    (fun _ _ => ⟨rfl, rfl⟩) (.away ?_)⟩
  simp only [Broker.setPhase_self]
  exact hnone

theorem openBox (h : Delivering x L a) {old : Phase} {p : CString} {mode : Nat} {res : Int × State}
    (hmode : mode = 0 ∨ mode = tfsOAppend) (hw : x.1.phase w = old) (hold : old.isIdle = false)
    (hnone : old.opened = none) (he : Fs.tfsOpen x.1.fs (some p) mode = .ok res) (hop : phase.opened = some (p, res.1))
    (hfits : TextsFit ({ x.1 with fs := res.2 }.setPhase w phase))
    (hlisted : BoxesListed ({ x.1 with fs := res.2 }.setPhase w phase)) (hfollow : phase.following = none) :
    ∃ L a, Delivering ({ x.1 with fs := res.2 }.setPhase w phase, x.2) L a := by
  obtain ⟨-, hfiles⟩ | ⟨i, -, hi, hfiles⟩ := h.files.openBox phase hmode hw hold hnone he hop
  · exact h.plain rfl rfl rfl hfiles hfits hlisted .refl (fun _ _ _ => rfl) hfollow
  · exact h.plain rfl rfl rfl hfiles hfits hlisted (h.files.untouched_of_free hi) (fun _ _ _ => rfl) hfollow

/-- The first `tfs_read`: from here on the session follows its box. -/
theorem readBox (h : Delivering x L a) (hw : x.1.phase w = .subCounted s) (hb : b₁.phase = x.1.phase)
    (hthreads : b₁.numThreads = x.1.numThreads) (hfs : b₁.fs = fs) (hlist : b₁.boxList = x.1.boxList)
    (hbuf : ∀ v, v ≠ w → b₁.fullBoxBuffer v = x.1.fullBoxBuffer v)
    (he : Fs.tfsRead x.1.fs s.fileHandle sizeofFullBoxBuffer = .ok (n, data, fs)) (hn : 0 ≤ n)
    (hfits : TextsFit (b₁.setPhase w (.subRead s))) (hlisted : BoxesListed (b₁.setPhase w (.subRead s))) :
    ∃ L a, Delivering (b₁.setPhase w (.subRead s),
      ⟨Function.update x.2.stored w [], Function.update x.2.sent w []⟩) L a := by
  obtain ⟨a', hfiles, hother, hun, -⟩ := h.read (.subRead s) hb hthreads hfs hw rfl rfl he hn rfl
  refine ⟨L, a', h.next hb hthreads hfiles hfits hlisted hother hbuf (fun p _ _ => ?_)
    (fun v hv => ⟨Function.update_of_ne hv _ _, Function.update_of_ne hv _ _⟩) ?_⟩
  · simp only [Broker.sizeAt, Broker.setPhase, hlist]
  · exact .starting (Or.inl (Function.update_self _ _ _)) hun
      (by simp only [Function.update_self])

/-- A wake-up: there is one message, and the session takes it. -/
theorem wake (h : Delivering x L a) (hw : x.1.phase w = .subWaiting s last)
    (hbox : x.1.boxList.heap s.boxData = some box) (hne : box.boxSize ≠ last) (hb : b₁.phase = x.1.phase)
    (hthreads : b₁.numThreads = x.1.numThreads)
    (hfs : b₁.fs = fs) (hlist : b₁.boxList = x.1.boxList)
    (hbuf : b₁.fullBoxBuffer = Function.update x.1.fullBoxBuffer w
      ((x.1.fullBoxBuffer w).copy 0 (Mem.ofList data) data.length))
    (he : Fs.tfsRead x.1.fs s.fileHandle sizeofFullBoxBuffer = .ok (n, data, fs)) (hn : 0 ≤ n)
    (hfits : TextsFit (b₁.setPhase w (.subSending s box.boxSize)))
    (hlisted : BoxesListed (b₁.setPhase w (.subSending s box.boxSize))) :
    ∃ L a, Delivering (b₁.setPhase w (.subSending s box.boxSize), x.2) L a := by
  obtain ⟨news, l, hun, hnews, hrest⟩ := (h.tracks w).of_waiting hw
  obtain ⟨a', hfiles, hother, hun', hdata⟩ :=
    h.read (.subSending s box.boxSize) hb hthreads hfs hw rfl rfl he hn rfl
  obtain rfl := hdata l hun
  have hsize : ∀ p, (b₁.setPhase w (.subSending s box.boxSize)).sizeAt p = x.1.sizeAt p := fun p => by
    simp only [Broker.sizeAt, Broker.setPhase, hlist]
  have hold : x.1.sizeAt s.boxData = some box.boxSize := congrArg (Option.map BoxData.boxSize) hbox
  cases hnews with
  | none hsame =>
      rw [hold] at hsame
      cases hsame
      exact absurd rfl hne
  | one _ hm =>
      refine ⟨L, a', h.next hb hthreads hfiles hfits hlisted hother (fun v hv => ?_) (fun p _ _ => hsize p)
        (fun _ _ => ⟨rfl, rfl⟩) ?_⟩
      · rw [hbuf, Function.update_of_ne hv]
      · refine .sending (Function.update_self _ _ _) ?_ hm hun' (.none ((hsize _).trans hold)) hrest
        simp only [Broker.setPhase, hbuf, Function.update_self]
        exact isStr_copy

end Delivering

/-! ## The step of a publisher -/

theorem Phase.awaiting_or_ending {p : Phase} (h : p.following = some s) : p.awaiting = some s ∨ p = .subEnding s := by
  cases p with
  | subRead t | subReplayed t | subWaiting t | subSending t => exact Or.inl h
  | subEnding t =>
      cases h
      exact Or.inr rfl
  | _ => cases h

/-- A message is stored in the box of a session that has taken everything before it. -/
theorem Tracks.grow {m : CString} (h : Tracks b a f v) (hv : (b.phase v).awaiting = some s)
    (hlast : (b.phase v).lastSize = b.sizeAt s.boxData) (hbox : b.sizeAt s.boxData ≠ none)
    (hphase : b'.phase v = b.phase v) (hbuf : b'.fullBoxBuffer v = b.fullBoxBuffer v)
    (hsize : b'.sizeAt s.boxData ≠ b.sizeAt s.boxData) (hm : m.strlen < sizeofFullBoxBuffer)
    (hunread : ∀ l, Unread a s l → Unread a' s (l ++ (m.chars ++ [0]))) (hstored : f'.stored v = f.stored v ++ [m])
    (hsent : f'.sent v = f.sent v) : Tracks b' a' f' v := by
  cases h with
  | away hnone =>
      have hfollow : (b.phase v).following = some s := by
        cases hp : b.phase v <;> rw [hp] at hv <;> first | exact hv | cases hv
      rw [hnone] at hfollow
      cases hfollow
  | starting hs =>
      have hnone : (b.phase v).lastSize = none := by
        obtain hs | hs := hs <;>
          rw [hs] <;> rfl
      rw [hnone] at hlast
      exact absurd hlast.symm hbox
  | @waiting t last news l hs hun hnews hrest =>
      rw [hs] at hv hlast
      cases hv
      cases hnews with
      | one hne => exact absurd hlast.symm hne
      | none hsame =>
          refine .waiting (hphase.trans hs) (hunread _ hun) (.one (fun he => hsize (he.trans hsame.symm)) hm) ?_
          rw [hstored, hsent, hrest, List.append_nil]
  | @sending t last m' news l hs hstr hm' hun hnews hrest =>
      rw [hs] at hv hlast
      cases hv
      cases hnews with
      | one hne => exact absurd hlast.symm hne
      | none hsame =>
          refine .sending (hphase.trans hs) (by rw [hbuf]; exact hstr) hm' (hunread _ hun)
            (.one (fun he => hsize (he.trans hsame.symm)) hm) ?_
          rw [hstored, hsent, hrest, List.append_assoc]
          rfl
  | ending hs =>
      rw [hs] at hv
      cases hv

namespace Delivering

variable {x : Broker × Feed} {message : CString} {box : BoxData} {n : Int} {fs : State}

/-- The record after a message was stored. -/
def stores (f : Feed) (b : Broker) (s : Session) (message : CString) : Feed :=
  { f with stored := fun v =>
      if (b.phase v).following.any (·.newBoxName = s.newBoxName) then f.stored v ++ [message] else f.stored v }

theorem toSize_ne {size len : Nat} (hpos : 0 < len) (hlen : len < sizeofFullBoxBuffer) :
    toSize (size + len) ≠ size := by
  have hmax : sizeofFullBoxBuffer = 1024 := rfl
  unfold toSize
  omega

/-- The message that is stored whole lies behind what there was. -/
theorem stored_whole (h : Delivering x L a) (hw : x.1.phase w = .pubWriting s message)
    (hroom : x.1.fs.HasRoom s.fileHandle) (hwhole : StoredWhole x.1 s message) {i off : Nat} (hfh : s.fileHandle = i)
    (hi : a.handles i = some (s.newBoxName.tail.chars, off)) :
    message.strlen < sizeofFullBoxBuffer ∧ overwrite (a.content s.newBoxName.tail.chars) off
      (message.mem.bytes (min (message.strlen + 1) (x.1.fs.blockSize - off))) =
        a.content s.newBoxName.tail.chars ++ (message.chars ++ [0]) := by
  obtain ⟨j, hj, -⟩ := hroom
  obtain rfl : j = i := by
    have hfh' := (getOpenFileEntry_eq_some.mp hj).1
    omega
  obtain ⟨hvalid, hmem, -⟩ := h.files.handle (v := w) (p := s.newBoxName) (i := j) (by rw [hw, ← hfh]; rfl)
  have hcontent : x.1.fs.content s.newBoxName = some (a.content s.newBoxName.tail.chars) := by
    rw [h.files.view.content_eq, if_pos ⟨hvalid, hmem⟩]
  obtain ⟨hend, hfit⟩ := hwhole j hj _ hcontent
  obtain ⟨-, hcell, -, -⟩ := h.files.view.entry hi
  rw [hcell] at hend
  have hoff : off = (a.content s.newBoxName.tail.chars).length := hend
  have hbs : x.1.fs.blockSize = sizeofFullBoxBuffer := by
    rw [State.blockSize, h.files.params]
    rfl
  refine ⟨by omega, ?_⟩
  rw [Nat.min_eq_left (by omega), CString.bytes_mem, hoff, overwrite_at_end]

/-- The session of another worker after a message was stored: it is on its box, or ends, or is on another box. -/
theorem tracks_publish (h : Delivering x L a) (hw : x.1.phase w = .pubWriting s message)
    (hbox : x.1.boxList.heap s.boxData = some box) (hroom : x.1.fs.HasRoom s.fileHandle)
    (htaken : TakenBefore x.1 (.publish w)) (hb : b₁ = ({ x.1 with fs := fs } : Broker).setBox s.boxData
      { box with boxSize := toSize (box.boxSize + message.strlen) }) {i off : Nat} (hfh : s.fileHandle = i)
    (hi : a.handles i = some (s.newBoxName.tail.chars, off))
    (ha' : a' = (a.setContent s.newBoxName.tail.chars (overwrite (a.content s.newBoxName.tail.chars) off
      (message.mem.bytes (min (message.strlen + 1) (x.1.fs.blockSize - off))))).setHandle i
        (some (s.newBoxName.tail.chars, off + min (message.strlen + 1) (x.1.fs.blockSize - off))))
    (hvw : v ≠ w) {t : Session} (hfollow : (x.1.phase v).following = some t) :
    Tracks (b₁.setPhase w (.pubReading s)) a' (stores x.2 x.1 s message) v := by
  obtain ⟨b', hb'⟩ : ∃ b', b' = b₁.setPhase w (.pubReading s) := ⟨_, rfl⟩
  rw [← hb']
  have hphase : b'.phase v = x.1.phase v := by
    rw [hb', hb]
    exact Function.update_of_ne hvw _ _
  have hbuf : b'.fullBoxBuffer v = x.1.fullBoxBuffer v := by
    rw [hb', hb]
    rfl
  have hlist : b'.boxList =
      x.1.boxList.setBox s.boxData { box with boxSize := toSize (box.boxSize + message.strlen) } := by
    rw [hb', hb]
    rfl
  have hstores : (stores x.2 x.1 s message).stored v =
      if t.newBoxName = s.newBoxName then x.2.stored v ++ [message] else x.2.stored v := by
    simp [stores, hfollow]
  have hopened := (Phase.opened_of_following hfollow).1
  have hown : (x.1.phase w).opened = some (s.newBoxName, (i : Int)) := by
    rw [hw, ← hfh]
    rfl
  have hhandle : ∀ j : Nat, t.fileHandle = j → a'.handles j = a.handles j := by
    intro j hj
    rw [hj] at hopened
    rw [ha']
    refine FileSystem.setHandle_ne ?_
    rintro rfl
    exact hvw (h.files.apart v w _ _ j hopened hown)
  by_cases hrel : t.newBoxName = s.newBoxName ∨ t.boxData = s.boxData
  · simp only [TakenBefore, hw] at htaken
    obtain hawait | hending := Phase.awaiting_or_ending hfollow
    · obtain ⟨⟨hname, hdata⟩, hlast, hpos, hwhole⟩ := htaken hroom v (h.files.lt_of_opened hopened) t hawait hrel
      obtain ⟨hshort, hgrown⟩ := h.stored_whole hw hroom hwhole hfh hi
      have hold : x.1.sizeAt t.boxData = some box.boxSize := by
        rw [hdata, Broker.sizeAt, hbox]
        rfl
      have hnew : b'.sizeAt t.boxData = some (toSize (box.boxSize + message.strlen)) := by
        rw [hdata, Broker.sizeAt, hlist, BoxList.setBox_heap_same]
        rfl
      have hother : b'.sizeAt t.boxData ≠ x.1.sizeAt t.boxData := by
        rw [hold, hnew]
        exact fun he => toSize_ne hpos hshort (Option.some.inj he)
      have hcontent : a'.content t.newBoxName.tail.chars =
          a.content t.newBoxName.tail.chars ++ (message.chars ++ [0]) := by
        rw [ha', hname]
        exact (Function.update_self _ _ _).trans hgrown
      exact (h.tracks v).grow hawait (by rw [hlast, hdata]) (by rw [hold]; exact Option.some_ne_none _) hphase hbuf
        hother hshort (fun l hl => hl.append hhandle hcontent) (by rw [hstores, if_pos hname]) rfl
    · refine .ending (hphase.trans hending) (((h.tracks v).exact hfollow).1.trans ?_)
      rw [hstores]
      split
      · exact List.prefix_append _ _
      · exact List.prefix_refl _
  · rw [not_or] at hrel
    refine (h.tracks v).frame hphase hbuf (fun u hu => ?_) (fun u l hu hl => ?_)
      (by rw [hstores, if_neg hrel.1]) rfl
    · rw [hfollow] at hu
      cases hu
      rw [Broker.sizeAt, hlist, BoxList.setBox_heap_ne hrel.2]
      rfl
    · rw [hfollow] at hu
      cases hu
      refine hl.congr hhandle ?_
      obtain ⟨j, off', hj, -⟩ := hl
      rw [hj] at hopened
      rw [ha']
      exact Function.update_of_ne (h.files.tail_ne hopened hown hrel.1) _ _

theorem publish (h : Delivering x L a) (hw : x.1.phase w = .pubWriting s message)
    (hbox : x.1.boxList.heap s.boxData = some box)
    (he : Fs.tfsWrite x.1.fs s.fileHandle message.mem (message.strlen + 1) = .ok (n, fs)) (hn : 0 < n)
    (htaken : TakenBefore x.1 (.publish w)) (hb : b₁ = ({ x.1 with fs := fs } : Broker).setBox s.boxData
      { box with boxSize := toSize (box.boxSize + message.strlen) })
    (hfits : TextsFit (b₁.setPhase w (.pubReading s))) (hlisted : BoxesListed (b₁.setPhase w (.pubReading s))) :
    ∃ L a, Delivering (b₁.setPhase w (.pubReading s), stores x.2 x.1 s message) L a := by
  have hphases : b₁.phase = x.1.phase := by
    rw [hb]
    rfl
  have htext : message.strlen ≤ 1024 := h.fits w message (by rw [hw]; rfl)
  have hroom := (h.files.view.inv.tfsWrite_pos_iff (Nat.succ_pos _) he).mp hn
  obtain ⟨hr, -⟩ | ⟨-, i, off, hfh, hi, -, hfiles⟩ :=
    h.files.write (.pubReading s) hphases (by rw [hb]; rfl) (by rw [hb]; rfl) hw rfl rfl (by omega) he rfl
  · have hr : n ≤ 0 := hr
    omega
  refine ⟨L, _, hfiles, hfits, hlisted, fun v => ?_⟩
  by_cases hvw : v = w
  · refine .away ?_
    simp only [Broker.setPhase, hvw, Function.update_self]
    rfl
  cases hfollow : (x.1.phase v).following with
  | none =>
      refine .away ?_
      simp only [Broker.setPhase_ne _ _ hvw, hphases]
      exact hfollow
  | some t => exact h.tracks_publish hw hbox hroom htaken hb hfh hi rfl hvw hfollow

end Delivering

theorem Phase.following_eq_none {p : Phase} (h : p.opened = none) : p.following = none := by
  cases p with
  | subRead | subReplayed | subWaiting | subSending | subEnding => cases h
  | _ => rfl

namespace Delivering

variable {x : Broker × Feed}

theorem step (h : Delivering x L a) (hg : KeepsDelivery x e) (ho : Outcome x.1 e b') :
    ∃ L a, Delivering (b', feed x.2 x.1 e b') L a := by
  obtain ⟨hremoved, hkeeps, htaken⟩ := hg
  have hlisted := (ho.boxesListed_iff h.listed).mpr hkeeps
  have hfits := ho.textsFit h.fits
  have hsize : stored x.1 e b' = none → ∀ p, x.1.boxList.heap p ≠ none → b'.boxList.heap p ≠ none →
      b'.sizeAt p = x.1.sizeAt p := fun hnone p => ho.sizeAt hnone
  cases ho with
  | take hw hlt hd =>
      exact h.plain rfl rfl rfl (h.files.keep rfl rfl hlt hw (Phase.start_opened _) h.files.view rfl fun _ => rfl) hfits
        hlisted .refl (hsize rfl) (Phase.following_eq_none (Phase.start_opened _))
  | openPub hw he => exact h.openBox (Or.inr rfl) hw rfl rfl he rfl hfits hlisted rfl
  | openSub hw he => exact h.openBox (Or.inl rfl) hw rfl rfl he rfl hfits hlisted rfl
  | @openCreate w name fh fs hw he =>
      have hop : (if fh = -1 then Phase.responding createError else .created name).opened = none := by
        split <;> rfl
      obtain ⟨L', a', hfiles, hother, -⟩ := h.files.createBox hw rfl rfl he hop
      exact h.plain rfl rfl rfl hfiles hfits hlisted hother (hsize rfl) (Phase.following_eq_none hop)
  | @tfsUnlink w name r fs hw he =>
      have hop : (if r = -1 then Phase.responding removeError else .removed name).opened = none := by
        split <;> rfl
      obtain ⟨L', a', hfiles, hother, -⟩ := h.files.removeBox hw hremoved he hop
      exact h.plain rfl rfl rfl hfiles hfits hlisted hother (hsize rfl) (Phase.following_eq_none hop)
  | readBox hw he hn =>
      exact h.readBox hw rfl rfl rfl rfl (fun v hv => Function.update_of_ne hv _ _) he hn hfits hlisted
  | @replay w s hw =>
      obtain ⟨hun, hsame⟩ := (h.tracks w).of_starting (Or.inl hw)
      refine ⟨L, a, h.next rfl rfl (h.files.quiet rfl rfl rfl hw rfl rfl) hfits hlisted .refl (fun _ _ => rfl)
        (hsize rfl) (fun _ _ => ⟨rfl, rfl⟩) ?_⟩
      exact .starting (Or.inr (Function.update_self _ _ _)) hun hsame
  | @sample w s box hw hbox =>
      obtain ⟨hun, hsame⟩ := (h.tracks w).of_starting (Or.inr hw)
      refine ⟨L, a, h.next rfl rfl (h.files.quiet rfl rfl rfl hw rfl rfl) hfits hlisted .refl (fun _ _ => rfl)
        (hsize rfl) (fun _ _ => ⟨rfl, rfl⟩) ?_⟩
      refine .waiting (Function.update_self _ _ _) hun (.none ?_) (hsame.trans (List.append_nil _).symm)
      exact congrArg (Option.map BoxData.boxSize) BoxList.setBox_heap_same
  | wake hw hbox hlock hne he hn => exact h.wake hw hbox hne rfl rfl rfl rfl rfl he hn hfits hlisted
  | @send w s last hw =>
      obtain ⟨m, news, l, hstr, hm, hun, hnews, hrest⟩ := (h.tracks w).of_sending hw
      refine ⟨L, a, h.next rfl rfl (h.files.quiet rfl rfl rfl hw rfl rfl) hfits hlisted .refl (fun _ _ => rfl)
        (hsize rfl) (fun v hv => ⟨rfl, Function.update_of_ne hv _ _⟩) ?_⟩
      refine .waiting (Function.update_self _ _ _) hun hnews ?_
      change x.2.stored w = Function.update x.2.sent w (x.2.sent w ++ messagesSent x.1 _ w) w ++ news
      rw [Function.update_self, messagesSent_write, hrest, List.append_assoc, firstMessage_of_isStr hstr hm]
      rfl
  | @sendFailed w s last hw =>
      obtain ⟨m, news, l, hstr, hm, hun, hnews, hrest⟩ := (h.tracks w).of_sending hw
      refine ⟨L, a, h.next rfl rfl (h.files.quiet rfl rfl rfl hw rfl rfl) hfits hlisted .refl (fun _ _ => rfl)
        (hsize rfl) (fun v hv => ⟨rfl, Function.update_of_ne hv _ _⟩) ?_⟩
      refine .ending (Function.update_self _ _ _) ?_
      change Function.update x.2.sent w (x.2.sent w ++ messagesSent x.1 _ w) w <+: x.2.stored w
      rw [Function.update_self, messagesSent_setPhase, hrest, List.append_nil]
      exact List.prefix_append _ _
  | @publish w s message box n fs hw hbox hlock he hn =>
      obtain ⟨b₁, hb⟩ : ∃ b₁, b₁ = ({ x.1 with fs := fs } : Broker).setBox s.boxData
        { box with boxSize := toSize (box.boxSize + message.strlen) } := ⟨_, rfl⟩
      rw [← hb] at hfits hlisted ⊢
      have hfeed : feed x.2 x.1 (.publish w) (b₁.setPhase w (.pubReading s)) = stores x.2 x.1 s message := by
        simp only [feed, stored_publish hw]
        rfl
      rw [hfeed]
      exact h.publish hw hbox he hn htaken hb hfits hlisted
  | @publishFull w s message box n fs hw hbox hlock he hn =>
      obtain ⟨b₁, hb⟩ : ∃ b₁, b₁ = ({ x.1 with fs := fs } : Broker).setBox s.boxData
        { box with boxCondvarLock := true } := ⟨_, rfl⟩
      rw [← hb] at hfits hlisted hsize ⊢
      have hstored : stored x.1 (.publish w) (b₁.setPhase w (.pubEnding s)) = none := stored_publishFull hw
      have hfeed : feed x.2 x.1 (.publish w) (b₁.setPhase w (.pubEnding s)) = x.2 := by
        simp only [feed, hstored]
      have htext : message.strlen ≤ 1024 := h.fits w message (by rw [hw]; rfl)
      have hphases : b₁.phase = x.1.phase := by
        rw [hb]
        rfl
      have hthreads : b₁.numThreads = x.1.numThreads := by
        rw [hb]
        rfl
      rw [hfeed]
      obtain ⟨-, hfiles⟩ | ⟨hpos, -⟩ := h.files.write (.pubEnding s) hphases hthreads (by rw [hb]; rfl) hw rfl rfl
        (by omega) he rfl
      · exact h.plain hphases hthreads (by rw [hb]; rfl) hfiles hfits hlisted .refl (hsize hstored) rfl
      · have hpos : 0 < n := hpos
        omega
  | refusePub hw | refuseSub hw | resetPublishers hw | uncountSubscriber hw =>
      refine h.plain rfl rfl rfl (h.files.finish rfl rfl rfl hw rfl rfl) hfits hlisted ?_ (hsize rfl) rfl
      rw [← hw]
      exact h.files.untouched_release
  | _ =>
      exact h.plain (by rfl) (by rfl) (by rfl)
        (h.files.quiet (by rfl) (by rfl) (by rfl) (by assumption) (by rfl) (by rfl)) hfits hlisted .refl
        (hsize (by rfl)) (by rfl)

theorem exactDelivery (h : Delivering x L a) : ExactDelivery x := fun v _ hv => (h.tracks v).exact hv

end Delivering

end Mbroker.Sessions
