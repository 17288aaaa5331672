import Mbroker.Sessions.Accounts
import Mbroker.Sessions.Boxes
import Mbroker.Sessions.Delivery
import Mbroker.Sessions.Handles
import Mbroker.Sessions.Listing
import Mbroker.Sessions.Locks
import Mbroker.Sessions.Names
import Mbroker.Sessions.Publishers
import Mbroker.Sessions.Replay
import Mbroker.Sessions.Stores

/-!
# The broker's sessions

What holds in every run of the broker, from its start, for any number of workers and any order of their steps.
-/

namespace Mbroker.Sessions

open Mbroker.Lib Mbroker.Fs Mbroker.Protocol

variable {b b' : Broker} {es : List Event}

/-! ## Handles -/

/-- The open handles are those of the sessions in progress, and a handle is left for another session, exactly
in the runs in which no box is created. -/
theorem handles_given_back (h : b.Started) (hrun : Steps Step b es b') :
    (HandlesMatch b' ∧ HandleLeft b') ↔ Steps (Guarded CreatesNothing Step) b es b' :=
  hrun.iff_guarded (P := fun b => HandlesMatch b ∧ HandleLeft b) (fun _ _ _ h hg hs => h.step hg hs.outcome)
    (fun _ _ _ h hg hs => h.orphan hg hs.outcome)
    (fun _ _ _ h hs => h.step hs.outcome) (fun _ h => ⟨h.handlesMatch, h.handleLeft⟩)
    (fun _ h hP => h.not_match hP.1) h.fresh

/-- A creation with an empty name, and a publisher of a box that does not exist. -/
def refusedRequests : List Event :=
  [.take 0 (.request ⟨3, ascii "pipe", ascii ""⟩), .tfsOpen 0, .respond 0,
    .take 0 (.request ⟨1, ascii "pipe", ascii "box"⟩), .tfsOpen 0, .findBox 0, .test 0]

theorem handles_given_back_refused :
    ∃ b', Steps Step (Broker.start 1) refusedRequests b' ∧ HandlesMatch b' ∧ HandleLeft b' := by
  obtain ⟨b', hrun, -⟩ := exists_guarded CreatesNothing (fun _ => True) Step.of_step (Broker.start 1) refusedRequests
    (by decide +kernel)
  have hsteps := hrun.mono fun _ _ _ hs => hs.2
  exact ⟨b', hsteps, (handles_given_back (Broker.start_started 1) hsteps).mpr hrun⟩

/-- A box is created, and fifteen publishers come and go without a message. -/
def silentPublishers : List Event :=
  [.take 0 (.request ⟨3, ascii "pipe", ascii "box"⟩), .tfsOpen 0, .insert 0 0 (fun _ => 0), .respond 0] ++
    (List.replicate 15 [.take 0 (.request ⟨1, ascii "pipe", ascii "box"⟩), .tfsOpen 0, .findBox 0, .test 0,
      .setPublishers 0, .readProbe 0, .readEnd 0, .resetPublishers 0]).flatten

/-- No session is in progress then, and no handle is left. -/
theorem handles_lost :
    ∃ b', Steps Step (Broker.start 1) silentPublishers b' ∧ ¬ HandlesMatch b' ∧ ¬ HandleLeft b' := by
  obtain ⟨b', hrun, hopen, hleft⟩ := exists_steps (fun b' => b'.fs.IsOpen 0 ∧ ¬ HandleLeft b')
    Step.of_step (Broker.start 1) silentPublishers (by decide +kernel)
  obtain ⟨hfresh, -⟩ | horphan := (Broker.start_started 1).fresh.run hrun
  · exact absurd hopen (hfresh.closed 0)
  · exact ⟨b', hrun, horphan.not_match, hleft⟩

/-! ## The two stores -/

/-- Requests handled one at a time: whenever none is being handled, the list of boxes and the directory have the
same names, if every creation got a handle exactly for a file that it made. -/
theorem stores_agree (h : b.Started)
    (hrun : Steps (Guarded (fun b e => OneByOne b e ∧ CreatesBox b e) Step) b es b') (hidle : b'.AllIdle) :
    StoresAgree b' := by
  have halone : ∃ w L ps ns, Alone b' w L ps ns := by
    refine hrun.invariant (I := fun b => ∃ w L ps ns, Alone b w L ps ns) ?_ ⟨_, _, _, _, h.alone⟩
    rintro b e b' ⟨w, L, ps, ns, hb⟩ ⟨⟨hone, hg⟩, hs⟩
    exact hb.step hone hg hs.outcome
  obtain ⟨w, L, ps, ns, hb⟩ := halone
  exact hb.storesAgree hidle

/-- A creation by the worker `w`, with the box at `addr`. -/
def creation (w addr : Nat) (boxName : CString) : List Event :=
  [.take w (.request ⟨3, ascii "pipe", boxName⟩), .tfsOpen w, .insert w addr (fun _ => 0), .respond w]

/-- A box is created, gets a message, is removed, and is created anew. -/
def recreation : List Event :=
  creation 0 0 (ascii "box") ++
    [.take 0 (.request ⟨1, ascii "pipe", ascii "box"⟩), .tfsOpen 0, .findBox 0, .test 0, .setPublishers 0,
      .readProbe 0, .readMessage 0 (ascii "text"), .publish 0, .readEnd 0, .resetPublishers 0,
      .take 0 (.request ⟨5, ascii "pipe", ascii "box"⟩), .tfsUnlink 0, .deleteBox 0, .respond 0] ++
    creation 0 7 (ascii "box")

theorem stores_agree_anew :
    ∃ b', Steps Step (Broker.start 1) recreation b' ∧ b'.AllIdle ∧ StoresAgree b' := by
  obtain ⟨b', hrun, hidle⟩ := exists_guarded (fun b e => OneByOne b e ∧ CreatesBox b e) (fun b' => b'.AllIdle)
    Step.of_step (Broker.start 1) recreation (by decide +kernel)
  exact ⟨b', hrun.mono fun _ _ _ hs => hs.2, hidle, stores_agree (Broker.start_started 1) hrun hidle⟩

/-- A box is created twice, and stands in the list twice. -/
theorem stores_differ : ∃ b', Steps (Guarded OneByOne Step) (Broker.start 1)
    (creation 0 0 (ascii "box") ++ creation 0 7 (ascii "box")) b' ∧ b'.AllIdle ∧ ¬ StoresAgree b' := by
  obtain ⟨b', hrun, hidle, hdup⟩ := exists_guarded OneByOne (fun b' => b'.AllIdle ∧ ¬ b'.boxList.boxNames.Nodup)
    Step.of_step (Broker.start 1) (creation 0 0 (ascii "box") ++ creation 0 7 (ascii "box")) (by decide +kernel)
  exact ⟨b', hrun, hidle, fun hagree => hdup hagree.2.1⟩

/-! ## The contents of a box -/

/-- A publisher's write leaves what is stored as it was, in every file, if no session writes after another one has
stored a message in its box since its `tfs_open`. -/
theorem boxes_append_only {x x' : Broker × (Nat → Bool)} {w : Nat} {p : CString} {c : List UInt8} (h : b.Started)
    (hrun : Steps (Guarded InDate DatedStep) (b, fun _ => false) es x)
    (hs : Guarded InDate DatedStep x (.publish w) x') (hc : x.1.fs.content p = some c) :
    ∃ c', x'.1.fs.content p = some c' ∧ c <+: c' := by
  obtain ⟨htexts, L, a, hx⟩ := AtEnd.steps hrun h
  obtain ⟨ho, hdate⟩ := hs.2.outcome
  obtain ⟨a', hx', heffect⟩ := hx.publish htexts hs.1.2 ho
  obtain ⟨hnames, hcontent⟩ := heffect.publish_prefix
  rw [hx.files.view.content_eq] at hc
  split at hc
  · rename_i hand
    cases hc
    rw [hx'.files.view.content_eq, hnames, if_pos hand]
    exact ⟨_, rfl, hcontent _⟩
  · cases hc

/-- The steps of a publisher of "box" as far as its first message. -/
def publishing (w : Nat) (message : CString) : List Event :=
  [.findBox w, .test w, .setPublishers w, .readProbe w, .readMessage w message]

/-- A box is created, one publisher stores a message and leaves, and the next one has read its own. -/
def publishersInTurn : List Event :=
  creation 0 0 (ascii "box") ++ [.take 0 (.request ⟨1, ascii "pipe", ascii "box"⟩), .tfsOpen 0] ++
    publishing 0 (ascii "one") ++ [.publish 0, .readEnd 0, .resetPublishers 0] ++
    [.take 1 (.request ⟨1, ascii "pipe", ascii "box"⟩), .tfsOpen 1] ++ publishing 1 (ascii "two")

theorem boxes_append_only_in_turn : ∃ x x', Steps (Guarded InDate DatedStep) (Broker.start 2, fun _ => false)
    publishersInTurn x ∧ Guarded InDate DatedStep x (.publish 1) x' ∧
    x.1.fs.content (ascii "/box") = some ((ascii "one").chars ++ [0]) ∧
    ∃ c', x'.1.fs.content (ascii "/box") = some c' ∧ (ascii "one").chars ++ [0] <+: c' := by
  obtain ⟨x, hrun, hc, hg, hstep⟩ := exists_guarded InDate (fun x =>
    x.1.fs.content (ascii "/box") = some ((ascii "one").chars ++ [0]) ∧ InDate x (.publish 1) ∧
      (datedStep x (.publish 1)).isSome = true) DatedStep.of_datedStep (Broker.start 2, fun _ => false) publishersInTurn
    (by decide +kernel)
  obtain ⟨x', hx'⟩ := Option.isSome_iff_exists.mp hstep
  exact ⟨x, x', hrun, ⟨hg, hx'⟩, hc, boxes_append_only (Broker.start_started 2) hrun ⟨hg, hx'⟩ hc⟩

/-- Two publishers open the box before either is accepted; they are accepted and write one after the other. -/
def publishersTogether : List Event :=
  creation 0 0 (ascii "box") ++
    [.take 0 (.request ⟨1, ascii "pipe", ascii "box"⟩), .take 1 (.request ⟨1, ascii "pipe", ascii "box"⟩),
      .tfsOpen 0, .tfsOpen 1] ++
    publishing 0 (ascii "one") ++ [.publish 0, .readEnd 0, .resetPublishers 0] ++ publishing 1 (ascii "two")

/-- The message of the first one is overwritten. -/
theorem boxes_overwritten : ∃ b b', Steps Step (Broker.start 2) publishersTogether b ∧ Step b (.publish 1) b' ∧
    b.fs.content (ascii "/box") = some ((ascii "one").chars ++ [0]) ∧
    b'.fs.content (ascii "/box") = some ((ascii "two").chars ++ [0]) ∧
    ¬ (ascii "one").chars ++ [0] <+: (ascii "two").chars ++ [0] := by
  obtain ⟨b, hrun, hc, hstep⟩ := exists_steps (fun b =>
    b.fs.content (ascii "/box") = some ((ascii "one").chars ++ [0]) ∧
      ∃ b' ∈ step b (.publish 1), b'.fs.content (ascii "/box") = some ((ascii "two").chars ++ [0])) Step.of_step
    (Broker.start 2) publishersTogether (by decide +kernel)
  obtain ⟨b', hb', hc'⟩ := hstep
  exact ⟨b, b', hrun, hb', hc, hc', by decide⟩

/-! ## The locks of the boxes -/

/-- Every lock is given back, in every state that is reached, exactly in the runs in which no message is written
when there is no room for any of it. -/
theorem locks_given_back (h : b.Started) :
    Steps (fun b e b' => Step b e b' ∧ LocksFree b'.boxList) b es b' ↔ Steps (Guarded RoomLeft Step) b es b' := by
  refine Steps.always_iff (I := fun b : Broker => (∃ L, FsInv b.fs L) ∧ LocksFree b.boxList)
    (P := fun b : Broker => LocksFree b.boxList) ?_ ?_ ⟨⟨_, h.initialised.inv⟩, ?_⟩
  · rintro b e b' ⟨⟨L, hI⟩, hfree⟩ hg hs
    exact ⟨hs.outcome.fsInv ⟨L, hI⟩, (hs.outcome.locksFree_iff hI hfree).mpr hg⟩
  · rintro b e b' ⟨⟨L, hI⟩, hfree⟩ hs
    exact hs.outcome.locksFree_iff hI hfree
  · rw [h.boxList]
    nofun

theorem locks_given_back_in_turn : ∃ b', Steps (fun b e b' => Step b e b' ∧ LocksFree b'.boxList) (Broker.start 2)
    publishersInTurn b' := by
  obtain ⟨b', hrun, -⟩ := exists_guarded RoomLeft (fun _ => True) Step.of_step (Broker.start 2) publishersInTurn
    (by decide +kernel)
  exact ⟨b', (locks_given_back (Broker.start_started 2)).mpr hrun⟩

/-- A text that fills a box with its NUL. -/
def longText : CString := ⟨List.replicate 1023 97, fun h => absurd (List.eq_of_mem_replicate h) (by decide)⟩

/-- A publisher fills a box, and goes on to the next message; another one comes after it. -/
def fullBox : List Event :=
  creation 0 0 (ascii "box") ++ [.take 0 (.request ⟨1, ascii "pipe", ascii "box"⟩), .tfsOpen 0] ++
    publishing 0 longText ++ [.publish 0, .readMessage 0 (ascii "one"), .publish 0, .resetPublishers 0,
      .take 0 (.request ⟨1, ascii "pipe", ascii "box"⟩), .tfsOpen 0] ++ publishing 0 (ascii "two")

/-- The first one has left the lock taken, and the other one waits for it for ever. -/
theorem lock_kept : ∃ b', Steps Step (Broker.start 1) fullBox b' ∧ ¬ LocksFree b'.boxList ∧
    step b' (.publish 0) = none := by
  obtain ⟨b', hrun, ⟨box, hbox, hlock⟩, hnone⟩ := exists_steps (fun b' =>
    (∃ box ∈ b'.boxList.heap 0, box.boxCondvarLock = true) ∧ (step b' (.publish 0)).isNone = true)
    Step.of_step (Broker.start 1) fullBox (by decide +kernel)
  refine ⟨b', hrun, fun hfree => ?_, Option.isNone_iff_eq_none.mp hnone⟩
  rw [hfree 0 box hbox] at hlock
  cases hlock

/-! ## The boxes of the sessions -/

/-- The box of every session in progress is in the list, in every state that is reached, exactly in the runs in which
no removal takes out the box of a session in progress. -/
theorem boxes_outlive_sessions (h : b.Started) :
    Steps (fun b e b' => Step b e b' ∧ BoxesListed b') b es b' ↔ Steps (Guarded KeepsBoxes Step) b es b' := by
  refine Steps.always_iff (I := BoxesListed) (fun b e b' hb hg hs => (hs.outcome.boxesListed_iff hb).mpr hg)
    (fun b e b' hb hs => hs.outcome.boxesListed_iff hb) ⟨[], ?_, fun v _ p hp => ?_⟩
  · rw [h.boxList]
    exact BoxList.empty_holds
  · rw [h.phase v] at hp
    cases hp

/-- A box is removed when its publisher has gone. -/
theorem boxes_outlive_sessions_anew :
    ∃ b', Steps (fun b e b' => Step b e b' ∧ BoxesListed b') (Broker.start 1) recreation b' := by
  obtain ⟨b', hrun, -⟩ := exists_guarded KeepsBoxes (fun _ => True)
    Step.of_step (Broker.start 1) recreation (by decide +kernel)
  exact ⟨b', (boxes_outlive_sessions (Broker.start_started 1)).mpr hrun⟩

/-- A box is removed while a publisher has read a message for it. -/
def removedUnderPublisher : List Event :=
  creation 0 0 (ascii "box") ++ [.take 0 (.request ⟨1, ascii "pipe", ascii "box"⟩), .tfsOpen 0] ++
    publishing 0 (ascii "one") ++
    [.take 1 (.request ⟨5, ascii "pipe", ascii "box"⟩), .tfsUnlink 1, .deleteBox 1, .respond 1]

/-- The publisher's pointer is left to memory that was freed. -/
theorem box_removed : ∃ b', Steps Step (Broker.start 2) removedUnderPublisher b' ∧
    (b'.phase 0).boxData = some 0 ∧ b'.boxList.heap 0 = none ∧ ¬ BoxesListed b' := by
  obtain ⟨b', hrun, hthreads, hdata, hfreed⟩ := exists_steps (fun b' =>
    b'.numThreads = 2 ∧ (b'.phase 0).boxData = some 0 ∧ (b'.boxList.heap 0).isNone = true) Step.of_step (Broker.start 2)
    removedUnderPublisher (by decide +kernel)
  have hfreed := Option.isNone_iff_eq_none.mp hfreed
  refine ⟨b', hrun, hdata, hfreed, ?_⟩
  rintro ⟨ps, hb, hin⟩
  obtain ⟨box, hbox⟩ := hb.seg.allocated (hin 0 (by omega) 0 hdata)
  rw [hfreed] at hbox
  cases hbox

/-! ## Publishers -/

/-- A box name has at most one publisher that has set `n_publishers` and not reset it, in runs in which no publisher
passes the test between another one's test and its `n_publishers = 1`, the sessions of a name get the same box, and
no new box is put where a session still has an old one. -/
theorem one_publisher (h : b.Started) (hrun : Steps (Guarded KeepsExclusion Step) b es b') : OnePublisher b' := by
  obtain ⟨-, hexcl⟩ := hrun.invariant (I := fun b => OutsideIdle b ∧ Exclusive b)
    (fun b e b' ⟨hout, hb⟩ hs => ⟨hout.step hs.2.outcome, hb.step hout hs.1 hs.2.outcome⟩) ⟨h.outsideIdle, h.exclusive⟩
  exact hexcl.onePublisher

/-- A second publisher comes while the first one writes, and is refused; it is accepted after the reset. -/
def publisherRefused : List Event :=
  creation 0 0 (ascii "box") ++ [.take 0 (.request ⟨1, ascii "pipe", ascii "box"⟩), .tfsOpen 0] ++
    publishing 0 (ascii "one") ++ [.take 1 (.request ⟨1, ascii "pipe", ascii "box"⟩), .tfsOpen 1, .findBox 1, .test 1,
      .publish 0, .readEnd 0, .resetPublishers 0, .take 1 (.request ⟨1, ascii "pipe", ascii "box"⟩), .tfsOpen 1] ++
    publishing 1 (ascii "two")

theorem one_publisher_refused : ∃ b', Steps Step (Broker.start 2) publisherRefused b' ∧
    (b'.phase 0).isIdle = true ∧ ((b'.phase 1).publishing.map (·.newBoxName)) = some (ascii "/box") ∧
    OnePublisher b' := by
  obtain ⟨b', hrun, hidle, hpub⟩ := exists_guarded KeepsExclusion (fun b' => (b'.phase 0).isIdle = true ∧
    ((b'.phase 1).publishing.map (·.newBoxName)) = some (ascii "/box")) Step.of_step (Broker.start 2) publisherRefused
    (by decide +kernel)
  exact ⟨b', hrun.mono fun _ _ _ hs => hs.2, hidle, hpub, one_publisher (Broker.start_started 2) hrun⟩

/-- Two publishers test `n_publishers` before either of them sets it. -/
def publishersTested : List Event :=
  creation 0 0 (ascii "box") ++
    [.take 0 (.request ⟨1, ascii "pipe", ascii "box"⟩), .take 1 (.request ⟨1, ascii "pipe", ascii "box"⟩),
      .tfsOpen 0, .tfsOpen 1, .findBox 0, .findBox 1, .test 0, .test 1, .setPublishers 0, .setPublishers 1]

/-- Both are accepted. -/
theorem two_publishers : ∃ b', Steps Step (Broker.start 2) publishersTested b' ∧ ¬ OnePublisher b' := by
  obtain ⟨b', hrun, hthreads, ⟨s, hs, hname⟩, t, ht, hname'⟩ := exists_steps (fun b' => b'.numThreads = 2 ∧
    (∃ s ∈ (b'.phase 0).publishing, s.newBoxName = ascii "/box") ∧
      ∃ t ∈ (b'.phase 1).publishing, t.newBoxName = ascii "/box")
    Step.of_step (Broker.start 2) publishersTested (by decide +kernel)
  exact ⟨b', hrun, fun h => absurd (h 0 (by omega) 1 (by omega) s t hs ht (hname.trans hname'.symm)) (by decide)⟩

/-! ## What is in a box -/

/-- Requests handled one at a time: the file of every box holds the messages that were stored, whole and in order, and
`box_size` is their length, in every state that is reached, exactly in the runs in which every message of which
something is stored fits the file whole. -/
theorem boxes_accounted {x : Broker × Account} (h : b.Started) :
    Steps (fun x e x' => Guarded InTurn AccountStep x e x' ∧ Accounted x') (b, .empty) es x ↔
      Steps (Guarded FitsBox (Guarded InTurn AccountStep)) (b, .empty) es x := by
  refine Steps.always_iff (I := fun x : Broker × Account => ∃ w L a ps, InOrder x w L a ps) (P := Accounted) ?_ ?_
    ⟨_, _, _, _, h.inOrder⟩
  · rintro x e x' ⟨w, L, a, ps, hx⟩ hg ⟨hturn, hs⟩
    obtain ⟨b', ho, rfl⟩ := hs.outcome
    exact (hx.step hturn ho).1 hg
  · rintro x e x' ⟨w, L, a, ps, hx⟩ ⟨hturn, hs⟩
    obtain ⟨b', ho, rfl⟩ := hs.outcome
    obtain ⟨hgood, hbad⟩ := hx.step hturn ho
    refine ⟨hbad, fun hg => ?_⟩
    obtain ⟨w', L', a', ps', hx'⟩ := hgood hg
    exact hx'.accounted

/-- Two publishers in turn; the first one also sends an empty message. -/
def textsInTurn : List Event :=
  creation 0 0 (ascii "box") ++ [.take 0 (.request ⟨1, ascii "pipe", ascii "box"⟩), .tfsOpen 0] ++
    publishing 0 (ascii "one") ++ [.publish 0, .readMessage 0 (ascii ""), .publish 0, .readEnd 0, .resetPublishers 0] ++
    [.take 1 (.request ⟨1, ascii "pipe", ascii "box"⟩), .tfsOpen 1] ++ publishing 1 (ascii "two") ++ [.publish 1]

theorem boxes_accounted_in_turn : ∃ x, Steps (fun x e x' => Guarded InTurn AccountStep x e x' ∧ Accounted x')
    (Broker.start 2, .empty) textsInTurn x ∧ x.2.texts (ascii "/box") = [ascii "one", ascii "", ascii "two"] := by
  obtain ⟨x, hrun, htexts⟩ := exists_guarded (fun x e => FitsBox x e ∧ InTurn x e)
    (fun x => x.2.texts (ascii "/box") = [ascii "one", ascii "", ascii "two"]) AccountStep.of_withRecord
    (Broker.start 2, .empty) textsInTurn (by decide +kernel)
  have hrun : Steps (Guarded FitsBox (Guarded InTurn AccountStep)) (Broker.start 2, .empty) textsInTurn x :=
    hrun.mono fun _ _ _ ⟨⟨hfits, hturn⟩, hs⟩ => ⟨hfits, hturn, hs⟩
  exact ⟨x, (boxes_accounted (Broker.start_started 2)).mpr hrun, htexts⟩

/-- A text of a hundred characters. -/
def hundred : CString := ⟨List.replicate 100 97, fun h => absurd (List.eq_of_mem_replicate h) (by decide)⟩

/-- A publisher comes to the end of the block within its eleventh text. -/
def textCut : List Event :=
  creation 0 0 (ascii "box") ++
    [.take 0 (.request ⟨1, ascii "pipe", ascii "box"⟩), .tfsOpen 0, .findBox 0, .test 0, .setPublishers 0,
      .readProbe 0] ++
    (List.replicate 10 [.readMessage 0 hundred, .publish 0]).flatten ++
    [.readMessage 0 (ascii "a text that is cut"), .publish 0]

/-- What is stored of it is not a text any more, and `box_size` counts all of it. -/
theorem text_cut : ∃ x, Steps (Guarded InTurn AccountStep) (Broker.start 1, .empty) textCut x ∧
    (x.1.boxList.heap 0).map BoxData.boxSize = some 1018 ∧
    (x.1.fs.content (ascii "/box")).map (·.drop 1010) = some (ascii "a text that is").chars ∧ ¬ Accounted x := by
  obtain ⟨x, hrun, hsize, hcut, hhead, horigin, htexts⟩ := exists_guarded InTurn
    (fun x => (x.1.boxList.heap 0).map BoxData.boxSize = some 1018 ∧
      (x.1.fs.content (ascii "/box")).map (·.drop 1010) = some (ascii "a text that is").chars ∧
      x.1.boxList.head = some 0 ∧ x.2.origin 0 = ascii "/box" ∧
      x.2.texts (ascii "/box") = List.replicate 10 hundred ++ [ascii "a text that is cut"])
    AccountStep.of_withRecord (Broker.start 1, .empty) textCut (by decide +kernel)
  refine ⟨x, hrun, hsize, hcut, ?_⟩
  rintro ⟨ps, hholds, hboxes⟩
  have hseg := hholds.seg
  rw [hhead] at hseg
  cases hseg with
  | cons hbox _ =>
      obtain ⟨box, -, hcontent, -⟩ := hboxes 0 List.mem_cons_self
      rw [horigin, htexts] at hcontent
      rw [hcontent] at hcut
      exact absurd hcut (by decide +kernel)

/-! ## What a subscriber is sent -/

/-- A subscriber is sent the messages that are stored in its box, each once and in order, and has got all of them
when it waits, in runs in which a message is stored when every subscriber of the box has taken what came before, no
message is empty, or written elsewhere than whole at the end of the file, and no box is removed under a session. -/
theorem delivery_exact {x : Broker × Feed} (h : b.Started)
    (hrun : Steps (Guarded KeepsDelivery FeedStep) (b, .empty) es x) : ExactDelivery x := by
  obtain ⟨L, a, hx⟩ := hrun.invariant (I := fun x : Broker × Feed => ∃ L a, Delivering x L a)
    (fun x e x' ⟨L, a, hx⟩ ⟨hg, hs⟩ => by
      obtain ⟨b', ho, rfl⟩ := hs.outcome
      exact hx.step hg ho) ⟨_, _, h.delivering⟩
  exact hx.exactDelivery

/-- The steps of a subscriber of "box" until it waits. -/
def subscribing (w : Nat) : List Event :=
  [.take w (.request ⟨2, ascii "pipe", ascii "box"⟩), .findBox w, .tfsOpen w, .test w, .countSubscriber w, .readBox w,
    .replay w, .sample w]

/-- A box is created, and gets a subscriber and a publisher. -/
def subscribed : List Event :=
  creation 0 0 (ascii "box") ++ subscribing 0 ++ [.take 1 (.request ⟨1, ascii "pipe", ascii "box"⟩), .tfsOpen 1] ++
    publishing 1 (ascii "one")

/-- The subscriber takes each message before the next one is stored. -/
def deliveredInTurn : List Event :=
  subscribed ++ [.publish 1, .wake 0, .readMessage 1 (ascii "two"), .publish 1, .send 0 true, .wake 0, .send 0 true]

theorem delivery_exact_in_turn : ∃ x,
    Steps (Guarded KeepsDelivery FeedStep) (Broker.start 2, .empty) deliveredInTurn x ∧
      x.2.sent 0 = [ascii "one", ascii "two"] ∧ ExactDelivery x := by
  obtain ⟨x, hrun, hsent⟩ := exists_guarded KeepsDelivery (fun x => x.2.sent 0 = [ascii "one", ascii "two"])
    FeedStep.of_withRecord (Broker.start 2, .empty) deliveredInTurn (by decide +kernel)
  exact ⟨x, hrun, hsent, delivery_exact (Broker.start_started 2) hrun⟩

/-- Two messages are stored before the subscriber wakes up. -/
def deliveredTogether : List Event :=
  subscribed ++ [.publish 1, .readMessage 1 (ascii "two"), .publish 1, .wake 0, .send 0 true]

/-- It is sent the first one, and waits. -/
theorem second_not_delivered : ∃ x, Steps FeedStep (Broker.start 2, .empty) deliveredTogether x ∧
    x.2.stored 0 = [ascii "one", ascii "two"] ∧ x.2.sent 0 = [ascii "one"] ∧ step x.1 (.wake 0) = none ∧
    ¬ ExactDelivery x := by
  obtain ⟨x, hrun, hstored, hsent, hnone, ⟨s, hs, hbox⟩, hwait, hsize⟩ := exists_steps (fun x : Broker × Feed =>
    x.2.stored 0 = [ascii "one", ascii "two"] ∧ x.2.sent 0 = [ascii "one"] ∧ (step x.1 (.wake 0)).isNone = true ∧
      (∃ s ∈ (x.1.phase 0).following, s.boxData = 0) ∧ (x.1.phase 0).waitSize = some 6 ∧ x.1.sizeAt 0 = some 6)
    FeedStep.of_withRecord (Broker.start 2, .empty) deliveredTogether (by decide +kernel)
  refine ⟨x, hrun, hstored, hsent, Option.isNone_iff_eq_none.mp hnone, fun hexact => ?_⟩
  have hall := (hexact 0 s hs).2 6 hwait (by rw [hbox]; exact hsize)
  rw [hsent, hstored] at hall
  exact absurd hall (by decide)

/-! ## The replay -/

/-- Behind a `tfs_read` of whole texts the loop sends those and nothing else exactly if none is empty and the byte
behind them, which the read left as it was, is a NUL. But it never does so without a look at that byte. What it sends
is what the worker writes between the test of the session and its wait for news. -/
theorem replay_exact_iff (stale : Mem) {texts : List CString} (hlen : (textBytes texts).length ≤ sizeofFullBoxBuffer) :
    (replay (readBuffer stale (textBytes texts)) = texts ↔
      (∀ t ∈ texts, t.strlen ≠ 0) ∧ stale (textBytes texts).length = 0) ∧
      ¬ (replay (readBuffer stale (textBytes texts)) = texts ∧
        ∀ i ∈ replayLooks (readBuffer stale (textBytes texts)), i < (textBytes texts).length) ∧
      ∀ (b b' : Broker) (w : Nat) (s : Session) (r : Int) (fs : Fs.State), b.phase w = .subCounted s →
        b.fullBoxBuffer w = stale → Fs.tfsRead b.fs s.fileHandle sizeofFullBoxBuffer = .ok (r, textBytes texts, fs) →
        Steps Step b [.readBox w, .replay w] b' →
        b'.output w = b.output w ++ (replay (readBuffer stale (textBytes texts))).map .message := by
  have hiff := replay_eq_iff stale hlen
  refine ⟨hiff, fun ⟨hsent, hinside⟩ => ?_, fun b b' w s r fs hw hstale hread hrun => ?_⟩
  · exact lt_irrefl _ (hinside _ (mem_replayLooks hlen (hiff.mp hsent).1))
  · rw [← hstale]
    exact replay_steps hw hread hrun

/-- The buffer held zeros. -/
theorem replay_exact_two : replay (readBuffer (fun _ => 0) (textBytes [ascii "one", ascii "two"])) =
    [ascii "one", ascii "two"] :=
  (replay_exact_iff (fun _ => 0) (by decide)).1.mpr ⟨by decide, rfl⟩

/-- The box of an earlier session held other texts. -/
theorem replay_stale : replay (readBuffer (Mem.ofList (textBytes [ascii "three", ascii "four"]))
      (textBytes [ascii "one"])) = [ascii "one", ascii "e", ascii "four"] ∧
    replay (readBuffer (fun _ => 0) (textBytes [ascii "one", ascii "", ascii "two"])) = [ascii "one"] ∧
    3 + 1 ∈ replayLooks (readBuffer (fun _ => 0) (textBytes [ascii "one"])) ∧
    ¬ ∀ (stale : Mem) (texts : List CString), (textBytes texts).length ≤ sizeofFullBoxBuffer →
      replay (readBuffer stale (textBytes texts)) = texts ∧
        ∀ i ∈ replayLooks (readBuffer stale (textBytes texts)), i < (textBytes texts).length := by
  have hstale : replay (readBuffer (Mem.ofList (textBytes [ascii "three", ascii "four"])) (textBytes [ascii "one"])) =
      [ascii "one", ascii "e", ascii "four"] := by decide +kernel
  refine ⟨hstale, by decide +kernel, mem_replayLooks (by decide) (by decide), fun h => ?_⟩
  have hsent := (h (Mem.ofList (textBytes [ascii "three", ascii "four"])) [ascii "one"] (by decide)).1
  rw [hstale] at hsent
  exact absurd hsent (by decide)

/-! ## The list of boxes -/

/-- After every call of a sequence the chain is whole, `tail` is its last box and a listing marks its last record,
exactly if no call of the sequence deletes the only box. A listing is what the loop of a worker writes. -/
theorem boxList_wellFormed {cs : List ListCall} {list : BoxList} :
    (Steps (fun list c list' => list.Called c list' ∧ list'.WellFormed ∧ ListsLast list') .empty cs list ↔
      Steps (Guarded BoxList.KeepsTail BoxList.Called) .empty cs list) ∧
      (Steps BoxList.Called .empty cs list → ∀ (b : Broker) (w : Nat), b.boxList = list →
        b.phase w = .listing list.head → ∃ b' rs, listing list = some rs ∧
          Steps Step b (List.replicate (rs.length + 1) (.listBox w)) b' ∧
          b'.output w = b.output w ++ rs.map .listing ∧ b'.phase w = .idle) := by
  have hiff : ∀ {list c list'}, BoxList.WellFormed list → list.Called c list' →
      (list'.WellFormed ∧ ListsLast list' ↔ list.KeepsTail c) := by
    intro list c list' h hc
    rw [← h.call_iff hc]
    exact ⟨And.left, fun h' => ⟨h', listsLast_of_wellFormed h'⟩⟩
  refine ⟨Steps.always_iff (I := BoxList.WellFormed) (fun list c list' h hg hc => ((hiff h hc).mpr hg).1)
    (fun list c list' h hc => hiff h hc) BoxList.empty_wellFormed, ?_⟩
  rintro hrun b w rfl hw
  obtain ⟨ps, hchain⟩ := BoxList.empty_chain.steps hrun
  exact listing_steps hw hchain.holds

/-- The only box is deleted, and another one is inserted. -/
def emptiedList : List ListCall :=
  [.insert 0 (fun _ => 0) (ascii "/a") 0 0 0, .delete (ascii "/a"), .insert 1 (fun _ => 0) (ascii "/b") 0 0 0]

/-- `tail` is left to the box that was freed, and the only record of a listing is not marked. -/
theorem tail_left_behind : ∃ list, Steps BoxList.Called .empty emptiedList list ∧ list.tail = some 0 ∧
    list.heap 0 = none ∧ ¬ list.WellFormed ∧ ¬ ListsLast list := by
  obtain ⟨list, hrun, htail, hfreed, hlisting⟩ := exists_steps (fun list => list.tail = some 0 ∧
    (list.heap 0).isNone = true ∧ (listing list).map (·.map (·.last)) = some [0])
    BoxList.Called.of_call .empty emptiedList (by decide +kernel)
  have hlast : ¬ ListsLast list := by
    rintro ⟨rs, hrs, hmarked⟩
    rw [hrs, Option.map_some, Option.some.injEq] at hlisting
    obtain ⟨r, rfl, hr⟩ := List.map_eq_singleton_iff.mp hlisting
    rw [(hmarked [] r rfl).1] at hr
    cases hr
  exact ⟨list, hrun, htail, Option.isNone_iff_eq_none.mp hfreed, fun h => hlast (listsLast_of_wellFormed h), hlast⟩

/-! ## The names of the boxes -/

/-- Every box whose name fits the field of its request is stored with its whole name, found by it, and listed with it,
in every state that is reached, exactly in the runs in which every such name fits `box_name` with the '/' and is new
when its box is added. -/
theorem names_whole {x : Broker × Account} (h : b.Started) :
    Steps (fun x e x' => AccountStep x e x' ∧ NamesWhole x') (b, .empty) es x ↔
      Steps (Guarded (fun x e => InsertsName x.1 e) AccountStep) (b, .empty) es x := by
  refine Steps.always_iff (I := fun x : Broker × Account => Requested x.1 ∧ ∃ ps, NamesKept x.1.boxList x.2.origin ps)
    (P := NamesWhole) ?_ ?_ ⟨h.requested, [], by rw [h.boxList]; exact .empty⟩
  · rintro x e x' ⟨hr, ps, hk⟩ hg hs
    obtain ⟨b', ho, rfl⟩ := hs.outcome
    exact ⟨ho.requested hr, ho.namesKept hr hk hg⟩
  · rintro x e x' ⟨hr, ps, hk⟩ hs
    obtain ⟨b', ho, rfl⟩ := hs.outcome
    refine ⟨ho.insertsName hk, fun hg => ?_⟩
    obtain ⟨ps', hk'⟩ := ho.namesKept hr hk hg
    exact hk'.namesWhole

/-- A name of `n` characters. -/
def nameOf (n : Nat) : CString := ⟨List.replicate n 97, fun h => absurd (List.eq_of_mem_replicate h) (by decide)⟩

/-- Two boxes are created, and a message is stored in the second one. -/
def twoNames (boxName boxName' : CString) : List Event :=
  creation 0 0 boxName ++ creation 0 7 boxName' ++ [.take 0 (.request ⟨1, ascii "pipe", boxName'⟩), .tfsOpen 0] ++
    publishing 0 (ascii "text") ++ [.publish 0]

theorem names_whole_two : ∃ x, Steps (fun x e x' => AccountStep x e x' ∧ NamesWhole x') (Broker.start 1, .empty)
    (twoNames (ascii "box") (nameOf 30)) x ∧ (x.1.boxList.heap 7).map BoxData.boxSize = some 4 := by
  obtain ⟨x, hrun, hsize⟩ := exists_guarded (fun x e => InsertsName x.1 e)
    (fun x => (x.1.boxList.heap 7).map BoxData.boxSize = some 4) AccountStep.of_withRecord (Broker.start 1, .empty)
    (twoNames (ascii "box") (nameOf 30)) (by decide +kernel)
  exact ⟨x, (names_whole (Broker.start_started 1)).mpr hrun, hsize⟩

/-- A box with a name of 31 characters is not found any more, and listed with another name, once a message is stored
in it; and of two boxes with one name only the second is found. -/
theorem names_broken : (nameOf 31).strlen < sizeofBoxName ∧
    (∃ x, Steps AccountStep (Broker.start 1, .empty) (twoNames (ascii "box") (nameOf 31)) x ∧
      x.2.origin 7 = newBoxName (nameOf 31) ∧ (x.1.boxList.heap 7).map BoxData.boxSize = some 4 ∧
      findBox x.1.boxList x.1.boxList.head (newBoxName (nameOf 31)) = some none ∧
      (x.1.boxList.heap 7).map (fun box => (listingResponse x.1.boxList 7 box).boxName.chars) =
        some (List.replicate 31 97 ++ [4]) ∧ ¬ NamesWhole x) ∧
    ∃ x, Steps AccountStep (Broker.start 1, .empty) (twoNames (ascii "box") (ascii "box")) x ∧
      x.2.origin 0 = newBoxName (ascii "box") ∧ (x.1.boxList.heap 0).isSome = true ∧
      findBox x.1.boxList x.1.boxList.head (newBoxName (ascii "box")) = some (some 7) ∧ ¬ NamesWhole x := by
  refine ⟨by decide, ?_, ?_⟩
  · obtain ⟨x, hrun, horigin, hsize, hfind, hlist, hhead⟩ := exists_steps
      (fun x => x.2.origin 7 = newBoxName (nameOf 31) ∧ (x.1.boxList.heap 7).map BoxData.boxSize = some 4 ∧
        findBox x.1.boxList x.1.boxList.head (newBoxName (nameOf 31)) = some none ∧
        (x.1.boxList.heap 7).map (fun box => (listingResponse x.1.boxList 7 box).boxName.chars) =
          some (List.replicate 31 97 ++ [4]) ∧ x.1.boxList.head = some 7)
      AccountStep.of_withRecord (Broker.start 1, .empty) (twoNames (ascii "box") (nameOf 31)) (by decide +kernel)
    refine ⟨x, hrun, horigin, hsize, hfind, hlist, fun hwhole => ?_⟩
    rw [hwhole.found horigin (by decide) (Or.inl hhead)] at hfind
    cases hfind
  · obtain ⟨x, hrun, horigin, hsome, hfind, hhead, hnext⟩ := exists_steps
      (fun x => x.2.origin 0 = newBoxName (ascii "box") ∧ (x.1.boxList.heap 0).isSome = true ∧
        findBox x.1.boxList x.1.boxList.head (newBoxName (ascii "box")) = some (some 7) ∧
        x.1.boxList.head = some 7 ∧ (x.1.boxList.heap 7).map BoxData.next = some (some 0))
      AccountStep.of_withRecord (Broker.start 1, .empty) (twoNames (ascii "box") (ascii "box")) (by decide +kernel)
    obtain ⟨box, hbox, hnext⟩ := Option.map_eq_some_iff.mp hnext
    refine ⟨x, hrun, horigin, hsome, hfind, fun hwhole => ?_⟩
    rw [hwhole.found horigin (by decide) (Or.inr ⟨7, box, hhead, hbox, hnext⟩)] at hfind
    cases hfind

end Mbroker.Sessions
