import Mbroker.Sessions.Files

/-!
# What publishers store

`tfs_open` with TFS_O_APPEND sets the offset of a handle once. A publisher session is outdated when another
session has stored a message in the box since; as long as it is not, its offset is the end of the file.
-/

namespace Mbroker.Sessions

open Mbroker.Lib Mbroker.Fs Mbroker.Protocol

variable {b b' b₁ : Broker} {e : Event} {L L' : Layout} {a a' : FileSystem} {w : Nat} {old phase : Phase}
  {p : CString} {g g' : Nat → Bool}

/-! ## What is stated -/

/-- The session and the message of a step that stored one in a box. -/
def stored (b : Broker) (e : Event) (b' : Broker) : Option (Session × CString) :=
  match e with
  | .publish w => match b.phase w, b'.phase w with
    | .pubWriting s message, .pubReading _ => some (s, message)
    | _, _ => none
  | _ => none

section Stored

variable {w : Nat} {s : Session} {message : CString} {b₁ : Broker}

theorem stored_publish (hw : b.phase w = .pubWriting s message) :
    stored b (.publish w) (b₁.setPhase w (.pubReading s)) = some (s, message) := by
  simp [stored, hw]

theorem stored_publishFull (hw : b.phase w = .pubWriting s message) :
    stored b (.publish w) (b₁.setPhase w (.pubEnding s)) = none := by
  simp [stored, hw]

end Stored

/-- Which sessions are outdated after a step. -/
def outdate (g : Nat → Bool) (b : Broker) (e : Event) (b' : Broker) : Nat → Bool :=
  match e with
  | .tfsOpen w => Function.update g w false
  | .publish w => match stored b e b' with
    | some (s, _) => fun v => g v || decide (v ≠ w) && (b.phase v).opened.any (·.1 = s.newBoxName)
    | none => g
  | _ => g

/-- A step of the broker, with the outdated sessions beside it. -/
def datedStep (x : Broker × (Nat → Bool)) (e : Event) : Option (Broker × (Nat → Bool)) :=
  (step x.1 e).map fun b' => (b', outdate x.2 x.1 e b')

def DatedStep (x : Broker × (Nat → Bool)) (e : Event) (x' : Broker × (Nat → Bool)) : Prop := datedStep x e = some x'

theorem DatedStep.outcome {x x' : Broker × (Nat → Bool)} (h : DatedStep x e x') :
    Outcome x.1 e x'.1 ∧ x'.2 = outdate x.2 x.1 e x'.1 := by
  obtain ⟨b', hb', rfl⟩ := Option.map_eq_some_iff.mp h
  exact ⟨Step.outcome hb', rfl⟩

theorem DatedStep.of_datedStep (x : Broker × (Nat → Bool)) (e : Event) (x' : Broker × (Nat → Bool))
    (h : datedStep x e = some x') : DatedStep x e x' := h

/-- No session that writes is outdated, and no file of a session is removed. -/
def InDate (x : Broker × (Nat → Bool)) (e : Event) : Prop :=
  NotRemoved x.1 e ∧ match e with
    | .publish w => x.2 w = false
    | _ => True

instance (x : Broker × (Nat → Bool)) : DecidablePred (InDate x) := by
  intro e
  induction e using Event.casesOn with
  | publish w => exact inferInstanceAs (Decidable (NotRemoved x.1 (.publish w) ∧ x.2 w = false))
  | _ => exact inferInstanceAs (Decidable (NotRemoved x.1 _ ∧ True))

/-! ## What a step does to the files -/

/-- The files before and after a step: nothing changes, or one is created, removed, or gets a message at its end,
as far as that fits the block. -/
inductive FileEffect (b : Broker) (e : Event) (b' : Broker) (a a' : FileSystem) : Prop
  | same : stored b e b' = none → a'.names = a.names → a'.content = a.content → FileEffect b e b' a a'
  | created {w : Nat} {name : CString} : e = .tfsOpen w → b.phase w = .create name → name.tail.chars ∉ a.names →
      a'.names = insert name.tail.chars a.names → a'.content = Function.update a.content name.tail.chars [] →
      FileEffect b e b' a a'
  | removed {w : Nat} {name : CString} : e = .tfsUnlink w → b.phase w = .remove name →
      a'.names = a.names.erase name.tail.chars → a'.content = a.content → FileEffect b e b' a a'
  | grown {w : Nat} {s : Session} {message : CString} : e = .publish w → b.phase w = .pubWriting s message →
      stored b e b' = some (s, message) → a'.names = a.names →
      a'.content = Function.update a.content s.newBoxName.tail.chars (a.content s.newBoxName.tail.chars ++
        message.mem.bytes (min (message.strlen + 1) (b.fs.blockSize - (a.content s.newBoxName.tail.chars).length))) →
      FileEffect b e b' a a'

/-- The calls that create or remove a file. -/
def Event.changesNames : Event → Bool
  | .tfsOpen _ | .tfsUnlink _ => true
  | _ => false

theorem FileEffect.same_of_changesNames (h : FileEffect b e b' a a') (hs : stored b e b' = none)
    (hn : e.changesNames = false) : a'.names = a.names ∧ a'.content = a.content := by
  cases h with
  | same _ hnames hcontent => exact ⟨hnames, hcontent⟩
  | created he =>
      subst he
      cases hn
  | removed he =>
      subst he
      cases hn
  | grown _ _ hstored =>
      rw [hs] at hstored
      cases hstored

theorem FileEffect.same_of_open {w : Nat} (h : FileEffect b (.tfsOpen w) b' a a')
    (hc : ∀ name, b.phase w ≠ .create name) : a'.names = a.names ∧ a'.content = a.content := by
  cases h with
  | same _ hnames hcontent => exact ⟨hnames, hcontent⟩
  | created he hw =>
      cases he
      exact absurd hw (hc _)
  | removed he => cases he
  | grown he => cases he

/-- The file gets what fits of a message that is stored. -/
theorem FileEffect.grown_of_stored {w : Nat} {s : Session} {message : CString} (h : FileEffect b (.publish w) b' a a')
    (hw : b.phase w = .pubWriting s message) (hs : stored b (.publish w) b' ≠ none) : a'.names = a.names ∧
      a'.content = Function.update a.content s.newBoxName.tail.chars (a.content s.newBoxName.tail.chars ++
        message.mem.bytes (min (message.strlen + 1)
          (b.fs.blockSize - (a.content s.newBoxName.tail.chars).length))) := by
  cases h with
  | same hnone => exact absurd hnone hs
  | created he => cases he
  | removed he => cases he
  | grown he hw' _ hnames hcontent =>
      cases he
      rw [hw] at hw'
      cases hw'
      exact ⟨hnames, hcontent⟩

theorem FileEffect.publish_prefix (h : FileEffect b (.publish w) b' a a') :
    a'.names = a.names ∧ ∀ n, a.content n <+: a'.content n := by
  cases h with
  | same _ hnames hcontent => exact ⟨hnames, fun n => by rw [hcontent]⟩
  | created he => cases he
  | removed he => cases he
  | @grown _ s message _ _ _ hnames hcontent =>
      refine ⟨hnames, fun n => ?_⟩
      rw [hcontent]
      by_cases hn : n = s.newBoxName.tail.chars
      · subst hn
        rw [Function.update_self]
        exact List.prefix_append _ _
      · rw [Function.update_of_ne hn]

/-! ## The invariant -/

/-- A publisher session, from its `tfs_open` to its end. -/
def Phase.publishes : Phase → Bool
  | .pubOpened _ _ | .pubFound _ _ _ | .pubAccepted _ | .pubTesting _ | .pubReading _ | .pubWriting _ _
  | .pubEnding _ => true
  | _ => false

/-- The publisher sessions that are not outdated are at the end of their files. -/
structure AtEnd (b : Broker) (g : Nat → Bool) (L : Layout) (a : FileSystem) : Prop where
  files : Files b L a
  atEnd : ∀ v p (i off : Nat), (b.phase v).publishes = true → (b.phase v).opened = some (p, (i : Int)) →
    g v = false → a.handles i = some (p.tail.chars, off) → off = (a.content p.tail.chars).length

namespace AtEnd

/-- The worker `w` goes on; the handles and files of the other sessions are as before, or they are outdated. -/
theorem next (h : AtEnd b g L a) (hb : b₁.phase = b.phase) (hfiles : Files (b₁.setPhase w phase) L' a')
    (hother : ∀ v p (i : Nat), v ≠ w → (b.phase v).publishes = true → (b.phase v).opened = some (p, (i : Int)) →
      g' v = false → g v = false ∧ a'.handles i = a.handles i ∧ a'.content p.tail.chars = a.content p.tail.chars)
    (hself : ∀ p (i off : Nat), phase.publishes = true → phase.opened = some (p, (i : Int)) → g' w = false →
      a'.handles i = some (p.tail.chars, off) → off = (a'.content p.tail.chars).length) :
    AtEnd (b₁.setPhase w phase) g' L' a' := by
  refine ⟨hfiles, fun v p i off hpub hv hg hi => ?_⟩
  simp only [Broker.setPhase, hb] at hpub hv
  by_cases hvw : v = w
  · subst hvw
    rw [Function.update_self] at hpub hv
    exact hself p i off hpub hv hg hi
  · rw [Function.update_of_ne hvw] at hpub hv
    obtain ⟨hg, hsame, hcontent⟩ := hother v p i hvw hpub hv hg
    rw [hcontent]
    rw [hsame] at hi
    exact h.atEnd v p i off hpub hv hg hi

theorem move (h : AtEnd b g L a) (hb : b₁.phase = b.phase) (hfiles : Files (b₁.setPhase w phase) L' a')
    (hother : Untouched b w a a') (hdate : ∀ v, v ≠ w → g' v = false → g v = false)
    (hself : ∀ p (i off : Nat), phase.publishes = true → phase.opened = some (p, (i : Int)) → g' w = false →
      a'.handles i = some (p.tail.chars, off) → off = (a'.content p.tail.chars).length) :
    AtEnd (b₁.setPhase w phase) g' L' a' :=
  h.next hb hfiles (fun v p i hvw _ hv hg => ⟨hdate v hvw hg, hother v p i hvw hv⟩) hself

theorem quiet (h : AtEnd b g L a) (hb : b₁.phase = b.phase) (hthreads : b₁.numThreads = b.numThreads)
    (hfs : b₁.fs = b.fs) (hw : b.phase w = old) (hold : old.isIdle = false) (hop : phase.opened = old.opened)
    (hpub : phase.publishes = true → old.publishes = true) : AtEnd (b₁.setPhase w phase) g L a := by
  refine h.move hb (h.files.quiet hb hthreads hfs hw hold hop) .refl (fun _ _ => id) ?_
  intro p i off hp hopened hg hi
  refine h.atEnd w p i off ?_ ?_ hg hi
  · rw [hw]
    exact hpub hp
  · rw [hw, ← hop]
    exact hopened

theorem finish (h : AtEnd b g L a) (hb : b₁.phase = b.phase) (hthreads : b₁.numThreads = b.numThreads)
    (hfs : b₁.fs = b.fs) (hw : b.phase w = old) (hold : old.isIdle = false) (hop : phase.opened = none) :
    ∃ a', AtEnd (b₁.setPhase w phase) g L a' ∧ a'.names = a.names ∧ a'.content = a.content := by
  refine ⟨_, h.move hb (h.files.finish hb hthreads hfs hw hold hop) ?_ (fun _ _ => id) ?_, release_names _,
    release_content _⟩
  · rw [← hw]
    exact h.files.untouched_release
  · intro p i off _ hopened
    rw [hop] at hopened
    cases hopened

/-- A session opens its file; a publisher is at its end then. -/
theorem openBox (h : AtEnd b g L a) {mode : Nat} {res : Int × State} (phase : Phase)
    (hmode : mode = 0 ∨ mode = tfsOAppend) (hw : b.phase w = old) (hold : old.isIdle = false)
    (hnone : old.opened = none) (he : Fs.tfsOpen b.fs (some p) mode = .ok res) (hop : phase.opened = some (p, res.1))
    (hend : phase.publishes = true → mode = tfsOAppend) :
    ∃ a', AtEnd ({ b with fs := res.2 }.setPhase w phase) (Function.update g w false) L a' ∧ a'.names = a.names ∧
      a'.content = a.content := by
  have hdate : ∀ v, v ≠ w → Function.update g w false v = false → g v = false := by
    intro v hv hg
    rwa [Function.update_of_ne hv] at hg
  obtain ⟨hr, hfiles⟩ | ⟨i, hr, hi, hfiles⟩ := h.files.openBox phase hmode hw hold hnone he hop
  · refine ⟨a, h.move rfl hfiles .refl hdate ?_, rfl, rfl⟩
    intro q j off _ hopened
    rw [hop, hr] at hopened
    cases hopened
  · refine ⟨_, h.move rfl hfiles (h.files.untouched_of_free hi) hdate ?_, rfl, rfl⟩
    intro q j off hpub hopened _ hj
    rw [hop, hr] at hopened
    cases hopened
    rw [FileSystem.setHandle_same, hend hpub] at hj
    cases hj
    rfl

theorem read (h : AtEnd b g L a) {fh : Int} {len : Nat} {res : Int × List UInt8 × State} (hb : b₁.phase = b.phase)
    (hthreads : b₁.numThreads = b.numThreads) (hfs : b₁.fs = res.2.2) (hw : b.phase w = old)
    (hold : old.isIdle = false) (hf : old.opened = some (p, fh)) (he : Fs.tfsRead b.fs fh len = .ok res)
    (hres : 0 ≤ res.1) (hop : phase.opened = old.opened) (hpub : phase.publishes = false) :
    ∃ a', AtEnd (b₁.setPhase w phase) g L a' ∧ a'.names = a.names ∧ a'.content = a.content := by
  obtain ⟨i, off, rfl, hi, -, hfiles⟩ := h.files.read hb hthreads hfs hw hold hf he hres hop
  refine ⟨_, h.move hb hfiles (h.files.untouched_of_own (by rw [hw]; exact hf)) (fun _ _ => id) fun q j off' hp => ?_,
    rfl, rfl⟩
  rw [hpub] at hp
  cases hp

/-- A session that is not outdated stores a message at the end of its file; the other sessions on the file are
outdated then. -/
theorem store (h : AtEnd b g L a) {s : Session} {message : CString} {res : Int × State}
    (hw : b.phase w = .pubWriting s message) (hb : b₁.phase = b.phase) (hthreads : b₁.numThreads = b.numThreads)
    (hfs : b₁.fs = res.2) (hm : message.strlen ≤ sizeofText) (hdate : g w = false)
    (he : Fs.tfsWrite b.fs s.fileHandle message.mem (message.strlen + 1) = .ok res) (hres : 0 < res.1) :
    ∃ a', AtEnd (b₁.setPhase w (.pubReading s))
      (fun v => g v || decide (v ≠ w) && (b.phase v).opened.any (·.1 = s.newBoxName)) L a' ∧
      a'.names = a.names ∧ a'.content = Function.update a.content s.newBoxName.tail.chars
        (a.content s.newBoxName.tail.chars ++ message.mem.bytes
          (min (message.strlen + 1) (b.fs.blockSize - (a.content s.newBoxName.tail.chars).length))) := by
  obtain ⟨hr, -⟩ | ⟨-, i, off, hfh, hi, -, hfiles⟩ :=
    h.files.write (.pubReading s) hb hthreads hfs hw rfl rfl (by rw [sizeofText] at hm; omega) he rfl
  · omega
  obtain ⟨l, hl⟩ : ∃ l, l = message.mem.bytes (min (message.strlen + 1) (b.fs.blockSize - off)) := ⟨_, rfl⟩
  have hopened : (b.phase w).opened = some (s.newBoxName, (i : Int)) := by
    rw [hw, ← hfh]
    rfl
  obtain rfl := h.atEnd w s.newBoxName i off (by rw [hw]; rfl) hopened hdate hi
  rw [← hl, overwrite_at_end] at hfiles
  refine ⟨_, h.next hb hfiles (fun v q j hvw _ hv hg => ?_) ?_, rfl, by rw [← hl]; rfl⟩
  · simp only [Bool.or_eq_false_iff, Bool.and_eq_false_iff, decide_eq_false_iff_not, not_not, hvw, false_or, hv,
      Option.any_some] at hg
    refine ⟨hg.1, FileSystem.setHandle_ne ?_, FileSystem.setContent_ne (h.files.tail_ne hv hopened hg.2)⟩
    rintro rfl
    exact hvw (h.files.apart v w q s.newBoxName j hv hopened)
  · intro q j off' _ hq _ hj
    obtain ⟨rfl, hj'⟩ : s.newBoxName = q ∧ s.fileHandle = j := by simpa [Phase.opened] using hq
    obtain rfl : i = j := by omega
    rw [FileSystem.setHandle_same] at hj
    cases hj
    change _ = (Function.update a.content _ _ _).length
    rw [Function.update_self, List.length_append, hl, Mem.length_bytes]

/-- What a write step does to the files, whether it stores the message or not. -/
theorem publish (h : AtEnd b g L a) (htexts : TextsFit b) (hdate : g w = false) (ho : Outcome b (.publish w) b') :
    ∃ a', AtEnd b' (outdate g b (.publish w) b') L a' ∧ FileEffect b (.publish w) b' a a' := by
  cases ho with
  | @publish _ s message box n fs hw hbox hlock he hn =>
      have hm := htexts w message (by rw [hw]; rfl)
      obtain ⟨b', hb'⟩ : ∃ b', b' = (({ b with fs := fs } : Broker).setBox s.boxData
        { box with boxSize := toSize (box.boxSize + message.strlen) }) := ⟨_, rfl⟩
      rw [← hb']
      have hphase : b'.phase = b.phase := by rw [hb']; rfl
      obtain ⟨a', ha', hnames, hcontent⟩ := h.store hw hphase (by rw [hb']; rfl) (by rw [hb']; rfl) hm hdate he hn
      refine ⟨a', ?_, .grown rfl hw ?_ hnames hcontent⟩
      · simpa only [outdate, stored_publish hw] using ha'
      · exact stored_publish hw
  | @publishFull _ s message box n fs hw hbox hlock he hn =>
      have hm := htexts w message (by rw [hw]; rfl)
      obtain ⟨b', hb'⟩ : ∃ b', b' = (({ b with fs := fs } : Broker).setBox s.boxData
        { box with boxCondvarLock := true }) := ⟨_, rfl⟩
      rw [← hb']
      have hphase : b'.phase = b.phase := by rw [hb']; rfl
      obtain ⟨-, hfiles⟩ | ⟨hpos, -⟩ := h.files.write (.pubEnding s) hphase (by rw [hb']; rfl) (by rw [hb']; rfl) hw rfl
        rfl (by rw [sizeofText] at hm; omega) he rfl
      · refine ⟨a, ?_, .same (stored_publishFull hw) rfl rfl⟩
        have hnone : outdate g b (.publish w) (b'.setPhase w (.pubEnding s)) = g := by
          simp only [outdate, stored_publishFull hw]
        rw [hnone]
        refine h.move hphase hfiles .refl (fun _ _ => id) fun q i off _ hq hg hi => ?_
        exact h.atEnd w q i off (by rw [hw]; rfl) (by rw [hw]; exact hq) hg hi
      · have hpos : 0 < n := hpos
        omega

theorem unchanged (hnone : stored b e b' = none)
    (h : ∃ a', AtEnd b' g' L a' ∧ a'.names = a.names ∧ a'.content = a.content) :
    ∃ L' a', AtEnd b' g' L' a' ∧ FileEffect b e b' a a' := by
  obtain ⟨a', ha', hnames, hcontent⟩ := h
  exact ⟨L, a', ha', .same hnone hnames hcontent⟩

theorem step (h : AtEnd b g L a) (htexts : TextsFit b) (hg : InDate (b, g) e) (ho : Outcome b e b') :
    ∃ L' a', AtEnd b' (outdate g b e b') L' a' ∧ FileEffect b e b' a a' := by
  cases ho with
  | take hw hlt hd =>
      refine ⟨L, a, h.move rfl (h.files.keep rfl rfl hlt hw (Phase.start_opened _) h.files.view rfl fun _ => rfl)
        .refl (fun _ _ => id) fun q i off _ hq => ?_, .same rfl rfl rfl⟩
      rw [Phase.start_opened] at hq
      cases hq
  | openPub hw he => exact unchanged rfl (h.openBox _ (Or.inr rfl) hw rfl rfl he rfl fun _ => rfl)
  | openSub hw he => exact unchanged rfl (h.openBox _ (Or.inl rfl) hw rfl rfl he rfl nofun)
  | @openCreate w name fh fs hw he =>
      have hop : (if fh = -1 then Phase.responding createError else .created name).opened = none := by
        split <;> rfl
      obtain ⟨L', a', hfiles, hother, hsame | ⟨hnew, hcreated⟩⟩ := h.files.createBox hw rfl rfl he hop
      all_goals
        refine ⟨L', a', h.move rfl hfiles hother (fun v hvw hdate => ?_) fun q i off _ hq => ?_, ?_⟩
        · simpa only [outdate, Function.update_of_ne hvw] using hdate
        · rw [hop] at hq
          cases hq
      · exact .same rfl (by rw [hsame]) (by rw [hsame])
      · exact .created rfl hw hnew (by rw [hcreated]) (by rw [hcreated]; rfl)
  | readBox hw he hn | wake hw _ _ _ he hn =>
      exact unchanged rfl (h.read rfl rfl rfl hw rfl rfl he hn rfl rfl)
  | publish hw hbox hlock he hn => exact ⟨L, h.publish htexts hg.2 (.publish hw hbox hlock he hn)⟩
  | publishFull hw hbox hlock he hn => exact ⟨L, h.publish htexts hg.2 (.publishFull hw hbox hlock he hn)⟩
  | @tfsUnlink w name r fs hw he =>
      have hop : (if r = -1 then Phase.responding removeError else .removed name).opened = none := by
        split <;> rfl
      obtain ⟨L', a', hfiles, hother, hsame | hremoved⟩ := h.files.removeBox hw hg.1 he hop
      all_goals
        refine ⟨L', a', h.move rfl hfiles hother (fun _ _ => id) fun q i off _ hq => ?_, ?_⟩
        · rw [hop] at hq
          cases hq
      · exact .same rfl (by rw [hsame]) (by rw [hsame])
      · exact .removed rfl hw (by rw [hremoved]) (by rw [hremoved])
  | refusePub hw | refuseSub hw | resetPublishers hw | uncountSubscriber hw =>
      exact unchanged rfl (h.finish rfl rfl rfl hw rfl rfl)
  | _ =>
      exact unchanged (by rfl)
        ⟨a, h.quiet (by rfl) (by rfl) (by rfl) (by assumption) (by rfl) (by rfl) (by exact id), rfl, rfl⟩

end AtEnd

/-! ## Runs -/

theorem Broker.Started.atEnd (h : b.Started) : AtEnd b g Layout.empty FileSystem.empty := by
  refine ⟨h.files, fun v p i off hpub => ?_⟩
  rw [h.phase v] at hpub
  cases hpub

theorem AtEnd.steps {x x' : Broker × (Nat → Bool)} {es : List Event}
    (hrun : Steps (Guarded InDate DatedStep) x es x') (h : x.1.Started) :
    TextsFit x'.1 ∧ ∃ L a, AtEnd x'.1 x'.2 L a := by
  refine hrun.invariant (I := fun x => TextsFit x.1 ∧ ∃ L a, AtEnd x.1 x.2 L a) ?_ ⟨h.textsFit, _, _, h.atEnd⟩
  rintro y e y' ⟨htexts, L, a, hy⟩ ⟨hg, hs⟩
  obtain ⟨ho, hdate⟩ := hs.outcome
  rw [hdate]
  obtain ⟨L', a', hy', -⟩ := hy.step htexts hg ho
  exact ⟨ho.textsFit htexts, L', a', hy'⟩

end Mbroker.Sessions
