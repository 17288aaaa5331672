import Mbroker.Fs.Lemmas.Handles
import Mbroker.Sessions.Outcome

/-!
# What every run of the broker keeps

The file system keeps its invariant, box names fit, and a session has its handle from its `tfs_open` to its end.
-/

namespace Mbroker.Sessions

open Mbroker.Lib Mbroker.Fs Mbroker.Protocol

variable {b b' : Broker} {e : Event}

/-! ## The file system of a run -/

theorem Broker.start_started (numThreads : Nat) : (Broker.start numThreads).Started where
  fs := by
    refine ⟨.zeros, ?_⟩
    have hret : (tfsInit .zeros .static none).map Prod.fst = .ok 0 := by decide +kernel
    change _ = Except.ok (0, Broker.initialFs)
    unfold Broker.initialFs
    cases hinit : tfsInit .zeros .static none with
    | error err =>
        rw [hinit] at hret
        cases hret
    | ok res =>
        rw [hinit] at hret
        obtain ⟨r, s⟩ := res
        cases hret
        rfl
  boxList := rfl
  phase := fun _ => rfl

theorem sane_default : Sane tfsDefaultParams :=
  ⟨by decide, by decide, by decide, by decide, by decide⟩

theorem Broker.Started.initialised (h : b.Started) : Initialised b.fs tfsDefaultParams := by
  obtain ⟨m, hinit⟩ := h.fs
  exact tfsInit_initialised (by exact sane_default) hinit

/-- A step leaves the file system as it is, or makes one call. -/
theorem Outcome.fs_step (h : Outcome b e b') : b'.fs = b.fs ∨ ∃ c, Fs.Step b.fs c b'.fs := by
  cases h with
  | openPub _ ho => exact Or.inr ⟨_, .of_open ho⟩
  | openSub _ ho => exact Or.inr ⟨_, .of_open ho⟩
  | openCreate _ ho => exact Or.inr ⟨_, .of_open ho⟩
  | publishFull _ _ _ hw => exact Or.inr ⟨_, .of_write hw⟩
  | publish _ _ _ hw => exact Or.inr ⟨_, .of_write hw⟩
  | readBox _ hr => exact Or.inr ⟨_, .of_read hr⟩
  | wake _ _ _ _ hr => exact Or.inr ⟨_, .of_read hr⟩
  | tfsUnlink _ hu => exact Or.inr ⟨_, .of_unlink hu⟩
  | _ => exact Or.inl rfl

theorem Outcome.fsInv (h : Outcome b e b') (hI : ∃ L, FsInv b.fs L) : ∃ L, FsInv b'.fs L := by
  obtain he | ⟨c, hs⟩ := h.fs_step
  · rw [he]
    exact hI
  · obtain ⟨L, hI⟩ := hI
    exact hI.step hs

/-! ## What a worker holds -/

def Phase.isIdle : Phase → Bool
  | .idle => true
  | _ => false

/-- What a publisher or subscriber session in progress has opened: the name, and what `tfs_open` returned. -/
def Phase.opened : Phase → Option (CString × Int)
  | .pubOpened name h | .pubFound name h _ | .subOpened name _ h => some (name, h)
  | .pubAccepted s | .pubTesting s | .pubReading s | .pubWriting s _ | .pubEnding s
  | .subAccepted s | .subCounted s | .subRead s | .subReplayed s | .subWaiting s _ | .subSending s _
  | .subEnding s => some (s.newBoxName, s.fileHandle)
  | _ => none

def Phase.fileHandle (phase : Phase) : Option Int := phase.opened.map Prod.snd

/-- The name a creation or removal is about, as long as it needs it. -/
def Phase.boxName : Phase → Option CString
  | .create n | .created n | .remove n | .removed n => some n
  | _ => none

/-- The message that a publisher is about to write. -/
def Phase.message : Phase → Option CString
  | .pubWriting _ message => some message
  | _ => none

theorem Phase.start_message (d : Dispatch.Decoded) : (Phase.start d).message = none :=
  Phase.start_of (P := fun p => p.message = none) rfl (fun _ => rfl) (fun _ => rfl) (fun _ => rfl) (fun _ => rfl) rfl d

theorem Phase.start_opened (d : Dispatch.Decoded) : (Phase.start d).opened = none :=
  Phase.start_of (P := fun p => p.opened = none) rfl (fun _ => rfl) (fun _ => rfl) (fun _ => rfl) (fun _ => rfl) rfl d

theorem Phase.start_boxName {d : Dispatch.Decoded} {n : CString} (hn : (Phase.start d).boxName = some n) :
    ∃ r, d = .request r ∧ n = newBoxName r.boxName := by
  cases d with
  | request r =>
      refine ⟨r, rfl, ?_⟩
      simp only [Phase.start] at hn
      repeat' split at hn
      all_goals cases hn
      all_goals rfl
  | listing path => cases hn
  | unknown code => cases hn

section Field

variable {α : Type} {f : Phase → Option α} {b₁ : Broker} {w : Nat} {old phase : Phase} {P : α → Prop}

/-- Only the worker that takes the step gets something else. -/
theorem setPhase_field (hb : b₁.phase = b.phase) (hp : ∀ a, f phase = some a → f (b.phase w) = some a ∨ P a) :
    ∀ v a, f ((b₁.setPhase w phase).phase v) = some a → f (b.phase v) = some a ∨ P a := by
  intro v a hv
  simp only [Broker.setPhase, hb] at hv
  by_cases hvw : v = w
  · subst hvw
    rw [Function.update_self] at hv
    exact hp a hv
  · rw [Function.update_of_ne hvw] at hv
    exact Or.inl hv

/-- The worker goes on with what it has, or needs it no more. -/
theorem setPhase_keep (hb : b₁.phase = b.phase) (hw : b.phase w = old) (hp : f phase = none ∨ f phase = f old) :
    ∀ v a, f ((b₁.setPhase w phase).phase v) = some a → f (b.phase v) = some a := by
  intro v a hv
  refine (setPhase_field (P := fun _ => False) hb (fun a ha => Or.inl ?_) v a hv).resolve_right id
  obtain hp | hp := hp
  · rw [hp] at ha
    cases ha
  · rw [hw, ← hp]
    exact ha

theorem setPhase_same (hb : b₁.phase = b.phase) (hw : b.phase w = old) (hp : f phase = none ∨ f phase = f old) :
    ∀ v a, f ((b₁.setPhase w phase).phase v) = some a → f (b.phase v) = some a ∨ P a :=
  fun v a hv => Or.inl (setPhase_keep hb hw hp v a hv)

theorem setPhase_none (hb : b₁.phase = b.phase) (hp : f phase = none) {v : Nat} {a : α}
    (hv : f ((b₁.setPhase w phase).phase v) = some a) : v ≠ w ∧ f (b.phase v) = some a := by
  simp only [Broker.setPhase, hb] at hv
  by_cases hvw : v = w
  · subst hvw
    rw [Function.update_self, hp] at hv
    cases hv
  · rw [Function.update_of_ne hvw] at hv
    exact ⟨hvw, hv⟩

end Field

/-- There are no workers but those that were started. -/
def OutsideIdle (b : Broker) : Prop := ∀ v, b.numThreads ≤ v → b.phase v = .idle

namespace OutsideIdle

variable {b₁ : Broker} {w : Nat} {old phase : Phase}

theorem lt (h : OutsideIdle b) (hw : b.phase w = old) (hold : old.isIdle = false) : w < b.numThreads := by
  by_contra hle
  rw [h w (not_lt.mp hle)] at hw
  subst hw
  cases hold

theorem setPhase (h : OutsideIdle b) (hb : b₁.phase = b.phase) (hn : b₁.numThreads = b.numThreads)
    (hlt : w < b.numThreads) : OutsideIdle (b₁.setPhase w phase) := by
  intro v hv
  have hv : b.numThreads ≤ v := by rwa [← hn]
  simp only [Broker.setPhase_ne _ _ (show v ≠ w by omega), hb]
  exact h v hv

theorem step (h : OutsideIdle b) (ho : Outcome b e b') : OutsideIdle b' := by
  cases ho with
  | take hw hlt => exact h.setPhase rfl rfl hlt
  | _ => exact h.setPhase rfl rfl (h.lt (by assumption) (by rfl))

end OutsideIdle

theorem Broker.Started.outsideIdle (h : b.Started) : OutsideIdle b := fun v _ => h.phase v

theorem Outcome.boxNames (ho : Outcome b e b') : ∀ v n, (b'.phase v).boxName = some n →
    (b.phase v).boxName = some n ∨ ∃ m : CString, n = newBoxName m ∧ m.strlen ≤ sizeofBoxName := by
  refine ho.field fun _ hm n hn => ?_
  cases hm with
  | take hd =>
      obtain ⟨r, rfl, rfl⟩ := Phase.start_boxName hn
      exact Or.inr ⟨r.boxName, rfl, hd⟩
  | created | removed => exact Or.inl hn
  | _ => cases hn

/-- Every message that is written fits its field. -/
def TextsFit (b : Broker) : Prop := ∀ v m, (b.phase v).message = some m → m.strlen ≤ sizeofText

theorem Broker.Started.textsFit (h : b.Started) : TextsFit b := by
  intro v m hm
  rw [h.phase v] at hm
  cases hm

theorem Outcome.textsFit (ho : Outcome b e b') (h : TextsFit b) : TextsFit b' := by
  have hnew : ∀ v m, (b'.phase v).message = some m → (b.phase v).message = some m ∨ m.strlen ≤ sizeofText := by
    refine ho.field fun _ hmove m hm => ?_
    cases hmove with
    | take =>
        rw [Phase.start_message] at hm
        cases hm
    | readMessage hlen =>
        cases hm
        exact Or.inr hlen
    | _ => cases hm
  intro v m hm
  obtain hold | hlen := hnew v m hm
  · exact h v m hold
  · exact hlen

/-- No handle is closed, and a session gets only a handle that was free. -/
theorem Outcome.handles {L : Layout} (hI : FsInv b.fs L) (ho : Outcome b e b') :
    (∀ i, b.fs.IsOpen i → b'.fs.IsOpen i) ∧ ∀ v h, (b'.phase v).fileHandle = some h →
      (b.phase v).fileHandle = some h ∨ h = -1 ∨ ∃ i : Nat, h = i ∧ ¬ b.fs.IsOpen i ∧ b'.fs.IsOpen i := by
  have hopen : ∀ {name mode h fs}, Fs.tfsOpen b.fs (some name) mode = .ok (h, fs) →
      (∀ i, b.fs.IsOpen i → fs.IsOpen i) ∧ (h = -1 ∨ ∃ i : Nat, h = i ∧ ¬ b.fs.IsOpen i ∧ fs.IsOpen i) := by
    intro name mode h fs he
    obtain ⟨hr, hsame⟩ | ⟨i, hr, -, -, hclosed, hiff⟩ := hI.tfsOpen_effect he
    · exact ⟨fun i hi => hsame.isOpen_iff.mpr hi, Or.inl hr⟩
    · exact ⟨fun j hj => (hiff j).mpr (Or.inr hj), Or.inr ⟨i, hr, hclosed, (hiff i).mpr (Or.inl rfl)⟩⟩
  cases ho with
  | take hw => exact ⟨fun _ => id, setPhase_same rfl hw (Or.inl (by rw [Phase.fileHandle, Phase.start_opened]; rfl))⟩
  | openPub hw he =>
      refine ⟨(hopen he).1, setPhase_field rfl fun h hh => ?_⟩
      cases hh
      exact Or.inr (hopen he).2
  | openSub hw he =>
      refine ⟨(hopen he).1, setPhase_field rfl fun h hh => ?_⟩
      cases hh
      exact Or.inr (hopen he).2
  | openCreate hw he =>
      refine ⟨(hopen he).1, setPhase_same rfl hw (Or.inl ?_)⟩
      split <;> rfl
  | publishFull hw _ _ he | publish hw _ _ he =>
      exact ⟨fun i hi => (hI.tfsWrite_same he).isOpen_iff.mpr hi, setPhase_same rfl hw (Or.inr rfl)⟩
  | readBox hw he | wake hw _ _ _ he =>
      exact ⟨fun i hi => (hI.tfsRead_same he).isOpen_iff.mpr hi, setPhase_same rfl hw (Or.inr rfl)⟩
  | tfsUnlink hw he =>
      refine ⟨fun i hi => (hI.tfsUnlink_same he).isOpen_iff.mpr hi, setPhase_same rfl hw (Or.inl ?_)⟩
      split <;> rfl
  | _ => exact ⟨fun _ => id, setPhase_same (by rfl) (by assumption) (by first | exact Or.inr rfl | exact Or.inl rfl)⟩

end Mbroker.Sessions
