import Mbroker.Sessions.Invariants

/-!
# The handles of the sessions

No case of `worker_thread_func` calls `tfs_close`, and a creation opens a handle too. As long as no creation has
opened one, no handle is open; from then on there is an open handle that belongs to no session.
-/

namespace Mbroker.Sessions

open Mbroker.Lib Mbroker.Fs Mbroker.Protocol

variable {b b' : Broker} {e : Event} {es : List Event}

/-! ## What is stated -/

/-- The open handles are those of the sessions in progress. -/
def HandlesMatch (b : Broker) : Prop :=
  ∀ i, b.fs.IsOpen i ↔ ∃ w, (b.phase w).fileHandle = some (i : Int)

/-- With fewer sessions than handles, a handle is free. -/
def HandleLeft (b : Broker) : Prop :=
  ((Finset.range b.numThreads).filter fun w => (b.phase w).fileHandle.isSome).card < b.fs.maxOpenFiles →
    ∃ i < b.fs.maxOpenFiles, ¬ b.fs.IsOpen i

/-- A creation cannot open a handle: its box name is empty. -/
def CreatesNothing (b : Broker) : Event → Prop
  | .tfsOpen w => match b.phase w with
    | .create name => name.strlen ≤ 1
    | _ => True
  | _ => True

instance (b : Broker) : DecidablePred (CreatesNothing b) := by
  intro e
  induction e using Event.casesOn with
  | tfsOpen w =>
      dsimp only [CreatesNothing]
      induction b.phase w using Phase.casesOn with
      | create name => infer_instance
      | _ => exact isTrue trivial
  | _ => exact isTrue trivial

instance (b : Broker) : Decidable (HandleLeft b) := by unfold HandleLeft; infer_instance

theorem createsNothing_create {w : Nat} {name : CString} (hw : b.phase w = .create name) :
    CreatesNothing b (.tfsOpen w) ↔ name.strlen ≤ 1 := by
  simp only [CreatesNothing, hw]

/-! ## Before and after the first creation -/

/-- Nothing was created yet: the directory is empty, and no handle is open. -/
structure Fresh (b : Broker) : Prop where
  inv : FsInv b.fs Layout.empty
  params : b.fs.fsParams = tfsDefaultParams
  closed : ∀ i, ¬ b.fs.IsOpen i
  handles : ∀ w h, (b.phase w).fileHandle = some h → h = -1
  names : ∀ w n, (b.phase w).boxName = some n → ∃ m : CString, n = newBoxName m ∧ m.strlen ≤ sizeofBoxName

/-- A handle is open that no session has. -/
def Orphan (b : Broker) : Prop :=
  (∃ L, FsInv b.fs L) ∧ ∃ i, b.fs.IsOpen i ∧ ∀ w, (b.phase w).fileHandle ≠ some (i : Int)

theorem Broker.Started.fresh (h : b.Started) : Fresh b where
  inv := h.initialised.inv
  params := h.initialised.params
  closed := h.initialised.noHandle
  handles := fun w fh hw => by
    rw [h.phase w] at hw
    cases hw
  names := fun w n hw => by
    rw [h.phase w] at hw
    cases hw

namespace Fresh

theorem tfsOpen_eq (h : Fresh b) {name : CString} {mode : Nat} {res : Int × State}
    (hmode : hasFlag mode tfsOCreat = false ∨ name.strlen ≤ 1) (he : Fs.tfsOpen b.fs (some name) mode = .ok res) :
    res = (-1, b.fs) := by
  obtain ⟨res', he', ho⟩ := h.inv.tfsOpen_outcome (some name) mode
  rw [he] at he'
  cases he'
  have hvalid : validPathname name = true → 1 < name.strlen := by
    intro hp
    simp only [validPathname, decide_eq_true_eq] at hp
    exact hp.1
  cases ho with
  | invalid hp => rfl
  | absent hp hn hc => rfl
  | noInode hp hn hc hk => rfl
  | noEntry hp hn hc hk hfull =>
      obtain hm | hm := hmode
      · rw [hm] at hc
        cases hc
      · exact absurd (hvalid hp) (by omega)
  | existing hp hn ht => exact absurd hn (by simp [Layout.empty])
  | truncated hp hn ht hsize => exact absurd hn (by simp [Layout.empty])
  | created hp hn hc hk hlen hi =>
      obtain hm | hm := hmode
      · rw [hm] at hc
        cases hc
      · exact absurd (hvalid hp) (by omega)

theorem closed_handle (h : Fresh b) {w : Nat} {fh : Int} (hw : (b.phase w).fileHandle = some fh) :
    getOpenFileEntry b.fs fh = none := by
  rw [h.handles w fh hw]
  rfl

theorem fs_eq (h : Fresh b) (hg : CreatesNothing b e) (ho : Outcome b e b') : b'.fs = b.fs := by
  cases ho with
  | openPub hw he => exact congrArg Prod.snd (h.tfsOpen_eq (Or.inl rfl) he)
  | openSub hw he => exact congrArg Prod.snd (h.tfsOpen_eq (Or.inl rfl) he)
  | openCreate hw he =>
      exact congrArg Prod.snd (h.tfsOpen_eq (Or.inr ((createsNothing_create hw).mp hg)) he)
  | publishFull hw _ _ he | publish hw _ _ he =>
      simp only [tfsWrite, h.closed_handle (by rw [hw]; rfl)] at he
      cases he
      rfl
  | readBox hw he | wake hw _ _ _ he =>
      simp only [tfsRead, h.closed_handle (by rw [hw]; rfl)] at he
      cases he
      rfl
  | tfsUnlink hw he =>
      obtain ⟨res, he', hu⟩ := h.inv.tfsUnlink_outcome _
      rw [he] at he'
      cases he'
      cases hu with
      | invalid hp => rfl
      | absent hp hn => rfl
      | removed hp hn => exact absurd hn (by simp [Layout.empty])
  | _ => rfl

theorem step (h : Fresh b) (hg : CreatesNothing b e) (ho : Outcome b e b') : Fresh b' := by
  have hfs := h.fs_eq hg ho
  refine ⟨by rw [hfs]; exact h.inv, by rw [hfs]; exact h.params, by rw [hfs]; exact h.closed, ?_, ?_⟩
  · intro v fh hv
    obtain hold | hnew | ⟨i, -, hclosed, hopen⟩ := (ho.handles h.inv).2 v fh hv
    · exact h.handles v fh hold
    · exact hnew
    · rw [hfs] at hopen
      exact absurd hopen hclosed
  · intro v n hv
    obtain hold | hnew := ho.boxNames v n hv
    · exact h.names v n hold
    · exact hnew

/-- The directory, the inodes and the handles of a fresh file system have room for a file. -/
theorem tfsOpen_created (h : Fresh b) {name : CString} {res : Int × State}
    (hname : ∃ m : CString, name = newBoxName m ∧ m.strlen ≤ sizeofBoxName) (hlong : 1 < name.strlen)
    (he : Fs.tfsOpen b.fs (some name) tfsOCreat = .ok res) : ∃ i : Nat, res.1 = i ∧ b.fs.OpensHandle res.2 i := by
  obtain hfull | hopen := h.inv.tfsOpen_effect he
  swap
  · exact hopen
  obtain ⟨res', he', ho⟩ := h.inv.tfsOpen_outcome (some name) tfsOCreat
  rw [he] at he'
  cases he'
  obtain ⟨m, rfl, hm⟩ := hname
  have hvalid : validPathname (newBoxName m) = true := by
    simp only [validPathname, decide_eq_true_eq]
    exact ⟨hlong, rfl⟩
  cases ho with
  | invalid hp => rw [hvalid] at hp; cases hp
  | absent hp hn hc => cases hc
  | noInode hp hn hc hk =>
      have hcard := h.inv.root.inodes_full_iff.mp hk
      rw [State.inodeTableSize, h.params] at hcard
      cases hcard
  | noEntry hp hn hc hk hroom =>
      obtain hlen | hdir := hroom
      · have hm : (newBoxName m).tail.strlen ≤ sizeofBoxName := hm
        have hmax : sizeofBoxName = 32 := rfl
        have hmax' : maxFileName = 40 := rfl
        omega
      · have hcard := h.inv.root.dir_full_iff.mp hdir
        rw [State.maxDirEntries, State.blockSize, h.params] at hcard
        cases hcard
  | existing hp hn ht => exact absurd hn (by simp [Layout.empty])
  | truncated hp hn ht hsize => exact absurd hn (by simp [Layout.empty])
  | @created _ k i hp hn hc hk hlen hi =>
      have hret := hfull.1
      rw [addToOpenFileTable_eq] at hret
      split at hret
      · simp only at hret
        omega
      · rename_i hnone
        have hpos : 0 < b.fs.maxOpenFiles := by
          rw [State.maxOpenFiles, h.params]
          decide
        exact absurd ⟨hpos, firstFree_eq_none.mp hnone 0 hpos⟩ (h.closed 0)

/-- The first creation of a box opens a handle that it does not keep. -/
theorem orphan (h : Fresh b) (hg : ¬ CreatesNothing b e) (ho : Outcome b e b') : Orphan b' := by
  refine ⟨ho.fsInv ⟨_, h.inv⟩, ?_⟩
  cases ho with
  | @openCreate w name fh fs hw he =>
      have hlong : 1 < name.strlen := not_le.mp (mt (createsNothing_create hw).mpr hg)
      obtain ⟨i, rfl, -, -, hclosed, hopen⟩ := h.tfsOpen_created (h.names w name (by rw [hw]; rfl)) hlong he
      refine ⟨i, (hopen i).mpr (Or.inl rfl), fun v hv => ?_⟩
      have := h.handles v _ (setPhase_keep rfl hw (Or.inl (by split <;> rfl)) v _ hv)
      omega
  | openPub hw | openSub hw => exact absurd (by simp only [CreatesNothing, hw]) hg
  | _ => exact absurd trivial hg

end Fresh

/-! ## Runs -/

theorem Orphan.step (h : Orphan b) (ho : Outcome b e b') : Orphan b' := by
  obtain ⟨⟨L, hI⟩, i, hi, hw⟩ := h
  obtain ⟨hopen, hnew⟩ := ho.handles hI
  refine ⟨ho.fsInv ⟨L, hI⟩, i, hopen i hi, fun w hw' => ?_⟩
  obtain hold | hnone | ⟨j, hj, hclosed, -⟩ := hnew w i hw'
  · exact hw w hold
  · omega
  · cases hj
    exact hclosed hi

theorem Orphan.not_match (h : Orphan b) : ¬ HandlesMatch b := by
  obtain ⟨-, i, hi, hw⟩ := h
  intro hm
  obtain ⟨w, hw'⟩ := (hm i).mp hi
  exact hw w hw'

theorem Fresh.handlesMatch (h : Fresh b) : HandlesMatch b := by
  intro i
  constructor
  · intro hi
    exact absurd hi (h.closed i)
  · rintro ⟨w, hw⟩
    have := h.handles w i hw
    omega

theorem Fresh.handleLeft (h : Fresh b) : HandleLeft b := by
  intro hlt
  exact ⟨0, by omega, h.closed 0⟩

/-- Either nothing was created, or there is an open handle without a session. -/
theorem Fresh.run (h : Fresh b) (hrun : Steps Step b es b') :
    Fresh b' ∧ Steps (Guarded CreatesNothing Step) b es b' ∨ Orphan b' :=
  hrun.guarded_or_trap (fun _ _ _ h hg hs => h.step hg hs.outcome) (fun _ _ _ h hg hs => h.orphan hg hs.outcome)
    (fun _ _ _ h hs => h.step hs.outcome) h

end Mbroker.Sessions
