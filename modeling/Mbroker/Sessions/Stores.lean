import Mbroker.Protocol.BoxNames
import Mbroker.Sessions.Invariants

/-!
# The list of boxes and the directory

Requests handled one at a time. Between the TecnicoFS call and the change of the list, a creation or removal has
changed the directory only; what it still has to do to the list is its pending change.
-/

namespace Mbroker.Sessions

open Mbroker.Lib Mbroker.Fs Mbroker.Protocol

variable {b b' : Broker} {e : Event} {es : List Event}

/-! ## What is stated -/

/-- No request is being handled. -/
def Broker.AllIdle (b : Broker) : Prop := ∀ w < b.numThreads, (b.phase w).isIdle = true

instance (b : Broker) : Decidable b.AllIdle := by unfold Broker.AllIdle; infer_instance

/-- The names in the list are those of the directory, each behind a slash. -/
def SameNames (ns : List CString) (D : List UInt8 → Prop) : Prop :=
  ns.Nodup ∧ ∀ n : CString, n ∈ ns ↔ ∃ m, D m ∧ n.chars = slash :: m

def StoresAgree (b : Broker) : Prop :=
  (∃ ps, b.boxList.Holds ps) ∧ SameNames b.boxList.boxNames (· ∈ b.fs.liveNames)

/-- A request is taken only when no other one is being handled, and its box name has at most 30 characters. -/
def OneByOne (b : Broker) : Event → Prop
  | .take _ (.request r) => b.AllIdle ∧ r.boxName.strlen ≤ 30
  | .take _ _ => b.AllIdle
  | _ => True

/-- A file could not be made, for want of an inode or of an entry. -/
def NoRoom (s : State) : Prop :=
  firstFree s.freeinodeTs s.inodeTableSize = none ∨
    firstIndex (fun i => (s.dirEntry s.rootPtr i).dInumber = -1) s.maxDirEntries = none

/-- A creation is given no handle for a file that is there already, and gets one for a file that it makes. -/
def CreatesBox (b : Broker) : Event → Prop
  | .tfsOpen w => match b.phase w with
    | .create name => validPathname name →
        if name.tail.chars ∈ b.fs.liveNames then ∀ i < b.fs.maxOpenFiles, b.fs.IsOpen i
        else (∃ i < b.fs.maxOpenFiles, ¬ b.fs.IsOpen i) ∨ NoRoom b.fs
    | _ => True
  | _ => True

instance (b : Broker) : DecidablePred (OneByOne b) := by
  intro e
  induction e using Event.casesOn with
  | take w d =>
      induction d using Dispatch.Decoded.casesOn with
      | request r => exact inferInstanceAs (Decidable (b.AllIdle ∧ r.boxName.strlen ≤ 30))
      | _ => exact inferInstanceAs (Decidable b.AllIdle)
  | _ => exact isTrue trivial

instance (s : State) : Decidable (NoRoom s) := by unfold NoRoom; infer_instance

instance (b : Broker) : DecidablePred (CreatesBox b) := by
  intro e
  induction e using Event.casesOn with
  | tfsOpen w =>
      dsimp only [CreatesBox]
      induction b.phase w using Phase.casesOn with
      | create name => infer_instance
      | _ => exact isTrue trivial
  | _ => exact isTrue trivial

/-! ## Pending changes -/

/-- What the request at hand still has to do to the list. -/
inductive Pending
  | nothing
  | insert (n : CString)
  | delete (n : CString)

def Phase.pending : Phase → Pending
  | .created n => .insert n
  | .removed n => .delete n
  | _ => .nothing

def Pending.apply : Pending → List CString → List CString
  | .nothing, ns => ns
  | .insert n, ns => n :: ns
  | .delete n, ns => ns.erase n

theorem Phase.start_pending (d : Dispatch.Decoded) : (Phase.start d).pending = .nothing :=
  Phase.start_of (P := fun p => p.pending = .nothing) rfl (fun _ => rfl) (fun _ => rfl) (fun _ => rfl) (fun _ => rfl)
    rfl d

/-! ## Steps that the stores do not see -/

/-- The worker is idle, or at a creation or a removal. -/
def Phase.storing : Phase → Bool
  | .idle | .create _ | .created _ | .remove _ | .removed _ => true
  | _ => false

theorem Broker.storing_eq {w : Nat} {phase : Phase} (hw : b.phase w = phase) (h : phase.storing = false) :
    (b.phase w).storing = false := by
  rw [hw]
  exact h

theorem Phase.of_storing {phase : Phase} (h : phase.storing = false) :
    phase.isIdle = false ∧ phase.pending = .nothing := by
  cases phase with
  | idle | create | created | remove | removed => cases h
  | _ => exact ⟨rfl, rfl⟩

/-- The directory has the names that it had, and the list the boxes. -/
structure Unseen (b b₁ : Broker) (L L' : Layout) (ps : List Nat) (ns : List CString) : Prop where
  phase : b₁.phase = b.phase
  numThreads : b₁.numThreads = b.numThreads
  inv : FsInv b₁.fs L'
  layout : L'.names = L.names
  holds : b₁.boxList.Holds ps
  names : b₁.boxList.Names ps ns

/-- All other workers leave the stores as they are. -/
theorem Outcome.unseen {L : Layout} {ps : List Nat} {ns : List CString} (ho : Outcome b e b')
    (hw : (b.phase e.worker).storing = false) (hI : FsInv b.fs L) (hholds : b.boxList.Holds ps)
    (hnames : b.boxList.Names ps ns) : ∃ L' b₁ phase, b' = b₁.setPhase e.worker phase ∧ Unseen b b₁ L L' ps ns ∧
      phase.boxName = none ∧ phase.pending = .nothing := by
  cases ho with
  | take hv | openCreate hv | tfsUnlink hv | insert hv | deleteBox hv =>
      dsimp only [Event.worker] at hw
      rw [hv] at hw
      cases hw
  | openPub _ he | openSub _ he =>
      obtain ⟨L', hinv, hsame | ⟨hc, -⟩⟩ := hI.tfsOpen_names he
      · exact ⟨L', _, _, rfl, ⟨rfl, rfl, hinv, hsame, hholds, hnames⟩, rfl, rfl⟩
      · cases hc
  | publishFull _ hbox _ he | publish _ hbox _ he =>
      exact ⟨L, _, _, rfl, ⟨rfl, rfl, hI.tfsWrite_inv he, rfl, hholds.setBox hbox rfl, hnames.setBox hbox rfl⟩, rfl,
        rfl⟩
  | readBox _ he | wake _ _ _ _ he =>
      exact ⟨L, _, _, rfl, ⟨rfl, rfl, hI.tfsRead_inv he, rfl, hholds, hnames⟩, rfl, rfl⟩
  | setPublishers _ hbox | countSubscriber _ hbox | sample _ hbox | resetPublishers _ hbox
  | uncountSubscriber _ hbox =>
      exact ⟨L, _, _, rfl, ⟨rfl, rfl, hI, rfl, hholds.setBox hbox rfl, hnames.setBox hbox rfl⟩, rfl, rfl⟩
  | lockList | unlockList =>
      exact ⟨L, _, _, rfl, ⟨rfl, rfl, hI, rfl, ⟨hholds.seg, hholds.allocated⟩, hnames⟩, rfl, rfl⟩
  | _ => exact ⟨L, _, _, rfl, ⟨rfl, rfl, hI, rfl, hholds, hnames⟩, rfl, rfl⟩

/-! ## One request at a time -/

/-- Only the worker `w` may be handling a request, and the list is the directory but for what it has pending. -/
structure Alone (b : Broker) (w : Nat) (L : Layout) (ps : List Nat) (ns : List CString) : Prop where
  others : ∀ v, v ≠ w → b.phase v = .idle
  outside : ∀ v, b.numThreads ≤ v → b.phase v = .idle
  inv : FsInv b.fs L
  holds : b.boxList.Holds ps
  names : b.boxList.Names ps ns
  short : ∀ n, (b.phase w).boxName = some n → ∃ m : CString, n = newBoxName m ∧ m.strlen ≤ 30
  agree : SameNames ((b.phase w).pending.apply ns) (· ∈ L.names)

theorem Broker.Started.alone (h : b.Started) : Alone b 0 Layout.empty [] [] where
  others := fun v _ => h.phase v
  outside := fun v _ => h.phase v
  inv := h.initialised.inv
  holds := by rw [h.boxList]; exact BoxList.empty_holds
  names := by rw [h.boxList]; exact BoxList.empty_names
  short := fun n hn => by
    rw [h.phase 0] at hn
    cases hn
  agree := by
    rw [h.phase 0]
    exact ⟨List.nodup_nil, by simp [Pending.apply, Phase.pending, Layout.empty]⟩

theorem Broker.AllIdle.phase (h : b.AllIdle) (hout : OutsideIdle b) (v : Nat) : b.phase v = .idle := by
  by_cases hv : v < b.numThreads
  · have hidle := h v hv
    cases hp : b.phase v with
    | idle => rfl
    | _ =>
        rw [hp] at hidle
        cases hidle
  · exact hout v (not_lt.mp hv)

/-- Only the worker `w` may be handling a request. -/
def OthersIdle (b : Broker) (w : Nat) : Prop := ∀ v, v ≠ w → b.phase v = .idle

theorem OthersIdle.eq_of_busy {w v : Nat} {old : Phase} (h : OthersIdle b w) (hv : b.phase v = old)
    (hold : old.isIdle = false) : v = w := by
  by_contra hne
  rw [h v hne] at hv
  subst hv
  cases hold

theorem OthersIdle.setPhase {w : Nat} {b₁ : Broker} {phase : Phase} (h : OthersIdle b w) (hb : b₁.phase = b.phase) :
    OthersIdle (b₁.setPhase w phase) w := by
  intro v hv
  simp only [Broker.setPhase_ne _ _ hv, hb]
  exact h v hv

namespace Alone

variable {w v : Nat} {L L' : Layout} {ps ps' : List Nat} {ns ns' : List CString}

theorem othersIdle (h : Alone b w L ps ns) : OthersIdle b w := h.others

theorem outsideIdle (h : Alone b w L ps ns) : OutsideIdle b := h.outside

theorem busy (h : Alone b w L ps ns) {old : Phase} (hv : b.phase v = old) (hold : old.isIdle = false) :
    v = w ∧ v < b.numThreads :=
  ⟨h.othersIdle.eq_of_busy hv hold, h.outsideIdle.lt hv hold⟩

theorem next (h : Alone b w L ps ns) {b₁ : Broker} {phase : Phase} (hb : b₁.phase = b.phase)
    (hthreads : b₁.numThreads = b.numThreads) (hlt : w < b.numThreads) (hinv : FsInv b₁.fs L')
    (hholds : b₁.boxList.Holds ps') (hnames : b₁.boxList.Names ps' ns')
    (hshort : ∀ n, phase.boxName = some n → ∃ m : CString, n = newBoxName m ∧ m.strlen ≤ 30)
    (hagree : SameNames (phase.pending.apply ns') (· ∈ L'.names)) : Alone (b₁.setPhase w phase) w L' ps' ns' where
  others := h.othersIdle.setPhase hb
  outside := h.outsideIdle.setPhase hb hthreads hlt
  inv := hinv
  holds := hholds
  names := hnames
  short := fun n hn => by
    simp only [Broker.setPhase_self] at hn
    exact hshort n hn
  agree := by
    simp only [Broker.setPhase_self]
    exact hagree

theorem plain (h : Alone b w L ps ns) {b₁ : Broker} {old phase : Phase} (hv : b.phase v = old)
    (hold : old.isIdle = false) (hp : old.pending = .nothing) (hb : b₁.phase = b.phase)
    (hthreads : b₁.numThreads = b.numThreads) (hinv : FsInv b₁.fs L') (hL : L'.names = L.names)
    (hholds : b₁.boxList.Holds ps) (hnames : b₁.boxList.Names ps ns) (hn : phase.boxName = none)
    (hp' : phase.pending = .nothing) :
    ∃ w L ps ns, Alone (b₁.setPhase v phase) w L ps ns := by
  obtain ⟨rfl, hlt⟩ := h.busy hv hold
  have hagree := h.agree
  rw [hv, hp] at hagree
  refine ⟨v, L', ps, ns, h.next hb hthreads hlt hinv hholds hnames (fun n hn' => ?_) ?_⟩
  · rw [hn] at hn'
    cases hn'
  · rw [hp', hL]
    exact hagree

theorem switch (h : Alone b w L ps ns) (hidle : b.AllIdle) (v : Nat) : Alone b v L ps ns := by
  have hall := hidle.phase h.outsideIdle
  refine ⟨fun x _ => hall x, h.outside, h.inv, h.holds, h.names, fun n hn => ?_, ?_⟩
  · rw [hall v] at hn
    cases hn
  · rw [hall v, ← hall w]
    exact h.agree

end Alone

/-! ## Names with a slash -/

namespace SameNames

variable {ns : List CString} {D : Finset (List UInt8)} {p : CString}

theorem created (h : SameNames ns (· ∈ D)) (hp : validPathname p = true) (hn : p.tail.chars ∉ D) :
    SameNames (p :: ns) (· ∈ insert p.tail.chars D) := by
  obtain ⟨hnodup, hiff⟩ := h
  refine ⟨List.nodup_cons.mpr ⟨fun hmem => ?_, hnodup⟩, fun n => ?_⟩
  · obtain ⟨m, hm, hchars⟩ := (hiff p).mp hmem
    rw [slash_tail hp] at hchars
    cases hchars
    exact hn hm
  · rw [List.mem_cons, hiff n]
    constructor
    · rintro (rfl | ⟨m, hm, hchars⟩)
      · exact ⟨_, Finset.mem_insert_self _ _, slash_tail hp⟩
      · exact ⟨m, Finset.mem_insert_of_mem hm, hchars⟩
    · rintro ⟨m, hm, hchars⟩
      rcases Finset.mem_insert.mp hm with rfl | hm
      · exact Or.inl (eq_of_slash hp hchars)
      · exact Or.inr ⟨m, hm, hchars⟩

theorem removed (h : SameNames ns (· ∈ D)) (hp : validPathname p = true) :
    SameNames (ns.erase p) (· ∈ D.erase p.tail.chars) := by
  obtain ⟨hnodup, hiff⟩ := h
  refine ⟨hnodup.erase p, fun n => ?_⟩
  rw [hnodup.mem_erase_iff, hiff n]
  constructor
  · rintro ⟨hne, m, hm, hchars⟩
    refine ⟨m, Finset.mem_erase.mpr ⟨?_, hm⟩, hchars⟩
    rintro rfl
    exact hne (eq_of_slash hp hchars)
  · rintro ⟨m, hm, hchars⟩
    obtain ⟨hne, hm⟩ := Finset.mem_erase.mp hm
    refine ⟨?_, m, hm, hchars⟩
    rintro rfl
    rw [slash_tail hp] at hchars
    cases hchars
    exact hne rfl

end SameNames

/-! ## Creations -/

/-- A creation that meets the condition puts a name into the directory exactly if it gets a handle. -/
theorem CreatesBox.tfsOpen {w : Nat} {L : Layout} {name : CString} {res : Int × State} (hg : CreatesBox b (.tfsOpen w))
    (hw : b.phase w = .create name) (hI : FsInv b.fs L) (he : Fs.tfsOpen b.fs (some name) tfsOCreat = .ok res) :
    ∃ L', FsInv res.2 L' ∧ (res.1 = -1 ∧ L'.names = L.names ∨
      res.1 ≠ -1 ∧ validPathname name = true ∧ name.tail.chars ∉ L.names ∧
        L'.names = insert name.tail.chars L.names) := by
  simp only [CreatesBox, hw, hI.root.mem_liveNames] at hg
  obtain ⟨res, he', ho⟩ := hI.tfsOpen_outcome (some name) tfsOCreat
  rw [he] at he'
  cases he'
  cases ho with
  | invalid hp => exact ⟨L, hI, Or.inl ⟨rfl, rfl⟩⟩
  | absent hp hn hc => exact ⟨L, hI, Or.inl ⟨rfl, rfl⟩⟩
  | noInode hp hn hc hk => exact ⟨L, hI, Or.inl ⟨rfl, rfl⟩⟩
  | noEntry hp hn hc hk hfull => exact ⟨L, hI.resetInode hk, Or.inl ⟨rfl, rfl⟩⟩
  | truncated hp hn ht hsize => cases ht
  | existing hp hn ht =>
      have hall := hg hp
      rw [if_pos hn] at hall
      rw [State.addToOpenFileTable_full hall]
      exact ⟨L, hI, Or.inl ⟨rfl, rfl⟩⟩
  | @created _ k i hp hn hc hk hlen hi =>
      have hroom := hg hp
      rw [if_neg hn] at hroom
      obtain ⟨j, hj, hclosed⟩ | hfull | hfull := hroom
      · have hret : (addToOpenFileTable (b.fs.createFile i k name.tail) k 0).1 ≠ -1 :=
          State.addToOpenFileTable_room (s := b.fs.createFile i k name.tail) hj hclosed k 0
        exact ⟨_, hI.created hp hn hk hlen hi, Or.inr ⟨hret, hp, hn, rfl⟩⟩
      · rw [hk] at hfull
        cases hfull
      · rw [hi] at hfull
        cases hfull

/-! ## Steps -/

namespace Alone

variable {w : Nat} {L : Layout} {ps : List Nat} {ns : List CString}

/-- The creation of a box that meets the condition puts a name into the directory exactly if it goes on to put
it into the list. -/
theorem openCreate (h : Alone b w L ps ns) {v : Nat} {name : CString} {res : Int × State}
    (hv : b.phase v = .create name) (he : Fs.tfsOpen b.fs (some name) tfsOCreat = .ok res)
    (hg : CreatesBox b (.tfsOpen v)) : ∃ w L ps ns, Alone
      ({ b with fs := res.2 }.setPhase v (if res.1 = -1 then .responding createError else .created name))
        w L ps ns := by
  obtain ⟨rfl, hlt⟩ := h.busy hv rfl
  have hagree := h.agree
  have hshort := h.short
  rw [hv] at hagree hshort
  obtain ⟨L', hinv, ⟨hr, hnames⟩ | ⟨hr, hp, hn, hnames⟩⟩ := hg.tfsOpen hv h.inv he
  · refine ⟨v, L', ps, ns, h.next rfl rfl hlt hinv h.holds h.names ?_ ?_⟩
    · rw [if_pos hr]
      nofun
    · rw [if_pos hr, hnames]
      exact hagree
  · refine ⟨v, L', ps, ns, h.next rfl rfl hlt hinv h.holds h.names ?_ ?_⟩
    · rw [if_neg hr]
      exact hshort
    · rw [if_neg hr, hnames]
      exact SameNames.created hagree hp hn

/-- A removal takes the name out of the directory, and goes on to take it out of the list. -/
theorem tfsUnlink (h : Alone b w L ps ns) {v : Nat} {name : CString} {res : Int × State}
    (hv : b.phase v = .remove name) (he : Fs.tfsUnlink b.fs (some name) = .ok res) : ∃ w L ps ns, Alone
      ({ b with fs := res.2 }.setPhase v (if res.1 = -1 then .responding removeError else .removed name))
        w L ps ns := by
  obtain ⟨rfl, hlt⟩ := h.busy hv rfl
  have hagree := h.agree
  have hshort := h.short
  rw [hv] at hagree hshort
  obtain ⟨L', hinv, ⟨hr, hnames⟩ | ⟨hr, hp, hn, hnames⟩⟩ := h.inv.tfsUnlink_names he
  · refine ⟨v, L', ps, ns, h.next rfl rfl hlt hinv h.holds h.names ?_ ?_⟩
    · rw [if_pos hr]
      nofun
    · rw [if_pos hr, hnames]
      exact hagree
  · have hne : ¬ res.1 = -1 := by omega
    refine ⟨v, L', ps, ns, h.next rfl rfl hlt hinv h.holds h.names ?_ ?_⟩
    · rw [if_neg hne]
      exact hshort
    · rw [if_neg hne, hnames]
      exact SameNames.removed hagree hp

theorem step (h : Alone b w L ps ns) (hone : OneByOne b e) (hg : CreatesBox b e) (ho : Outcome b e b') :
    ∃ w L ps ns, Alone b' w L ps ns := by
  by_cases hstoring : (b.phase e.worker).storing = false
  · obtain ⟨L', b₁, phase, rfl, hu, hn, hp⟩ := ho.unseen hstoring h.inv h.holds h.names
    obtain ⟨hbusy, hnothing⟩ := Phase.of_storing hstoring
    exact h.plain rfl hbusy hnothing hu.phase hu.numThreads hu.inv hu.layout hu.holds hu.names hn hp
  cases ho with
  | @take v d hv hlt hd =>
      have hidle : b.AllIdle := by
        cases d with
        | request r => exact hone.1
        | listing path => exact hone
        | unknown code => exact hone
      have h' := h.switch hidle v
      have hagree := h'.agree
      rw [hv] at hagree
      refine ⟨v, L, ps, ns, h'.next rfl rfl hlt h.inv h.holds h.names (fun n hn => ?_) ?_⟩
      · obtain ⟨r, rfl, rfl⟩ := Phase.start_boxName hn
        exact ⟨r.boxName, rfl, hone.2⟩
      · rw [Phase.start_pending]
        exact hagree
  | openCreate hv he => exact h.openCreate hv he hg
  | tfsUnlink hv he => exact h.tfsUnlink hv he
  | @insert v name addr contents hv hfree hlock =>
      obtain ⟨rfl, hlt⟩ := h.busy hv rfl
      have hagree := h.agree
      rw [hv] at hagree
      obtain ⟨m, rfl, hm⟩ := h.short name (by rw [hv]; rfl)
      have hlen : (newBoxName m).strlen < sizeofBoxName := by
        have hcons : (newBoxName m).strlen = m.strlen + 1 := rfl
        have hmax : sizeofBoxName = 32 := rfl
        omega
      exact ⟨v, L, _, _, h.next rfl rfl hlt h.inv (h.holds.insert hfree) (h.names.insert hfree hlen) nofun hagree⟩
  | @deleteBox v name list hv hlock he =>
      obtain ⟨rfl, hlt⟩ := h.busy hv rfl
      have hagree := h.agree
      rw [hv] at hagree
      obtain ⟨list', he', hholds, hsame⟩ := @BoxList.Holds.deleteBox _ _ name h.holds
      rw [he] at he'
      cases he'
      exact ⟨v, L, _, _, h.next rfl rfl hlt h.inv hholds (h.names.deleteBox hsame) nofun hagree⟩
  | _ =>
      dsimp only [Event.worker] at hstoring
      exact absurd (Broker.storing_eq (by assumption) (by rfl)) hstoring

theorem storesAgree (h : Alone b w L ps ns) (hidle : b.AllIdle) : StoresAgree b := by
  have hagree := h.agree
  rw [hidle.phase h.outsideIdle w] at hagree
  refine ⟨⟨ps, h.holds⟩, ?_⟩
  rw [h.names.boxNames_eq h.holds]
  exact ⟨hagree.1, fun n => (hagree.2 n).trans (by simp only [h.inv.root.mem_liveNames])⟩

end Alone

end Mbroker.Sessions
