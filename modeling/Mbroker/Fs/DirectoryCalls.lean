import Mbroker.Fs.Lemmas.Handles

/-!
# The calls of add_dir_entry and clear_dir_entry

What the two functions that change the root directory are called with and return, and the names that follow from
their results alone: `find_in_dir` finds these names and no others.
-/

namespace Mbroker.Fs

open Mbroker.Lib

variable {s s' : State} {L : Layout}

/-! ## The calls and their results -/

/-- A call of `add_dir_entry` or `clear_dir_entry` on the root directory, with its result. -/
inductive DirCall
  | add (subName : CString) (subInumber : Int) (r : Int)
  | clear (subName : CString) (r : Int)

def tfsOpenDirCalls (s : State) (name : Option CString) (mode : Nat) : Except Fault (List DirCall) := do
  let some name := name | return []
  if !validPathname name then return []
  let root ← inodeGet s rootDirInum
  let inum ← tfsLookup s name root
  if 0 ≤ inum then return []
  else if hasFlag mode tfsOCreat then
    let (inum, s) ← inodeCreate s .file
    if inum = -1 then return []
    let (r, _) ← addDirEntry s root name.tail inum
    return [.add name.tail inum r]
  else return []

def tfsUnlinkDirCalls (s : State) (target : Option CString) : Except Fault (List DirCall) := do
  let some target := target | return []
  if !validPathname target then return []
  let root ← inodeGet s rootDirInum
  let inum ← tfsLookup s target root
  if inum = -1 then return []
  let s ← inodeDelete s inum
  let (r, _) ← clearDirEntry s root target.tail
  return [.clear target.tail r]

/-- The calls of the two functions in a call, in their order. -/
def dirCalls (s : State) : Call → Except Fault (List DirCall)
  | .open name mode => tfsOpenDirCalls s name mode
  | .unlink target => tfsUnlinkDirCalls s target
  | _ => .ok []

/-- The names that were added and not cleared since, each with the inode it was added with. -/
abbrev Added := List UInt8 → Option Int

/-- Only a call that succeeded adds or clears its name. -/
def Added.after (d : Added) : DirCall → Added
  | .add subName subInumber r => if r = -1 then d else Function.update d subName.chars (some subInumber)
  | .clear subName r => if r = -1 then d else Function.update d subName.chars none

/-- A call that returns, with the names that its calls of the two functions leave. -/
def NamedStep (x : State × Added) (c : Call) (x' : State × Added) : Prop :=
  Step x.1 c x'.1 ∧ ∃ calls, dirCalls x.1 c = .ok calls ∧ x'.2 = calls.foldl Added.after x.2

/-! ## The properties -/

/-- `find_in_dir` finds the names of `d`, each with its inode, and no others. -/
def FindsAdded (s : State) (d : Added) : Prop :=
  ∀ name : CString, findInDir s 0 name = .ok ((d name.chars).getD (-1)) ∧ d name.chars ≠ some (-1)

/-- The entry `i` of the root directory is cleared, and no other entry is changed. -/
structure ClearedOnly (s s' : State) (i : Nat) : Prop where
  lt : i < s.maxDirEntries
  live : (s.rootEntry i).dInumber ≠ -1
  cleared : (s'.rootEntry i).dInumber = -1 ∧ ∀ x < maxFileName, (s'.rootEntry i).dName x = 0
  others : ∀ j < s.maxDirEntries, j ≠ i → (s'.rootEntry j).dInumber = (s.rootEntry j).dInumber ∧
    ∀ x < maxFileName, (s'.rootEntry j).dName x = (s.rootEntry j).dName x

/-- When `tfs_unlink` finds its target, `clear_dir_entry` clears the entry that `find_in_dir` found, and only that. -/
def ClearsFound (s : State) (p : CString) : Prop :=
  ∀ inum, tfsLookup s p 0 = .ok inum → inum ≠ -1 → ∃ i s₁ s₂, s.foundAt p.tail = some i ∧
    (s.rootEntry i).dInumber = inum ∧ inodeDelete s inum = .ok s₁ ∧ clearDirEntry s₁ 0 p.tail = .ok (0, s₂) ∧
    tfsUnlink s (some p) = .ok (0, s₂) ∧ ClearedOnly s s₂ i

/-! ## The names of a layout -/

/-- The names of `d` are those of the layout, with their inodes. -/
def Added.Lists (d : Added) (L : Layout) : Prop := ∀ n, d n = if n ∈ L.names then some (L.ino n : Int) else none

namespace Added.Lists

variable {d : Added}

theorem empty : Added.Lists (fun _ => none) Layout.empty := fun n => by simp [Layout.empty]

theorem insert (h : d.Lists L) (n : List UInt8) (i k : Nat) :
    Added.Lists (Function.update d n (some (k : Int))) (L.insert n i k) := by
  intro m
  by_cases hm : m = n
  · simp [hm]
  · simp [hm, h m, Layout.insert_ino_ne hm]

theorem erase (h : d.Lists L) (n : List UInt8) : Added.Lists (Function.update d n none) (L.erase n) := by
  intro m
  by_cases hm : m = n
  · simp [hm]
  · simp [hm, h m, Layout.erase]

theorem findsAdded (h : d.Lists L) (hr : RootOk s L) : FindsAdded s d := by
  intro name
  rw [hr.findInDir_eq, h name.chars]
  by_cases hn : name.chars ∈ L.names
  · simp only [hn, ↓reduceIte, Option.getD_some, ne_eq, Option.some.injEq, true_and]
    omega
  · simp [hn]

end Added.Lists

/-! ## One call -/

namespace FsInv

variable {d : Added}

/-- The calls of `tfs_open` add the name of the file that it creates, and no other. -/
theorem open_named (h : FsInv s L) (hd : d.Lists L) {name : Option CString} {mode : Nat} {res : Int × State}
    (ho : OpenOutcome s L mode name res) : ∃ L', FsInv res.2 L' ∧ ∃ calls,
      tfsOpenDirCalls s name mode = .ok calls ∧ (calls.foldl Added.after d).Lists L' := by
  have hfound : ∀ {p : CString}, validPathname p = true → p.tail.chars ∈ L.names →
      tfsOpenDirCalls s (some p) mode = .ok [] := by
    intro p hp hn
    simp [tfsOpenDirCalls, hp, h.root.inodeGet_root, tfsLookup_eq h.root hp, hn, pure_eq_ok]
  cases ho with
  | null => exact ⟨L, h, [], rfl, hd⟩
  | invalid hp => exact ⟨L, h, [], by simp [tfsOpenDirCalls, hp, pure_eq_ok], hd⟩
  | absent hp hn hc =>
      refine ⟨L, h, [], ?_, hd⟩
      simp [tfsOpenDirCalls, hp, h.root.inodeGet_root, tfsLookup_eq h.root hp, hn, hc, pure_eq_ok]
  | noInode hp hn hc hk =>
      refine ⟨L, h, [], ?_, hd⟩
      simp [tfsOpenDirCalls, hp, h.root.inodeGet_root, tfsLookup_eq h.root hp, hn, hc,
        inodeCreate_file h.root.sane, hk, pure_eq_ok]
  | @noEntry p k hp hn hc hk hfull =>
      refine ⟨L, h.resetInode hk, [.add p.tail k (-1)], ?_, by simpa [Added.after] using hd⟩
      have hne : ((k : Int) = -1) = False := eq_false (by omega)
      have hadd := h.root.addDirEntry_eq (h.sameDir_createInode hk) p.tail k
      have hr : addDirEntry (s.createInode k) 0 p.tail k = .ok (-1, s.createInode k) := by
        rw [hadd]
        obtain hlen | hnone := hfull
        · rw [if_pos (Or.inr hlen)]
        · rw [hnone, ite_self]
      simp [tfsOpenDirCalls, hp, h.root.inodeGet_root, tfsLookup_eq h.root hp, hn, hc,
        inodeCreate_file h.root.sane, hk, hne, hr, pure_eq_ok]
  | existing hp hn ht => exact ⟨L, h.existing hn mode, [], hfound hp hn, hd⟩
  | truncated hp hn ht hsize => exact ⟨L, h.truncated hn hsize, [], hfound hp hn, hd⟩
  | @created p k i hp hn hc hk hlen hi =>
      refine ⟨_, h.created hp hn hk hlen hi, [.add p.tail k 0], ?_, by simpa [Added.after] using hd.insert _ i k⟩
      have hne : ((k : Int) = -1) = False := eq_false (by omega)
      have hr : addDirEntry (s.createInode k) 0 p.tail k = .ok (0, s.createFile i k p.tail) := by
        have hpos := tail_ne_nil hp
        rw [h.root.addDirEntry_eq (h.sameDir_createInode hk), if_neg (by simp only [maxFileName] at hlen ⊢; omega), hi]
        rfl
      simp [tfsOpenDirCalls, hp, h.root.inodeGet_root, tfsLookup_eq h.root hp, hn, hc,
        inodeCreate_file h.root.sane, hk, hne, hr, pure_eq_ok]

/-- `tfs_unlink` clears the name of the file that it removes. -/
theorem unlink_named (h : FsInv s L) (hd : d.Lists L) {target : Option CString} {res : Int × State}
    (ho : UnlinkOutcome s L target res) : ∃ L', FsInv res.2 L' ∧ ∃ calls,
      tfsUnlinkDirCalls s target = .ok calls ∧ (calls.foldl Added.after d).Lists L' := by
  cases ho with
  | null => exact ⟨L, h, [], rfl, hd⟩
  | invalid hp => exact ⟨L, h, [], by simp [tfsUnlinkDirCalls, hp, pure_eq_ok], hd⟩
  | absent hp hn =>
      refine ⟨L, h, [], ?_, hd⟩
      simp [tfsUnlinkDirCalls, hp, h.root.inodeGet_root, tfsLookup_eq h.root hp, hn, pure_eq_ok]
  | @removed p hp hn =>
      refine ⟨_, h.removeFile hn, [.clear p.tail 0], ?_, by simpa [Added.after] using hd.erase _⟩
      have hne : ((L.ino p.tail.chars : Int) = -1) = False := eq_false (by omega)
      have hsame : SameDir s (s.deleteInode (L.ino p.tail.chars)) := ⟨rfl, rfl, rfl⟩
      simp [tfsUnlinkDirCalls, hp, h.root.inodeGet_root, tfsLookup_eq h.root hp, hn, hne, h.inodeDelete_ino hn,
        h.root.clearDirEntry_eq hsame hn, pure_eq_ok]

theorem named_step (h : FsInv s L) (hd : d.Lists L) {c : Call} (hs : Step s c s') :
    ∃ L', FsInv s' L' ∧ ∃ calls, dirCalls s c = .ok calls ∧ (calls.foldl Added.after d).Lists L' := by
  have ⟨r, hr⟩ := hs
  cases h.exec_outcome hr with
  | «open» ho => exact h.open_named hd ho
  | unlink ho => exact h.unlink_named hd ho
  | _ => exact ⟨L, h.step_handle (by simp) (by simp) hs, [], rfl, hd⟩

theorem named_steps {cs : List Call} {x x' : State × Added} (hrun : Steps NamedStep x cs x')
    (h : ∃ L, FsInv x.1 L ∧ x.2.Lists L) : ∃ L, FsInv x'.1 L ∧ x'.2.Lists L := by
  refine hrun.invariant (I := fun x => ∃ L, FsInv x.1 L ∧ x.2.Lists L) (fun x c x' ⟨L, hI, hd⟩ hs => ?_) h
  obtain ⟨hstep, calls, hcalls, hd'⟩ := hs
  obtain ⟨L', hI', calls', hcalls', hlists⟩ := hI.named_step hd hstep
  rw [hcalls] at hcalls'
  cases hcalls'
  exact ⟨L', hI', hd' ▸ hlists⟩

/-- The names can be recorded along every run. -/
theorem exists_named {cs : List Call} (hrun : Steps Step s cs s') (h : FsInv s L) (hd : d.Lists L) :
    ∃ d', Steps NamedStep (s, d) cs (s', d') := by
  induction hrun generalizing L d with
  | nil => exact ⟨d, .nil⟩
  | cons hs _ ih =>
      obtain ⟨L', hI', calls, hcalls, hlists⟩ := h.named_step hd hs
      obtain ⟨d', hrest⟩ := ih hI' hlists
      exact ⟨d', .cons ⟨hs, calls, hcalls, rfl⟩ hrest⟩

/-! ## What tfs_unlink finds -/

theorem tfsUnlink_failed (h : FsInv s L) {target : Option CString} (he : tfsUnlink s target = .ok (-1, s')) :
    s' = s := by
  obtain ⟨res, he', ho⟩ := h.tfsUnlink_outcome target
  rw [he] at he'
  cases he'
  cases ho <;> rfl

theorem clearsFound (h : FsInv s L) (p : CString) : ClearsFound s p := by
  intro inum hfind hne
  by_cases hp : validPathname p = true
  swap
  · rw [tfsLookup, if_pos (by simpa using hp)] at hfind
    cases hfind
    exact absurd rfl hne
  rw [tfsLookup_eq h.root hp] at hfind
  by_cases hn : p.tail.chars ∈ L.names
  swap
  · rw [if_neg hn] at hfind
    cases hfind
    exact absurd rfl hne
  rw [if_pos hn] at hfind
  cases hfind
  have hsame : SameDir s (s.deleteInode (L.ino p.tail.chars)) := ⟨rfl, rfl, rfl⟩
  refine ⟨L.slot p.tail.chars, _, s.removeFile (L.slot p.tail.chars) (L.ino p.tail.chars), ?_, h.root.entryIno _ hn,
    h.inodeDelete_ino hn, h.root.clearDirEntry_eq hsame hn, ?_, ?_⟩
  · rw [h.root.foundAt_eq, if_pos hn]
  · obtain ⟨res, he, ho⟩ := h.tfsUnlink_outcome (some p)
    cases ho with
    | invalid hp' =>
        rw [hp'] at hp
        cases hp
    | absent hp' hn' => exact absurd hn hn'
    | removed hp' hn' => exact he
  · refine ⟨h.root.slot_lt _ hn, ?_, ⟨State.wipeEntry_dInumber, fun x hx => State.wipeEntry_dName hx⟩,
      fun j hj hji => State.removeFile_entry_ne hji⟩
    rw [h.root.entryIno _ hn]
    omega

end FsInv

end Mbroker.Fs
