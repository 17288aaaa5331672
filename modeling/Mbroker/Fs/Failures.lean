import Mbroker.Fs.Views

/-!
# Calls that return -1

What a failed call leaves: the files and their contents, the free inodes and blocks, and the open handles.
-/

namespace Mbroker.Fs

open Mbroker.Lib

variable {s s' : State} {L : Layout}

/-! ## What a caller can tell -/

/-- The same files with the same contents, the same free inodes and blocks, and the same handles. -/
structure Unchanged (s s' : State) : Prop where
  content : ∀ p, s'.content p = s.content p
  inodes : ∀ k < s.inodeTableSize, s'.freeinodeTs.cell k = s.freeinodeTs.cell k
  blocks : ∀ b < s.dataBlocks, s'.freeBlocks.cell b = s.freeBlocks.cell b
  isOpen : ∀ i, s'.IsOpen i ↔ s.IsOpen i
  entry : ∀ i, s.IsOpen i → s'.openFileTable.cell i = s.openFileTable.cell i

/-- What `tfs_open` documents: the file is created, and there is no handle for it. -/
def CreatedUnopened (s : State) (c : Call) (s' : State) : Prop :=
  ∃ p mode, c = .open (some p) mode ∧ hasFlag mode tfsOCreat = true ∧ s.content p = none ∧ s'.content p ≠ none ∧
    ∀ i < s.maxOpenFiles, s.IsOpen i

/-- `tfs_open` truncates a file that has contents, and there is no handle for it. -/
def TruncatesUnopened (s : State) (c : Call) : Prop :=
  ∃ p mode bytes, c = .open (some p) mode ∧ hasFlag mode tfsOTrunc = true ∧ s.content p = some bytes ∧ bytes ≠ [] ∧
    ∀ i < s.maxOpenFiles, s.IsOpen i

theorem Unchanged.refl (s : State) : Unchanged s s :=
  ⟨fun _ => rfl, fun _ _ => rfl, fun _ _ => rfl, fun _ => Iff.rfl, fun _ _ => rfl⟩

/-! ## Contents -/

/-- An inode that no file has can be set without a trace. -/
theorem Unchanged.setInode {k : Nat} {inode : Inode} (h : RootOk s L) (h' : RootOk (s.setInode k inode) L)
    (hk : s.freeinodeTs.cell k = .free) : Unchanged s (s.setInode k inode) := by
  refine ⟨fun p => ?_, fun _ _ => rfl, fun _ _ => rfl, fun _ => Iff.rfl, fun _ _ => rfl⟩
  rw [h.content_eq, h'.content_eq]
  by_cases hp : validPathname p = true ∧ p.tail.chars ∈ L.names
  swap
  · rw [if_neg hp, if_neg hp]
  rw [if_pos hp, if_pos hp]
  have hne : L.ino p.tail.chars ≠ k := by
    rintro rfl
    rw [(h.taken _ (h.ino_lt _ hp.2)).mpr (Or.inr ⟨_, hp.2, rfl⟩)] at hk
    cases hk
  exact congrArg some (State.fileBytes_congr (by rfl) (Table.set_cell_ne _ _ hne) fun _ _ _ => rfl)

/-! ## One call -/

theorem State.addToOpenFileTable_failed {v : Int} {off : Nat} (h : (addToOpenFileTable s v off).1 = -1) :
    addToOpenFileTable s v off = (-1, s) ∧ ∀ i < s.maxOpenFiles, s.IsOpen i := by
  have hfull : ∀ i < s.maxOpenFiles, s.IsOpen i := by
    intro i hi
    by_contra hclosed
    exact addToOpenFileTable_room hi hclosed v off h
  exact ⟨addToOpenFileTable_full hfull v off, hfull⟩

namespace FsInv

/-- A call of `tfs_open` that fails and is not one of the two changes nothing. -/
theorem open_failed (h : FsInv s L) {name : Option CString} {mode : Nat} {res : Int × State}
    (ho : OpenOutcome s L mode name res) (hr : res.1 = -1) :
    Unchanged s res.2 ∨ CreatedUnopened s (.open name mode) res.2 ∨ TruncatesUnopened s (.open name mode) := by
  cases ho with
  | null => exact Or.inl (.refl s)
  | invalid hp => exact Or.inl (.refl s)
  | absent hp hn hc => exact Or.inl (.refl s)
  | noInode hp hn hc hk => exact Or.inl (.refl s)
  | noEntry hp hn hc hk hfull =>
      exact Or.inl (.setInode h.root (h.resetInode hk).root (firstFree_eq_some.mp hk).1)
  | existing hp hn ht =>
      rw [(State.addToOpenFileTable_failed hr).1]
      exact Or.inl (.refl s)
  | @truncated p hp hn ht hsize =>
      refine Or.inr (Or.inr ⟨p, mode, _, rfl, ht, by rw [h.root.content_eq, if_pos ⟨hp, hn⟩], ?_,
        (State.addToOpenFileTable_failed hr).2⟩)
      rw [← List.length_pos_iff, State.length_fileBytes]
      exact hsize
  | @created p k i hp hn hc hk hlen hi =>
      obtain ⟨hsame, hfull⟩ := State.addToOpenFileTable_failed hr
      refine Or.inr (Or.inl ⟨p, mode, rfl, hc, ?_, ?_, hfull⟩)
      · rw [h.root.content_eq, if_neg fun hand => hn hand.2]
      · rw [(h.created hp hn hk hlen hi).root.content_eq, if_pos ⟨hp, Layout.mem_insert.mpr (Or.inl rfl)⟩]
        simp

/-- Without a handle for it the truncated file has lost its contents. -/
theorem not_unchanged_of_truncates (h : FsInv s L) {c : Call} (hc : TruncatesUnopened s c) {r : Ret}
    (he : exec s c = .ok (r, s')) : ¬ (Unchanged s s' ∨ CreatedUnopened s c s') := by
  obtain ⟨p, mode, bytes, rfl, ht, hcontent, hne, hfull⟩ := hc
  have hstored : validPathname p = true ∧ p.tail.chars ∈ L.names := by
    by_contra hnot
    rw [h.root.content_eq, if_neg hnot] at hcontent
    cases hcontent
  obtain ⟨hp, hn⟩ := hstored
  have hbytes : s.fileBytes (L.ino p.tail.chars) = bytes := by
    rw [h.root.content_eq, if_pos ⟨hp, hn⟩] at hcontent
    exact Option.some.inj hcontent
  have hsize : 0 < (s.inodeTable.cell (L.ino p.tail.chars)).iSize := by
    rw [← State.length_fileBytes, hbytes]
    exact List.length_pos_iff.mpr hne
  obtain ⟨res, hres, ho⟩ := h.tfsOpen_outcome (some p) mode
  rw [exec, hres, ok_bind] at he
  cases he
  rintro (hsame | ⟨p', mode', hcall, -, hnone, -⟩)
  swap
  · cases hcall
    rw [hnone] at hcontent
    cases hcontent
  have hafter := hsame.content p
  rw [hcontent] at hafter
  cases ho with
  | invalid hp' =>
      rw [hp'] at hp
      cases hp
  | absent hp' hn' hc => exact hn' hn
  | noInode hp' hn' hc hk => exact hn' hn
  | noEntry hp' hn' hc hk hnoEntry => exact hn' hn
  | created hp' hn' hc hk hlen hi => exact hn' hn
  | existing hp' hn' ht' =>
      obtain hf | hzero := ht'
      · rw [ht] at hf
        cases hf
      · omega
  | truncated hp' hn' ht' hsize' =>
      rw [(h.truncated hn hsize).root.content_eq, if_pos ⟨hp, hn⟩] at hafter
      have hfailed := State.addToOpenFileTable_full (s := s.truncateInode (L.ino p.tail.chars)) hfull
        (L.ino p.tail.chars) 0
      have hlength := congrArg List.length (Option.some.inj hafter)
      rw [State.length_fileBytes, hfailed, ← hbytes, State.length_fileBytes] at hlength
      simp only [State.truncateInode, Table.set_cell_same] at hlength
      omega

theorem failed (h : FsInv s L) {c : Call} {r : Ret} (he : exec s c = .ok (r, s')) (hr : r.value = -1) :
    Unchanged s s' ∨ CreatedUnopened s c s' ∨ TruncatesUnopened s c := by
  have hcount : ∀ n : Nat, (n : Int) ≠ -1 := fun n => by omega
  cases h.exec_outcome he with
  | «open» ho => exact h.open_failed ho hr
  | notOpen hget => exact Or.inl (.refl s)
  | close hget => cases hr
  | read ho =>
      cases ho with
      | closed hget => exact Or.inl (.refl s)
      | nothing hi hk hn => exact Or.inl (.refl s)
      | data hi hk hn hpos hb hlt hle => exact absurd hr (hcount _)
  | write ho =>
      cases ho with
      | fresh hi hk hn hpos hfit hsize hb => exact absurd hr (hcount _)
      | inPlace hi hk hn hpos hfit hsize hb hlt => exact absurd hr (hcount _)
      | _ => exact Or.inl (.refl s)
  | unlink ho =>
      cases ho with
      | removed hp hn => cases hr
      | _ => exact Or.inl (.refl s)

theorem unchanged_iff (h : FsInv s L) {c : Call} {r : Ret} (he : exec s c = .ok (r, s')) (hr : r.value = -1) :
    Unchanged s s' ∨ CreatedUnopened s c s' ↔ ¬ TruncatesUnopened s c := by
  constructor
  · intro hsame hc
    exact h.not_unchanged_of_truncates hc he hsame
  · intro hc
    obtain hsame | hcreated | htruncates := h.failed he hr
    · exact Or.inl hsame
    · exact Or.inr hcreated
    · exact absurd htruncates hc

end FsInv

end Mbroker.Fs
