import Mbroker.Fs.Lemmas.Preservation

/-!
# Handles and names across a call

Which handles a call opens, and which names the directory has after it.
-/

namespace Mbroker.Fs

open Mbroker.Lib

variable {s s' : State} {L L' : Layout}

/-! ## One call -/

theorem Step.of_open {name : Option CString} {mode : Nat} {h : Int} (he : tfsOpen s name mode = .ok (h, s')) :
    Step s (.open name mode) s' := ⟨⟨h, []⟩, by simp only [exec, he, ok_bind, pure_eq_ok]⟩

theorem Step.of_read {fh : Int} {len : Nat} {n : Int} {data : List UInt8}
    (he : tfsRead s fh len = .ok (n, data, s')) : Step s (.read fh len) s' :=
  ⟨⟨n, data⟩, by simp only [exec, he, ok_bind, pure_eq_ok]⟩

theorem Step.of_write {fh : Int} {buffer : Mem} {n : Nat} {r : Int} (he : tfsWrite s fh buffer n = .ok (r, s')) :
    Step s (.write fh buffer n) s' := ⟨⟨r, []⟩, by simp only [exec, he, ok_bind, pure_eq_ok]⟩

theorem Step.of_unlink {target : Option CString} {r : Int} (he : tfsUnlink s target = .ok (r, s')) :
    Step s (.unlink target) s' := ⟨⟨r, []⟩, by simp only [exec, he, ok_bind, pure_eq_ok]⟩

/-! ## Handles -/

namespace State

/-- The same handles are open. -/
def SameHandles (s s' : State) : Prop :=
  s'.fsParams = s.fsParams ∧ s'.freeOpenFileEntries = s.freeOpenFileEntries

theorem SameHandles.isOpen_iff (h : s.SameHandles s') {i : Nat} : s'.IsOpen i ↔ s.IsOpen i := by
  simp only [IsOpen, maxOpenFiles, h.1, h.2]

/-- The handle `i` was free and is open now; the others are as they were. -/
def OpensHandle (s s' : State) (i : Nat) : Prop :=
  s'.fsParams = s.fsParams ∧ i < s.maxOpenFiles ∧ ¬ s.IsOpen i ∧ ∀ j, s'.IsOpen j ↔ j = i ∨ s.IsOpen j

/-- What a call of `tfs_open` does to the handles, by its result. -/
def HandleEffect (s : State) (res : Int × State) : Prop :=
  res.1 = -1 ∧ s.SameHandles res.2 ∨ ∃ i : Nat, res.1 = i ∧ s.OpensHandle res.2 i

theorem addToOpenFileTable_effect (s : State) (v : Int) (off : Nat) :
    s.HandleEffect (addToOpenFileTable s v off) := by
  rw [addToOpenFileTable_eq]
  split
  · rename_i i hi
    obtain ⟨hfree, hlt, -⟩ := firstFree_eq_some.mp hi
    refine Or.inr ⟨i, rfl, rfl, hlt, ?_, fun j => ?_⟩
    · rintro ⟨-, ht⟩
      rw [hfree] at ht
      cases ht
    · refine State.isOpen_openAt.trans ?_
      by_cases hji : j = i
      · simp [hji, hlt]
      · simp [hji, IsOpen]
  · exact Or.inl ⟨rfl, rfl, rfl⟩

theorem addToOpenFileTable_full (h : ∀ i < s.maxOpenFiles, s.IsOpen i) (v : Int) (off : Nat) :
    addToOpenFileTable s v off = (-1, s) := by
  rw [addToOpenFileTable_eq]
  split
  · rename_i i hi
    obtain ⟨hfree, hlt, -⟩ := firstFree_eq_some.mp hi
    rw [(h i hlt).2] at hfree
    cases hfree
  · rfl

theorem addToOpenFileTable_room {i : Nat} (hi : i < s.maxOpenFiles) (h : ¬ s.IsOpen i) (v : Int) (off : Nat) :
    (addToOpenFileTable s v off).1 ≠ -1 := by
  rw [addToOpenFileTable_eq]
  split
  · exact (by simp only; omega)
  · rename_i hnone
    exact absurd ⟨hi, firstFree_eq_none.mp hnone i hi⟩ h

theorem HandleEffect.of_same (h : s.SameHandles s') {res : Int × State} (h' : s'.HandleEffect res) :
    s.HandleEffect res := by
  obtain ⟨hr, hp, he⟩ | ⟨i, hr, hp, hlt, hclosed, hopen⟩ := h'
  · exact Or.inl ⟨hr, hp.trans h.1, he.trans h.2⟩
  · refine Or.inr ⟨i, hr, hp.trans h.1, ?_, ?_, fun j => ?_⟩
    · simpa only [maxOpenFiles, h.1] using hlt
    · rwa [h.isOpen_iff] at hclosed
    · rw [hopen, h.isOpen_iff]

end State

namespace FsInv

theorem open_effect {mode : Nat} {name : Option CString} {res : Int × State} (ho : OpenOutcome s L mode name res) :
    s.HandleEffect res := by
  cases ho with
  | null => exact Or.inl ⟨rfl, rfl, rfl⟩
  | invalid hp => exact Or.inl ⟨rfl, rfl, rfl⟩
  | absent hp hn hc => exact Or.inl ⟨rfl, rfl, rfl⟩
  | noInode hp hn hc hk => exact Or.inl ⟨rfl, rfl, rfl⟩
  | noEntry hp hn hc hk hfull => exact Or.inl ⟨rfl, rfl, rfl⟩
  | existing hp hn ht => exact State.addToOpenFileTable_effect _ _ _
  | truncated hp hn ht hsize => exact (State.addToOpenFileTable_effect _ _ _).of_same ⟨rfl, rfl⟩
  | created hp hn hc hk hlen hi => exact (State.addToOpenFileTable_effect _ _ _).of_same ⟨rfl, rfl⟩

theorem tfsOpen_effect (h : FsInv s L) {mode : Nat} {name : Option CString} {res : Int × State}
    (he : tfsOpen s name mode = .ok res) : s.HandleEffect res := by
  obtain ⟨res', he', ho⟩ := h.tfsOpen_outcome name mode
  rw [he] at he'
  cases he'
  exact open_effect ho

theorem tfsUnlink_same (h : FsInv s L) {target : Option CString} {res : Int × State}
    (he : tfsUnlink s target = .ok res) : s.SameHandles res.2 := by
  obtain ⟨res', he', ho⟩ := h.tfsUnlink_outcome target
  rw [he] at he'
  cases he'
  cases ho <;> exact ⟨rfl, rfl⟩

theorem tfsWrite_same (h : FsInv s L) {fh : Int} {buffer : Mem} {n : Nat} {res : Int × State}
    (he : tfsWrite s fh buffer n = .ok res) : s.SameHandles res.2 := by
  obtain ⟨res', he', ho⟩ | ⟨he', -⟩ := h.tfsWrite_outcome fh buffer n
  · rw [he] at he'
    cases he'
    cases ho <;> exact ⟨rfl, rfl⟩
  · rw [he] at he'
    cases he'

theorem tfsRead_same (h : FsInv s L) {fh : Int} {len : Nat} {res : Int × List UInt8 × State}
    (he : tfsRead s fh len = .ok res) : s.SameHandles res.2.2 := by
  have ho := h.tfsRead_outcome he
  cases ho <;> exact ⟨rfl, rfl⟩

end FsInv

/-! ## Writes that store something -/

/-- The handle is open and before the end of the block, and the file has a block or can get one. -/
def State.HasRoom (s : State) (fhandle : Int) : Prop :=
  ∃ i ∈ getOpenFileEntry s fhandle, (s.openFileTable.cell i).ofOffset < s.blockSize ∧
    (0 < (s.inodeTable.cell (s.openFileTable.cell i).ofInumber.toNat).iSize ∨
      firstFree s.freeBlocks s.dataBlocks ≠ none)

instance (s : State) (fhandle : Int) : Decidable (s.HasRoom fhandle) := by unfold State.HasRoom; infer_instance

/-- Nothing is written at the end of the block, and only there. -/
theorem writeLen_eq_zero {bs off n : Nat} (hn : 0 < n) (hbs : bs < 2 ^ 31) (hoff : off < 2 ^ 64)
    (h : writeLen bs off n = 0) : off = bs := by
  unfold writeLen at h
  split at h
  · by_cases hle : off ≤ bs
    · rw [sizeSub_of_le hle (by omega)] at h
      omega
    · rw [sizeSub_of_lt (by omega) hoff] at h
      omega
  · omega

theorem FsInv.tfsWrite_pos_iff (h : FsInv s L) {fh : Int} {buffer : Mem} {n : Nat} {res : Int × State} (hn : 0 < n)
    (he : tfsWrite s fh buffer n = .ok res) : 0 < res.1 ↔ s.HasRoom fh := by
  obtain ⟨res', he', ho⟩ | ⟨he', -⟩ := h.tfsWrite_outcome fh buffer n
  swap
  · rw [he] at he'
    cases he'
  rw [he] at he'
  cases he'
  have hentry : ∀ {i k : Nat}, s.IsOpen i → (s.openFileTable.cell i).ofInumber = k →
      (s.HasRoom i ↔ (s.openFileTable.cell i).ofOffset < s.blockSize ∧
        (0 < (s.inodeTable.cell k).iSize ∨ firstFree s.freeBlocks s.dataBlocks ≠ none)) := by
    intro i k hi hk
    simp only [State.HasRoom, getOpenFileEntry_natCast hi, Option.mem_some_iff, exists_eq_left', hk,
      Int.toNat_natCast]
  cases ho with
  | closed hget =>
      refine iff_of_false (show ¬ (0 : Int) < -1 by omega) ?_
      rintro ⟨i, hi, -⟩
      rw [hget] at hi
      cases hi
  | nothing hi hk hlen =>
      have hend := writeLen_eq_zero hn h.root.sane.blockSize_lt' (h.data.handleOff _ hi) hlen
      refine iff_of_false (lt_irrefl (0 : Int)) ?_
      rw [hentry hi hk]
      omega
  | noBlock hi hk hlen hsize hb =>
      refine iff_of_false (show ¬ (0 : Int) < -1 by omega) ?_
      rw [hentry hi hk]
      rintro ⟨-, hpos | hfree⟩
      · omega
      · exact hfree hb
  | fresh hi hk hlen hpos hfit hsize hb =>
      refine iff_of_true (by simpa using hpos) ((hentry hi hk).mpr ⟨by omega, Or.inr ?_⟩)
      rw [hb]
      nofun
  | inPlace hi hk hlen hpos hfit hsize hb hlt =>
      exact iff_of_true (by simpa using hpos) ((hentry hi hk).mpr ⟨by omega, Or.inl hsize⟩)

/-! ## Names -/

theorem slash_tail {p : CString} (h : validPathname p = true) : p.chars = slash :: p.tail.chars := by
  simp only [validPathname, decide_eq_true_eq] at h
  obtain ⟨hlen, hslash⟩ := h
  cases hc : p.chars with
  | nil =>
      rw [CString.strlen, hc] at hlen
      cases hlen
  | cons c cs =>
      have hc' : c = slash := by simpa [CString.mem, Mem.ofList, hc] using hslash
      simp [CString.tail, hc, hc']

theorem eq_of_slash {p n : CString} (h : validPathname p = true) (hn : n.chars = slash :: p.tail.chars) : n = p := by
  rw [← slash_tail h] at hn
  cases n
  cases p
  simpa using hn

/-- The name in a directory entry. -/
def DirEntry.name (entry : DirEntry) : List UInt8 := (entry.dName.bytes maxFileName).takeWhile (· ≠ 0)

/-- The names of the live entries of the root directory. -/
def State.liveNames (s : State) : List (List UInt8) :=
  (List.range s.maxDirEntries).filterMap fun i =>
    if (s.rootEntry i).dInumber = -1 then none else some (s.rootEntry i).name

theorem RootOk.rootEntry_name (h : RootOk s L) {n : List UInt8} (hn : n ∈ L.names) :
    (s.rootEntry (L.slot n)).name = n :=
  (h.entryName n hn).takeWhile_bytes (h.nameOk n hn).1 (h.nameOk n hn).2.2.le

theorem RootOk.mem_liveNames (h : RootOk s L) {n : List UInt8} : n ∈ s.liveNames ↔ n ∈ L.names := by
  simp only [State.liveNames, List.mem_filterMap, List.mem_range]
  constructor
  · rintro ⟨i, hi, hn⟩
    split at hn
    · cases hn
    · rename_i hlive
      obtain ⟨m, hm, rfl⟩ := h.live i hi hlive
      rw [h.rootEntry_name hm] at hn
      cases hn
      exact hm
  · intro hn
    refine ⟨L.slot n, h.slot_lt n hn, ?_⟩
    have hlive : (s.rootEntry (L.slot n)).dInumber ≠ -1 := by
      rw [h.entryIno n hn]
      omega
    rw [if_neg hlive, h.rootEntry_name hn]

namespace FsInv

theorem tfsOpen_names (h : FsInv s L) {p : CString} {mode : Nat} {res : Int × State}
    (he : tfsOpen s (some p) mode = .ok res) : ∃ L', FsInv res.2 L' ∧
      (L'.names = L.names ∨ hasFlag mode tfsOCreat = true ∧ validPathname p = true ∧ p.tail.chars ∉ L.names ∧
        firstFree s.freeinodeTs s.inodeTableSize ≠ none ∧
        firstIndex (fun i => (s.dirEntry s.rootPtr i).dInumber = -1) s.maxDirEntries ≠ none ∧
        L'.names = insert p.tail.chars L.names) := by
  obtain ⟨res', he', ho⟩ := h.tfsOpen_outcome (some p) mode
  rw [he] at he'
  cases he'
  obtain ⟨L', hI, rfl | ⟨q, i, k, hq, hc, hp, hn, hk, hi, rfl⟩⟩ := h.of_open ho
  · exact ⟨L', hI, Or.inl rfl⟩
  · cases hq
    exact ⟨_, hI, Or.inr ⟨hc, hp, hn, by simp [hk], by simp [hi], rfl⟩⟩

theorem tfsUnlink_names (h : FsInv s L) {p : CString} {res : Int × State} (he : tfsUnlink s (some p) = .ok res) :
    ∃ L', FsInv res.2 L' ∧ (res.1 = -1 ∧ L'.names = L.names ∨
      res.1 = 0 ∧ validPathname p = true ∧ p.tail.chars ∈ L.names ∧ L'.names = L.names.erase p.tail.chars) := by
  obtain ⟨res', he', ho⟩ := h.tfsUnlink_outcome (some p)
  rw [he] at he'
  cases he'
  obtain ⟨L', hI, ⟨hr, rfl⟩ | ⟨q, hq, hr, hp, hn, rfl⟩⟩ := h.of_unlink ho
  · exact ⟨L', hI, Or.inl ⟨hr, rfl⟩⟩
  · cases hq
    exact ⟨_, hI, Or.inr ⟨hr, hp, hn, rfl⟩⟩

theorem tfsWrite_inv (h : FsInv s L) {fh : Int} {buffer : Mem} {n : Nat} {res : Int × State}
    (he : tfsWrite s fh buffer n = .ok res) : FsInv res.2 L := by
  obtain ⟨res', he', ho⟩ | ⟨he', -⟩ := h.tfsWrite_outcome fh buffer n
  · rw [he] at he'
    cases he'
    exact h.of_write ho
  · rw [he] at he'
    cases he'

theorem tfsRead_inv (h : FsInv s L) {fh : Int} {len : Nat} {res : Int × List UInt8 × State}
    (he : tfsRead s fh len = .ok res) : FsInv res.2.2 L := h.of_read (h.tfsRead_outcome he)

end FsInv

end Mbroker.Fs
