import Mbroker.Fs.Lemmas.Names

/-!
# From start-up on

`tfs_init` sets the invariant up, and every call that returns keeps it.
-/

namespace Mbroker.Fs

open Mbroker.Lib

variable {s s' : State} {L : Layout}

/-! ## What a call that returns does -/

inductive CallOutcome (s : State) (L : Layout) : Call → Ret × State → Prop
  | open {name mode res} : OpenOutcome s L mode name res → CallOutcome s L (.open name mode) (⟨res.1, []⟩, res.2)
  | notOpen {fhandle} : getOpenFileEntry s fhandle = none → CallOutcome s L (.close fhandle) (⟨-1, []⟩, s)
  | close {fhandle i} : getOpenFileEntry s fhandle = some i →
      CallOutcome s L (.close fhandle) (⟨0, []⟩, s.closeAt i)
  | read {fhandle len res} : ReadOutcome s len fhandle res →
      CallOutcome s L (.read fhandle len) (⟨res.1, res.2.1⟩, res.2.2)
  | write {fhandle buffer n res} : WriteOutcome s buffer n fhandle res →
      CallOutcome s L (.write fhandle buffer n) (⟨res.1, []⟩, res.2)
  | unlink {target res} : UnlinkOutcome s L target res → CallOutcome s L (.unlink target) (⟨res.1, []⟩, res.2)

/-! ## Start-up -/

/-- A state that `state_init` left: nothing is allocated. -/
structure Blank (s : State) : Prop where
  bytes : s.fsData.bytes = some (toSize (s.dataBlocks * s.blockSize))
  inodes : ∀ k < s.inodeTableSize, s.freeinodeTs.cell k = .free
  blocks : ∀ b < s.dataBlocks, s.freeBlocks.cell b = .free
  handles : ∀ i < s.maxOpenFiles, s.freeOpenFileEntries.cell i = .free

theorem stateInit_blank {m : Malloc} {params : TfsParams} (h : stateInit m s params = (0, s')) :
    Blank s' ∧ s'.fsParams = params := by
  unfold stateInit at h
  dsimp only at h
  split at h
  · split at h
    · cases h
    · rename_i hnull
      cases h
      simp only [Bool.or_eq_true, not_or, Table.isNull, Table.malloc] at hnull
      refine ⟨⟨?_, fun k hk => if_pos hk, fun b hb => if_pos hb, fun i hi => if_pos hi⟩, rfl⟩
      cases hd : m.fsData with
      | none => simp [hd] at hnull
      | some c => simp only [Table.malloc, State.dataBlocks, State.blockSize]
  · cases h

theorem firstFree_of_free {t : Table AllocationState} {n : Nat} (h : ∀ k < n, t.cell k = .free) :
    firstFree t n = if 0 < n then some 0 else none := by
  split
  · rename_i hn
    exact firstFree_eq_some.mpr ⟨h 0 hn, hn, fun j hj => absurd hj (Nat.not_lt_zero j)⟩
  · rename_i hn
    exact firstFree_eq_none.mpr fun i hi => absurd (Nat.zero_lt_of_lt hi) hn

theorem State.setDInumber_dInumber {p i j : Nat} {v : Int} (h : -2 ^ 31 ≤ v) (h' : v < 2 ^ 31) :
    ((s.setDInumber p i v).dirEntry p j).dInumber = if j = i then v else (s.dirEntry p j).dInumber := by
  split
  · rename_i hji
    subst hji
    have hcell : ∀ x < 4, Mem.ptr (s.setDInumber p j v).fsData.cell
        (p + sizeofDirEntry * j + maxFileName) x = int32Mem v x := by
      intro x hx
      simp only [State.setDInumber, State.poke, Mem.ptr_apply]
      rw [Mem.copy_apply_of_mem (by omega) (by omega), Nat.add_sub_cancel_left]
    rw [State.dirEntry, readInt32_congr hcell, readInt32_int32Mem h h']
  · rename_i hji
    simp only [State.dirEntry]
    refine readInt32_congr fun x hx => ?_
    simp only [State.setDInumber, State.poke, Mem.ptr_apply, sizeofDirEntry_eq, maxFileName]
    exact Mem.copy_apply_of_not_mem (by omega)

/-- Labelling the entries of a new directory as empty changes only the data. -/
theorem clearDirEntries_eq (s : State) (p n : Nat) : ∃ cell : Mem,
    clearDirEntries s p n = { s with fsData := { s.fsData with cell := cell } } ∧
      ∀ i < n, ((clearDirEntries s p n).dirEntry p i).dInumber = -1 := by
  induction n with
  | zero => exact ⟨s.fsData.cell, rfl, fun i hi => absurd hi (Nat.not_lt_zero i)⟩
  | succ n ih =>
      obtain ⟨cell, he, hdead⟩ := ih
      have hsucc : clearDirEntries s p (n + 1) = (clearDirEntries s p n).setDInumber p n (-1) := by
        simp only [clearDirEntries, List.range_succ, List.foldl_append, List.foldl_cons, List.foldl_nil]
      refine ⟨(clearDirEntries s p (n + 1)).fsData.cell, ?_, fun i hi => ?_⟩
      · rw [hsucc, he]; rfl
      · rw [hsucc, State.setDInumber_dInumber (by omega) (by omega)]
        split
        · rfl
        · exact hdead i (by omega)

/-- The state after `inode_create(T_DIRECTORY)`, before the entries are labelled. -/
def State.createRoot (s : State) : State :=
  { s with
    freeinodeTs := s.freeinodeTs.set 0 .taken
    freeBlocks := s.freeBlocks.set 0 .taken
    inodeTable := s.inodeTable.set 0 ⟨.directory, s.blockSize, 0⟩ }

/-- With its entries labelled, the root directory lies in block 0 and is empty. -/
theorem State.createRoot_cleared (hs' : s' = clearDirEntries s.createRoot 0 s.maxDirEntries) :
    (∃ cell : Mem, s' = { s.createRoot with fsData := { s.fsData with cell := cell } }) ∧ s'.rootBlock = 0 ∧
      ∀ i < s'.maxDirEntries, (s'.rootEntry i).dInumber = -1 := by
  obtain ⟨cell, he, hdead⟩ := clearDirEntries_eq s.createRoot 0 s.maxDirEntries
  rw [← hs'] at he hdead
  have hrb : s'.rootBlock = 0 := by
    rw [he, State.rootBlock]
    simp [State.createRoot]
  have hptr : s'.rootPtr = 0 := by rw [State.rootPtr, hrb, Nat.zero_mul]
  have hD : s'.maxDirEntries = s.maxDirEntries := by rw [he]; rfl
  refine ⟨⟨cell, he⟩, hrb, fun i hi => ?_⟩
  rw [hD] at hi
  rw [State.rootEntry, hptr]
  exact hdead i hi

theorem Blank.inodeCreate_directory (h : Blank s) (hs : Sane s.fsParams) {r : Int}
    (hr : inodeCreate s .directory = .ok (r, s')) (h0 : r = rootDirInum) :
    0 < s.inodeTableSize ∧ 0 < s.dataBlocks ∧ s' = clearDirEntries s.createRoot 0 s.maxDirEntries := by
  have hino := inodeAlloc_eq hs
  rw [firstFree_of_free h.inodes] at hino
  by_cases hN : 0 < s.inodeTableSize
  swap
  · rw [if_neg hN] at hino
    simp only [inodeCreate, hino, ok_bind, ↓reduceIte, pure_eq_ok] at hr
    cases hr
    cases h0
  rw [if_pos hN] at hino
  obtain ⟨s₁, hs₁⟩ : ∃ s₁, s₁ = ({ s with freeinodeTs := s.freeinodeTs.set 0 .taken } : State).setInode 0
    { s.inodeTable.cell 0 with iNodeType := .directory } := ⟨_, rfl⟩
  have hs' : Sane s₁.fsParams := by rw [hs₁]; exact hs
  have hblk := dataBlockAlloc_eq hs'
  rw [firstFree_of_free (by rw [hs₁]; exact h.blocks)] at hblk
  have hzero : ((0 : Nat) : Int) ≠ -1 := by omega
  have hindex : index ((0 : Nat) : Int) = .ok 0 := rfl
  simp only [inodeCreate, hino, ok_bind, if_neg hzero, hindex, ← hs₁, hblk] at hr
  by_cases hB : 0 < s₁.dataBlocks
  · have hget : ∀ s₂ : State, s₂.fsParams = s₁.fsParams → dataBlockGet s₂ 0 = .ok 0 := by
      intro s₂ hp
      exact dataBlockGet_zero (by rw [State.dataBlocks, hp]; exact hB)
    rw [if_pos hB] at hr
    simp only [if_neg hzero] at hr
    rw [Nat.cast_zero, hget, ok_bind, pure_eq_ok] at hr
    · cases hr
      refine ⟨hN, by rw [hs₁] at hB; exact hB, ?_⟩
      rw [hs₁]
      simp [State.createRoot, State.setInode, Table.set, State.maxDirEntries, State.blockSize]
    · rfl
  · rw [if_neg hB] at hr
    simp only [↓reduceIte, Nat.cast_zero] at hr
    cases hd : inodeDelete (s₁.setInode 0 { s₁.inodeTable.cell 0 with iSize := 0, iDataBlock := -1 }) 0 with
    | error e =>
        rw [hd, error_bind] at hr
        cases hr
    | ok s₂ =>
        rw [hd, ok_bind, pure_eq_ok] at hr
        cases hr
        cases h0

/-- The directory without files. -/
def Layout.empty : Layout := ⟨∅, fun _ => 0, fun _ => 0⟩

/-- What `tfs_init` leaves when it returns 0. -/
structure Initialised (s : State) (params : TfsParams) : Prop where
  inv : FsInv s Layout.empty
  params : s.fsParams = params
  noHandle : ∀ i, ¬ s.IsOpen i
  blocks : ∀ b < s.dataBlocks, s.freeBlocks.cell b = .taken → b = s.rootBlock

/-- A root directory without entries in use, beside which no inode is taken. -/
theorem RootOk.of_no_entry (hs : Sane s.fsParams) (hN : 0 < s.inodeTableSize)
    (htype : (s.inodeTable.cell 0).iNodeType = .directory) (hsize : (s.inodeTable.cell 0).iSize = s.blockSize)
    (hvalid : s.validBlockNumber (s.inodeTable.cell 0).iDataBlock = true)
    (hentries : ∀ i < s.maxDirEntries, (s.rootEntry i).dInumber = -1)
    (htaken : ∀ k < s.inodeTableSize, s.freeinodeTs.cell k = .taken ↔ k = 0) : RootOk s Layout.empty where
  sane := hs
  inodes_pos := hN
  rootTaken := (htaken 0 hN).mpr rfl
  rootType := htype
  rootSize := hsize
  rootValid := hvalid
  nameOk := by simp [Layout.empty]
  slot_lt := by simp [Layout.empty]
  slot_inj := by simp [Layout.empty]
  entryName := by simp [Layout.empty]
  entryIno := by simp [Layout.empty]
  live := fun i hi hne => absurd (hentries i hi) hne
  used := ⟨0, Nat.zero_le _, by simp [Layout.empty], fun i hi => absurd hi (Nat.not_lt_zero i)⟩
  ino_pos := by simp [Layout.empty]
  ino_lt := by simp [Layout.empty]
  ino_inj := by simp [Layout.empty]
  inoType := by simp [Layout.empty]
  taken := fun k hk => by simp [htaken k hk, Layout.empty]

theorem Blank.clearRoot (h : Blank s) (hs : Sane s.fsParams) (hN : 0 < s.inodeTableSize) (hB : 0 < s.dataBlocks) :
    Initialised (clearDirEntries s.createRoot 0 s.maxDirEntries) s.fsParams := by
  obtain ⟨s', hs'⟩ : ∃ s', s' = clearDirEntries s.createRoot 0 s.maxDirEntries := ⟨_, rfl⟩
  obtain ⟨⟨cell, he⟩, hrb, hentry⟩ := State.createRoot_cleared hs'
  rw [← hs']
  have hparams : s'.fsParams = s.fsParams := by rw [he]; rfl
  have hcell0 : s'.inodeTable.cell 0 = ⟨.directory, s.blockSize, 0⟩ := by
    rw [he]; exact Table.set_cell_same _ _ _
  have hfree : s'.freeinodeTs = s.freeinodeTs.set 0 .taken := by rw [he]; rfl
  have hblocks : s'.freeBlocks = s.freeBlocks.set 0 .taken := by rw [he]; rfl
  have hopen : ∀ i, ¬ s'.IsOpen i := by
    rintro i ⟨hi, ht⟩
    have hi : i < s.maxOpenFiles := by rw [State.maxOpenFiles, hparams] at hi; exact hi
    have hfi := h.handles i hi
    have hsame : s'.freeOpenFileEntries = s.freeOpenFileEntries := by rw [he]; rfl
    rw [hsame, hfi] at ht
    cases ht
  have hNs : s'.inodeTableSize = s.inodeTableSize := by simp only [State.inodeTableSize, hparams]
  have huse : ∀ k, 0 < k → ¬ s'.InUse k := by
    rintro k hk ⟨hlt, ht | ⟨i, hi, -⟩⟩
    · rw [hfree, Table.set_cell_ne _ _ hk.ne', h.inodes k (by rw [← hNs]; exact hlt)] at ht
      cases ht
    · exact hopen i hi
  refine ⟨⟨?_, ?_⟩, hparams, hopen, fun b hb ht => ?_⟩
  · have hvalid : s'.validBlockNumber (s'.inodeTable.cell 0).iDataBlock = true := by
      refine validBlockNumber_iff.mpr ⟨0, by rw [hcell0]; rfl, ?_⟩
      simpa only [State.dataBlocks, hparams] using hB
    have hsize : (s'.inodeTable.cell 0).iSize = s'.blockSize := by
      rw [hcell0]; simp only [State.blockSize, hparams]
    refine .of_no_entry (by rw [hparams]; exact hs) (by rw [hNs]; exact hN) (by rw [hcell0]) hsize hvalid hentry ?_
    intro k hk
    rw [hNs] at hk
    rw [hfree, Table.set_cell]
    by_cases hk0 : k = 0 <;> simp [hk0, h.inodes k hk]
  · exact
      { bytes := by
          have hmul : s.dataBlocks * s.blockSize < 2 ^ 64 := by
            have := (hs.block_lt hB).2
            omega
          have hbytes : s'.fsData.bytes = s.fsData.bytes := by rw [he]
          rw [hbytes, h.bytes, toSize_of_lt hmul]
          simp only [State.dataBlocks, State.blockSize, hparams]
        rootBlockTaken := by rw [hrb, hblocks]; exact Table.set_cell_same _ _ _
        handleIno := fun i hi => absurd hi (hopen i)
        handleOff := fun i hi => absurd hi (hopen i)
        size_le := fun k hk hu => absurd hu (huse k hk)
        block := fun k hk hu => absurd hu (huse k hk) }
  · rw [hrb]
    by_contra hb0
    have hlt : b < s.dataBlocks := by rw [State.dataBlocks, hparams] at hb; exact hb
    rw [hblocks, Table.set_cell_ne _ _ hb0, h.blocks b hlt] at ht
    cases ht

theorem tfsInit_initialised {m : Malloc} {ptr : Option TfsParams} (hs : Sane (ptr.getD tfsDefaultParams))
    (h : tfsInit m s ptr = .ok (0, s')) : Initialised s' (ptr.getD tfsDefaultParams) := by
  obtain ⟨r, s₁, hinit⟩ : ∃ r s₁, stateInit m s (ptr.getD tfsDefaultParams) = (r, s₁) := ⟨_, _, rfl⟩
  simp only [tfsInit, hinit] at h
  by_cases hr : r = 0
  swap
  · rw [if_pos hr, pure_eq_ok] at h
    cases h
  subst hr
  obtain ⟨hblank, hp⟩ := stateInit_blank hinit
  simp only [ne_eq, not_true_eq_false, ↓reduceIte] at h
  cases hc : inodeCreate s₁ .directory with
  | error e =>
      rw [hc, error_bind] at h
      cases h
  | ok res =>
      obtain ⟨root, s₂⟩ := res
      rw [hc, ok_bind] at h
      by_cases hroot : root = rootDirInum
      · rw [if_neg (not_not.mpr hroot), pure_eq_ok] at h
        cases h
        rw [← hp] at hs ⊢
        obtain ⟨hN, hB, he⟩ := hblank.inodeCreate_directory hs hc hroot
        rw [he]
        exact hblank.clearRoot hs hN hB
      · rw [if_pos hroot, pure_eq_ok] at h
        cases h

/-! ## Every call -/

namespace FsInv

theorem created (h : FsInv s L) {p : CString} {i k : Nat} (hp : validPathname p = true)
    (hn : p.tail.chars ∉ L.names) (hk : firstFree s.freeinodeTs s.inodeTableSize = some k)
    (hlen : p.tail.strlen < maxFileName)
    (hi : firstIndex (fun i => (s.dirEntry s.rootPtr i).dInumber = -1) s.maxDirEntries = some i) :
    FsInv (Fs.addToOpenFileTable (s.createFile i k p.tail) k 0).2 (L.insert p.tail.chars i k) := by
  have hcr := h.createFile hk hi hn ⟨p.tail.noNul, tail_ne_nil hp, hlen⟩
  have hu := hcr.inUse_ino (Layout.mem_insert.mpr (Or.inl rfl))
  rw [Layout.insert_ino_same] at hu
  exact hcr.addToOpenFileTable (h.firstFree_pos hk) hu (by norm_num)

theorem existing (h : FsInv s L) {n : List UInt8} (hn : n ∈ L.names) (mode : Nat) :
    FsInv (Fs.addToOpenFileTable s (L.ino n)
      (if hasFlag mode tfsOAppend then (s.inodeTable.cell (L.ino n)).iSize else 0)).2 L := by
  have hsize := h.data.size_le _ (h.root.ino_pos _ hn) (h.inUse_ino hn)
  have hbs := h.root.sane.blockSize_lt'
  refine h.addToOpenFileTable (h.root.ino_pos _ hn) (h.inUse_ino hn) ?_
  split <;> omega

theorem truncated (h : FsInv s L) {n : List UInt8} (hn : n ∈ L.names)
    (hsize : 0 < (s.inodeTable.cell (L.ino n)).iSize) :
    FsInv (Fs.addToOpenFileTable (s.truncateInode (L.ino n)) (L.ino n) 0).2 L := by
  have htr := h.truncateInode (h.root.ino_pos _ hn) (h.inUse_ino hn) hsize
  exact htr.addToOpenFileTable (h.root.ino_pos _ hn) (htr.inUse_ino hn) (by norm_num)

theorem of_open (h : FsInv s L) {name : Option CString} {mode : Nat} {res : Int × State}
    (ho : OpenOutcome s L mode name res) : ∃ L', FsInv res.2 L' ∧ (L' = L ∨
      ∃ p i k, name = some p ∧ hasFlag mode tfsOCreat = true ∧ validPathname p = true ∧ p.tail.chars ∉ L.names ∧
        firstFree s.freeinodeTs s.inodeTableSize = some k ∧
        firstIndex (fun i => (s.dirEntry s.rootPtr i).dInumber = -1) s.maxDirEntries = some i ∧
        L' = L.insert p.tail.chars i k) := by
  cases ho with
  | null => exact ⟨L, h, Or.inl rfl⟩
  | invalid hp => exact ⟨L, h, Or.inl rfl⟩
  | absent hp hn hc => exact ⟨L, h, Or.inl rfl⟩
  | noInode hp hn hc hk => exact ⟨L, h, Or.inl rfl⟩
  | noEntry hp hn hc hk hfull => exact ⟨L, h.resetInode hk, Or.inl rfl⟩
  | existing hp hn ht => exact ⟨L, h.existing hn mode, Or.inl rfl⟩
  | truncated hp hn ht hsize => exact ⟨L, h.truncated hn hsize, Or.inl rfl⟩
  | @created p k i hp hn hc hk hlen hi =>
      exact ⟨_, h.created hp hn hk hlen hi, Or.inr ⟨p, i, k, rfl, hc, hp, hn, hk, hi, rfl⟩⟩

theorem of_unlink (h : FsInv s L) {target : Option CString} {res : Int × State}
    (ho : UnlinkOutcome s L target res) : ∃ L', FsInv res.2 L' ∧ (res.1 = -1 ∧ L' = L ∨
      ∃ p, target = some p ∧ res.1 = 0 ∧ validPathname p = true ∧ p.tail.chars ∈ L.names ∧
        L' = L.erase p.tail.chars) := by
  cases ho with
  | null => exact ⟨L, h, Or.inl ⟨rfl, rfl⟩⟩
  | invalid hp => exact ⟨L, h, Or.inl ⟨rfl, rfl⟩⟩
  | absent hp hn => exact ⟨L, h, Or.inl ⟨rfl, rfl⟩⟩
  | removed hp hn => exact ⟨_, h.removeFile hn, Or.inr ⟨_, rfl, rfl, hp, hn, rfl⟩⟩

theorem of_write (h : FsInv s L) {fh : Int} {buffer : Mem} {n : Nat} {res : Int × State}
    (ho : WriteOutcome s buffer n fh res) : FsInv res.2 L := by
  cases ho with
  | closed hget => exact h
  | nothing hi hk hn => exact h
  | noBlock hi hk hn hsize hb => exact h
  | fresh hi hk hn hpos hfit hsize hb =>
      rename_i i k b n
      obtain ⟨k', hk', hkpos, -⟩ := h.data.handleIno i hi
      obtain rfl : k' = k := by omega
      have htake := h.takeBlock hkpos hsize hb
      have hne : b ≠ (s.takeBlock k' b).rootBlock := by
        rw [State.takeBlock_rootBlock hkpos]
        exact h.firstFree_ne_rootBlock hb
      refine htake.writeAt hkpos ?_ (firstFree_eq_some.mp hb).2.1 hne ?_ hfit
      · rw [State.takeBlock_inode]
      · rw [State.takeBlock_inode, hsize]
        exact Nat.zero_le _
  | inPlace hi hk hn hpos hfit hsize hb hlt =>
      rename_i i k b n
      obtain ⟨k', hk', hkpos, hklt⟩ := h.data.handleIno i hi
      obtain rfl : k' = k := by omega
      have hu : s.InUse k' := ⟨hklt, Or.inr ⟨i, hi, hk⟩⟩
      obtain ⟨b', hb', -, hne⟩ := h.data.block k' hkpos hu hsize
      obtain rfl : b' = b := by omega
      exact h.writeAt hkpos hb hlt hne (h.data.size_le k' hkpos hu) hfit

theorem of_read (h : FsInv s L) {fh : Int} {len : Nat} {res : Int × List UInt8 × State}
    (ho : ReadOutcome s len fh res) : FsInv res.2.2 L := by
  cases ho with
  | closed hget => exact h
  | nothing hi hk hn => exact h
  | data hi hk hn hpos hb hlt hle =>
      have hmax := (h.root.sane.block_lt hlt).2
      exact h.seek _ _ (by omega)

theorem exec_outcome (h : FsInv s L) {c : Call} {r : Ret} (he : exec s c = .ok (r, s')) :
    CallOutcome s L c (r, s') := by
  cases c with
  | «open» name mode =>
      obtain ⟨res, hres, ho⟩ := h.tfsOpen_outcome name mode
      rw [exec, hres, ok_bind] at he
      cases he
      exact .open ho
  | close fhandle =>
      rw [exec, tfsClose_eq, ok_bind] at he
      cases hget : getOpenFileEntry s fhandle with
      | none =>
          rw [hget] at he
          cases he
          exact .notOpen hget
      | some i =>
          rw [hget] at he
          cases he
          exact .close hget
  | read fhandle len =>
      obtain ⟨res, hres, he⟩ := bind_eq_ok he
      cases he
      exact .read (h.tfsRead_outcome hres)
  | write fhandle buffer n =>
      rcases h.tfsWrite_outcome fhandle buffer n with ⟨res, hres, ho⟩ | ⟨hres, -⟩
      · rw [exec, hres, ok_bind] at he
        cases he
        exact .write ho
      · rw [exec, hres, error_bind] at he
        cases he
  | unlink target =>
      obtain ⟨res, hres, ho⟩ := h.tfsUnlink_outcome target
      rw [exec, hres, ok_bind] at he
      cases he
      exact .unlink ho

/-- Only `tfs_open` and `tfs_unlink` change the layout. -/
theorem step_handle (h : FsInv s L) {c : Call} (hopen : ∀ name mode, c ≠ .open name mode)
    (hunlink : ∀ target, c ≠ .unlink target) (hs : Step s c s') : FsInv s' L := by
  obtain ⟨r, hr⟩ := hs
  cases h.exec_outcome hr with
  | «open» ho => exact absurd rfl (hopen _ _)
  | notOpen hget => exact h
  | close hget => exact h.closeAt _
  | read ho => exact h.of_read ho
  | write ho => exact h.of_write ho
  | unlink ho => exact absurd rfl (hunlink _)

theorem step (h : FsInv s L) {c : Call} (hs : Step s c s') : ∃ L', FsInv s' L' := by
  have ⟨r, hr⟩ := hs
  cases h.exec_outcome hr with
  | «open» ho => exact (h.of_open ho).imp fun _ => And.left
  | unlink ho => exact (h.of_unlink ho).imp fun _ => And.left
  | _ => exact ⟨L, h.step_handle (by simp) (by simp) hs⟩

theorem steps {cs : List Call} (hrun : Steps Step s cs s') (h : ∃ L, FsInv s L) : ∃ L, FsInv s' L :=
  hrun.invariant (I := fun s => ∃ L, FsInv s L) (fun _ _ _ ⟨_, hI⟩ hs => hI.step hs) h

end FsInv

end Mbroker.Fs
