import Mbroker.Fs.Lemmas.Directory

/-!
# What tfs_open and tfs_unlink can do

For each operation, a relation between its arguments, its result and the state it leaves, with a constructor
for each way through the source, and the lemma that every call is one of them.
-/

namespace Mbroker.Fs

open Mbroker.Lib

/-! ## The changes to the state -/

namespace State

/-- The inode `k` loses its contents: `TFS_O_TRUNC` on a file that has some. -/
def truncateInode (s : State) (k : Nat) : State :=
  { s with
    freeBlocks := s.freeBlocks.set (s.inodeTable.cell k).iDataBlock.toNat .free
    inodeTable := s.inodeTable.set k { s.inodeTable.cell k with iSize := 0 } }

/-- The state after `inode_delete`. -/
def deleteInode (s : State) (k : Nat) : State :=
  { s with
    freeBlocks := if 0 < (s.inodeTable.cell k).iSize
      then s.freeBlocks.set (s.inodeTable.cell k).iDataBlock.toNat .free else s.freeBlocks
    freeinodeTs := s.freeinodeTs.set k .free }

/-- The state after `tfs_open` created the file `name` with the inode `k` and the entry `i`. -/
def createFile (s : State) (i k : Nat) (name : CString) : State :=
  (s.createInode k).writeEntry s.rootPtr i name k

/-- The state after `tfs_unlink` removed the file with the inode `k` and the entry `i`. -/
def removeFile (s : State) (i k : Nat) : State := (s.deleteInode k).wipeEntry s.rootPtr i

end State

/-! ## tfs_open -/

/-- What `tfs_open` does with the path `p`. -/
inductive OpenOutcome (s : State) (L : Layout) (mode : Nat) : Option CString → Int × State → Prop
  | null : OpenOutcome s L mode none (-1, s)
  | invalid {p} : validPathname p = false → OpenOutcome s L mode (some p) (-1, s)
  | absent {p} : validPathname p = true → p.tail.chars ∉ L.names → hasFlag mode tfsOCreat = false →
      OpenOutcome s L mode (some p) (-1, s)
  | noInode {p} : validPathname p = true → p.tail.chars ∉ L.names → hasFlag mode tfsOCreat = true →
      firstFree s.freeinodeTs s.inodeTableSize = none → OpenOutcome s L mode (some p) (-1, s)
  | noEntry {p k} : validPathname p = true → p.tail.chars ∉ L.names → hasFlag mode tfsOCreat = true →
      firstFree s.freeinodeTs s.inodeTableSize = some k →
      (maxFileName - 1 < p.tail.strlen ∨
        firstIndex (fun i => (s.dirEntry s.rootPtr i).dInumber = -1) s.maxDirEntries = none) →
      OpenOutcome s L mode (some p) (-1, s.setInode k newFile)
  | existing {p} : validPathname p = true → p.tail.chars ∈ L.names →
      (hasFlag mode tfsOTrunc = false ∨ (s.inodeTable.cell (L.ino p.tail.chars)).iSize = 0) →
      OpenOutcome s L mode (some p) (addToOpenFileTable s (L.ino p.tail.chars)
        (if hasFlag mode tfsOAppend then (s.inodeTable.cell (L.ino p.tail.chars)).iSize else 0))
  | truncated {p} : validPathname p = true → p.tail.chars ∈ L.names → hasFlag mode tfsOTrunc = true →
      0 < (s.inodeTable.cell (L.ino p.tail.chars)).iSize →
      OpenOutcome s L mode (some p)
        (addToOpenFileTable (s.truncateInode (L.ino p.tail.chars)) (L.ino p.tail.chars) 0)
  | created {p k i} : validPathname p = true → p.tail.chars ∉ L.names → hasFlag mode tfsOCreat = true →
      firstFree s.freeinodeTs s.inodeTableSize = some k → p.tail.strlen < maxFileName →
      firstIndex (fun i => (s.dirEntry s.rootPtr i).dInumber = -1) s.maxDirEntries = some i →
      OpenOutcome s L mode (some p)
        (addToOpenFileTable (s.createFile i k p.tail) k 0)

theorem CString.length_tail (p : CString) : p.tail.strlen = p.strlen - 1 := by
  simp [CString.tail, CString.strlen]

theorem tail_ne_nil {p : CString} (h : validPathname p = true) : 0 < p.tail.strlen := by
  simp only [validPathname, decide_eq_true_eq] at h
  rw [CString.length_tail]
  omega

theorem tfsLookup_eq {s : State} {L : Layout} (h : RootOk s L) {p : CString} (hp : validPathname p = true) :
    tfsLookup s p 0 = .ok (if p.tail.chars ∈ L.names then (L.ino p.tail.chars : Int) else -1) := by
  simp only [tfsLookup, hp, Bool.not_true, Bool.false_eq_true, ↓reduceIte, h.findInDir_eq]

theorem inodeDelete_eq {s : State} {k : Nat} (hk : k < s.inodeTableSize)
    (ht : s.freeinodeTs.cell k = .taken)
    (hb : 0 < (s.inodeTable.cell k).iSize → s.validBlockNumber (s.inodeTable.cell k).iDataBlock = true) :
    inodeDelete s k = .ok (s.deleteInode k) := by
  simp only [inodeDelete, alwaysAssert_of (validInumber_natCast hk), ok_bind, Int.toNat_natCast, ht,
    alwaysAssert_of, decide_true]
  by_cases hsize : 0 < (s.inodeTable.cell k).iSize
  · simp only [hsize, ↓reduceIte, dataBlockFree_of_valid (hb hsize), ok_bind, pure_eq_ok, State.deleteInode]
  · simp only [hsize, ↓reduceIte, pure_eq_ok, ok_bind, State.deleteInode]

namespace FsInv

variable {s : State} {L : Layout}

theorem inUse_ino (h : FsInv s L) {n : List UInt8} (hn : n ∈ L.names) : s.InUse (L.ino n) :=
  ⟨h.root.ino_lt n hn, Or.inl ((h.root.taken _ (h.root.ino_lt n hn)).mpr (Or.inr ⟨n, hn, rfl⟩))⟩

theorem validBlock (h : FsInv s L) {k : Nat} (hk : 0 < k) (hu : s.InUse k)
    (hsize : 0 < (s.inodeTable.cell k).iSize) :
    s.validBlockNumber (s.inodeTable.cell k).iDataBlock = true := by
  obtain ⟨b, hb, hlt, -⟩ := h.data.block k hk hu hsize
  exact validBlockNumber_iff.mpr ⟨b, hb, hlt⟩

theorem firstFree_pos (h : FsInv s L) {k : Nat} (hk : firstFree s.freeinodeTs s.inodeTableSize = some k) :
    0 < k := by
  obtain ⟨hfree, -, -⟩ := firstFree_eq_some.mp hk
  rcases Nat.eq_zero_or_pos k with rfl | hpos
  · rw [h.root.rootTaken] at hfree; cases hfree
  · exact hpos

theorem sameDir_createInode (h : FsInv s L) {k : Nat}
    (hk : firstFree s.freeinodeTs s.inodeTableSize = some k) : SameDir s (s.createInode k) :=
  ⟨rfl, Table.set_cell_ne _ _ (h.firstFree_pos hk).ne, rfl⟩

theorem tfsOpen_outcome (h : FsInv s L) (name : Option CString) (mode : Nat) :
    ∃ res, tfsOpen s name mode = .ok res ∧ OpenOutcome s L mode name res := by
  cases name with
  | none => exact ⟨_, rfl, .null⟩
  | some p =>
      by_cases hp : validPathname p = true
      swap
      · have hp : validPathname p = false := by simpa using hp
        exact ⟨_, by simp [tfsOpen, hp, pure_eq_ok], .invalid hp⟩
      have hneg : ¬ (0 : Int) ≤ -1 := by omega
      by_cases hn : p.tail.chars ∈ L.names
      · -- the file exists
        have hpos : (0 : Int) ≤ L.ino p.tail.chars := by omega
        have hget := inodeGet_natCast (h.root.ino_lt _ hn)
        by_cases ht : hasFlag mode tfsOTrunc = true ∧ 0 < (s.inodeTable.cell (L.ino p.tail.chars)).iSize
        · refine ⟨_, ?_, .truncated hp hn ht.1 ht.2⟩
          have hvalid := h.validBlock (h.root.ino_pos _ hn) (h.inUse_ino hn) ht.2
          simp [tfsOpen, hp, h.root.inodeGet_root, tfsLookup_eq h.root hp, hn, hpos, hget, truncate, ht,
            dataBlockFree_of_valid hvalid, State.setInode, State.truncateInode, pure_eq_ok]
        · refine ⟨_, ?_, .existing hp hn ?_⟩
          · simp only [tfsOpen, hp, h.root.inodeGet_root, tfsLookup_eq h.root hp, hn, hpos, hget, truncate, ht,
              pure_eq_ok, ok_bind, ↓reduceIte, Bool.not_true, Bool.false_eq_true]
          · by_cases hf : hasFlag mode tfsOTrunc = true
            · exact Or.inr (by simpa [hf] using ht)
            · exact Or.inl (by simpa using hf)
      · by_cases hc : hasFlag mode tfsOCreat = true
        swap
        · have hc : hasFlag mode tfsOCreat = false := by simpa using hc
          refine ⟨_, ?_, .absent hp hn hc⟩
          simp [tfsOpen, hp, h.root.inodeGet_root, tfsLookup_eq h.root hp, hn, hc, pure_eq_ok]
        cases hk : firstFree s.freeinodeTs s.inodeTableSize with
        | none =>
            refine ⟨_, ?_, .noInode hp hn hc hk⟩
            simp [tfsOpen, hp, h.root.inodeGet_root, tfsLookup_eq h.root hp, hn, hc,
              inodeCreate_file h.root.sane, hk, pure_eq_ok]
        | some k =>
            have hne : ((k : Int) = -1) = False := eq_false (by omega)
            have hadd := h.root.addDirEntry_eq (h.sameDir_createInode hk) p.tail k
            have hnz : ¬ p.tail.strlen = 0 := (tail_ne_nil hp).ne'
            obtain ⟨hfree, hlt, -⟩ := firstFree_eq_some.mp hk
            -- giving the inode back leaves only its cell changed
            have hdel : inodeDelete (s.createInode k) k = .ok (s.setInode k newFile) := by
              have hback := Table.set_set_self s.freeinodeTs k .taken
              rw [hfree] at hback
              rw [inodeDelete_eq (by exact hlt) (Table.set_cell_same _ _ _)
                (by simp [State.createInode, newFile])]
              simp only [State.deleteInode, State.createInode, State.setInode, newFile, Table.set_cell_same,
                Nat.lt_irrefl, ↓reduceIte, hback]
            by_cases hlen : maxFileName - 1 < p.tail.strlen
            · refine ⟨_, ?_, .noEntry hp hn hc hk (Or.inl hlen)⟩
              simp only [hlen, or_true, ↓reduceIte] at hadd
              simp [tfsOpen, hp, h.root.inodeGet_root, tfsLookup_eq h.root hp, hn, hc,
                inodeCreate_file h.root.sane, hk, hne, hadd, hdel, pure_eq_ok]
            · have hcond : ¬ (p.tail.strlen = 0 ∨ maxFileName - 1 < p.tail.strlen) := by
                rintro (h' | h')
                · exact hnz h'
                · exact hlen h'
              simp only [hcond, ↓reduceIte] at hadd
              cases hi : firstIndex (fun i => decide ((s.dirEntry s.rootPtr i).dInumber = -1))
                  s.maxDirEntries with
              | none =>
                  refine ⟨_, ?_, .noEntry hp hn hc hk (Or.inr hi)⟩
                  simp only [hi] at hadd
                  simp [tfsOpen, hp, h.root.inodeGet_root, tfsLookup_eq h.root hp, hn, hc,
                    inodeCreate_file h.root.sane, hk, hne, hadd, hdel, pure_eq_ok]
              | some i =>
                  have hlt' : p.tail.strlen < maxFileName := by
                    simp only [maxFileName] at hlen ⊢; omega
                  refine ⟨_, ?_, .created hp hn hc hk hlt' hi⟩
                  simp only [hi] at hadd
                  simp [tfsOpen, hp, h.root.inodeGet_root, tfsLookup_eq h.root hp, hn, hc,
                    inodeCreate_file h.root.sane, hk, hne, hadd, pure_eq_ok, State.createFile]

end FsInv

/-! ## tfs_unlink -/

inductive UnlinkOutcome (s : State) (L : Layout) : Option CString → Int × State → Prop
  | null : UnlinkOutcome s L none (-1, s)
  | invalid {p} : validPathname p = false → UnlinkOutcome s L (some p) (-1, s)
  | absent {p} : validPathname p = true → p.tail.chars ∉ L.names → UnlinkOutcome s L (some p) (-1, s)
  | removed {p} : validPathname p = true → p.tail.chars ∈ L.names →
      UnlinkOutcome s L (some p)
        (0, s.removeFile (L.slot p.tail.chars) (L.ino p.tail.chars))

namespace FsInv

variable {s : State} {L : Layout}

theorem inodeDelete_ino (h : FsInv s L) {n : List UInt8} (hn : n ∈ L.names) :
    inodeDelete s (L.ino n) = .ok (s.deleteInode (L.ino n)) := by
  obtain ⟨hlt, -⟩ := h.inUse_ino hn
  have ht := (h.root.taken _ hlt).mpr (Or.inr ⟨n, hn, rfl⟩)
  exact inodeDelete_eq hlt ht fun hs => h.validBlock (h.root.ino_pos _ hn) (h.inUse_ino hn) hs

theorem tfsUnlink_outcome (h : FsInv s L) (target : Option CString) :
    ∃ res, tfsUnlink s target = .ok res ∧ UnlinkOutcome s L target res := by
  cases target with
  | none => exact ⟨_, rfl, .null⟩
  | some p =>
      by_cases hp : validPathname p = true
      swap
      · have hp : validPathname p = false := by simpa using hp
        exact ⟨_, by simp [tfsUnlink, hp, pure_eq_ok], .invalid hp⟩
      by_cases hn : p.tail.chars ∈ L.names
      · refine ⟨_, ?_, .removed hp hn⟩
        have hne : ((L.ino p.tail.chars : Int) = -1) = False := eq_false (by omega)
        have hsame : SameDir s (s.deleteInode (L.ino p.tail.chars)) := ⟨rfl, rfl, rfl⟩
        simp [tfsUnlink, hp, h.root.inodeGet_root, tfsLookup_eq h.root hp, hn, hne, h.inodeDelete_ino hn,
          h.root.clearDirEntry_eq hsame hn, pure_eq_ok, State.removeFile]
      · refine ⟨_, ?_, .absent hp hn⟩
        simp [tfsUnlink, hp, h.root.inodeGet_root, tfsLookup_eq h.root hp, hn, pure_eq_ok]

end FsInv

end Mbroker.Fs
