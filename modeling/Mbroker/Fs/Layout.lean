import Mbroker.Fs.Lemmas.Basic

/-!
# The invariant of the tables

`RootOk s L` says that the root directory of `s` holds exactly the entries that the layout `L` names, in
bijection with the inodes in use; `DataOk s` says what holds of the handles and of the blocks they reach,
also of handles whose file was unlinked. Both hold of every state of every run.
-/

namespace Mbroker.Fs

open Mbroker.Lib

namespace State

def rootBlock (s : State) : Nat := (s.inodeTable.cell 0).iDataBlock.toNat

/-- Where the root directory's entries start in `fs_data`. -/
def rootPtr (s : State) : Nat := s.rootBlock * s.blockSize

def rootEntry (s : State) (i : Nat) : DirEntry := s.dirEntry s.rootPtr i

/-- An inode that a file of the directory or an open handle refers to. -/
def InUse (s : State) (k : Nat) : Prop :=
  k < s.inodeTableSize ∧
    (s.freeinodeTs.cell k = .taken ∨ ∃ h, s.IsOpen h ∧ (s.openFileTable.cell h).ofInumber = k)

end State

/-- A name that `add_dir_entry` accepts. -/
def NameOk (n : List UInt8) : Prop := 0 ∉ n ∧ 0 < n.length ∧ n.length < maxFileName

/-- The files of a directory: their names, and the entry and the inode of each. -/
structure Layout where
  names : Finset (List UInt8)
  slot : List UInt8 → Nat
  ino : List UInt8 → Nat

structure RootOk (s : State) (L : Layout) : Prop where
  sane : Sane s.fsParams
  inodes_pos : 0 < s.inodeTableSize
  rootTaken : s.freeinodeTs.cell 0 = .taken
  rootType : (s.inodeTable.cell 0).iNodeType = .directory
  rootSize : (s.inodeTable.cell 0).iSize = s.blockSize
  rootValid : s.validBlockNumber (s.inodeTable.cell 0).iDataBlock = true
  nameOk : ∀ n ∈ L.names, NameOk n
  slot_lt : ∀ n ∈ L.names, L.slot n < s.maxDirEntries
  slot_inj : ∀ n ∈ L.names, ∀ m ∈ L.names, L.slot n = L.slot m → n = m
  entryName : ∀ n ∈ L.names, (s.rootEntry (L.slot n)).dName.IsStr n
  entryIno : ∀ n ∈ L.names, (s.rootEntry (L.slot n)).dInumber = L.ino n
  live : ∀ i < s.maxDirEntries, (s.rootEntry i).dInumber ≠ -1 → ∃ n ∈ L.names, L.slot n = i
  /-- The entries that were ever used are the first ones; those cleared since have an empty name. -/
  used : ∃ u ≤ s.maxDirEntries, (∀ n ∈ L.names, L.slot n < u) ∧
    ∀ i < u, (s.rootEntry i).dInumber = -1 → (s.rootEntry i).dName 0 = 0
  ino_pos : ∀ n ∈ L.names, 0 < L.ino n
  ino_lt : ∀ n ∈ L.names, L.ino n < s.inodeTableSize
  ino_inj : ∀ n ∈ L.names, ∀ m ∈ L.names, L.ino n = L.ino m → n = m
  inoType : ∀ n ∈ L.names, (s.inodeTable.cell (L.ino n)).iNodeType = .file
  taken : ∀ k < s.inodeTableSize,
    s.freeinodeTs.cell k = .taken ↔ k = 0 ∨ ∃ n ∈ L.names, L.ino n = k

structure DataOk (s : State) : Prop where
  bytes : s.fsData.bytes = some (s.dataBlocks * s.blockSize)
  rootBlockTaken : s.freeBlocks.cell s.rootBlock = .taken
  handleIno : ∀ h, s.IsOpen h →
    ∃ k : Nat, (s.openFileTable.cell h).ofInumber = k ∧ 0 < k ∧ k < s.inodeTableSize
  handleOff : ∀ h, s.IsOpen h → (s.openFileTable.cell h).ofOffset < 2 ^ 64
  size_le : ∀ k, 0 < k → s.InUse k → (s.inodeTable.cell k).iSize ≤ s.blockSize
  /-- No file has the root directory's block. -/
  block : ∀ k, 0 < k → s.InUse k → 0 < (s.inodeTable.cell k).iSize →
    ∃ b : Nat, (s.inodeTable.cell k).iDataBlock = b ∧ b < s.dataBlocks ∧ b ≠ s.rootBlock

/-- The invariant of every run. -/
structure FsInv (s : State) (L : Layout) : Prop where
  root : RootOk s L
  data : DataOk s

end Mbroker.Fs
