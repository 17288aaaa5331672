import Mbroker.Lib.Tables
import Mbroker.Lib.Memory

/-!
# The state of TecnicoFS

The tables of `fs/state.c` and the functions on them. A table is the memory behind one of the static pointers.
An index into a table is checked by the source against `fs_params` only, so the tables are total functions
here; what `malloc` gave is kept beside them. A pointer into a table is the index it points to.

`insert_delay` only spends time and does not appear, except for the remainder that decides whether it is called.
-/

namespace Mbroker.Fs

open Mbroker.Lib

/-! ## Sizes and integers -/

/-- `ROOT_DIR_INUM` -/
def rootDirInum : Int := 0

/-- `MAX_FILE_NAME` -/
def maxFileName : Nat := 40

/-- `sizeof(inode_t)` -/
def sizeofInode : Nat := 24

/-- `sizeof(allocation_state_t)` -/
def sizeofAllocationState : Nat := 4

/-- `sizeof(open_file_entry_t)` -/
def sizeofOpenFileEntry : Nat := 16

/-- `sizeof(dir_entry_t)`: the name and an `int`. -/
def sizeofDirEntry : Nat := maxFileName + 4

/-- A value of `size_t`. -/
def toSize (n : Nat) : Nat := n % 2 ^ 64

/-- `a - b` on `size_t`. -/
def sizeSub (a b : Nat) : Nat := toSize (a + 2 ^ 64 - b)

/-- `(int) n` for a `size_t` n. -/
def toInt (n : Nat) : Int := Int.bmod n (2 ^ 32)

/-- `(ssize_t) n` for a `size_t` n. -/
def toSsize (n : Nat) : Int := Int.bmod n (2 ^ 64)

/-! ## Faults -/

/-- How a call can fail to return: a failed `ALWAYS_ASSERT` (the process exits), a remainder by zero, or an
access outside the memory behind a table, whose behaviour is undefined. -/
inductive Fault
  | panic (msg : String)
  | divByZero
  | outOfBounds
  deriving DecidableEq, Repr

/-- `ALWAYS_ASSERT` -/
def alwaysAssert (c : Bool) (msg : String) : Except Fault Unit :=
  if c then .ok () else .error (.panic msg)

/-- `a % b` on `size_t`. -/
def remainder (a b : Nat) : Except Fault Nat :=
  if b = 0 then .error .divByZero else .ok (a % b)

/-- The index an `int` reaches in a table. -/
def index (i : Int) : Except Fault Nat :=
  if i < 0 then .error .outOfBounds else .ok i.toNat

/-! ## The tables -/

structure TfsParams where
  maxInodeCount : Nat
  maxBlockCount : Nat
  maxOpenFilesCount : Nat
  blockSize : Nat
  deriving DecidableEq, Repr

inductive InodeType
  | file
  | directory
  deriving DecidableEq, Repr

structure Inode where
  iNodeType : InodeType
  iSize : Nat
  iDataBlock : Int
  deriving DecidableEq, Repr

inductive AllocationState
  | free
  | taken
  deriving DecidableEq, Repr

structure OpenFileEntry where
  ofInumber : Int
  ofOffset : Nat
  deriving DecidableEq, Repr

/-- A directory entry, read from the bytes of a block. -/
structure DirEntry where
  dName : Mem
  dInumber : Int

/-- The memory behind a pointer: how many bytes `malloc` gave (`none` for NULL), and what they hold. -/
structure Table (α : Type) where
  bytes : Option Nat
  cell : Nat → α

namespace Table

variable {α : Type}

def set (t : Table α) (i : Nat) (a : α) : Table α := { t with cell := Function.update t.cell i a }

@[simp] theorem set_cell_same (t : Table α) (i : Nat) (a : α) : (t.set i a).cell i = a := by simp [set]

@[simp] theorem set_cell_ne (t : Table α) {i j : Nat} (a : α) (h : j ≠ i) :
    (t.set i a).cell j = t.cell j := by simp [set, h]

theorem set_cell (t : Table α) (i j : Nat) (a : α) :
    (t.set i a).cell j = if j = i then a else t.cell j := by simp [set, Function.update_apply]

/-- Writing back what a cell held undoes a write. -/
theorem set_set_self (t : Table α) (i : Nat) (a : α) : (t.set i a).set i (t.cell i) = t := by
  simp [set]

/-- The loop that writes `a` to the first `n` cells. -/
def fill (t : Table α) (n : Nat) (a : α) : Table α :=
  { t with cell := fun i => if i < n then a else t.cell i }

/-- What a pointer points to after `malloc(n)`: nothing, or `n` bytes with some contents. -/
def malloc (n : Nat) (t : Table α) (contents : Option (Nat → α)) : Table α :=
  match contents with
  | none => { t with bytes := none }
  | some c => ⟨some n, c⟩

def isNull (t : Table α) : Bool := t.bytes.isNone

end Table

/-- The static variables of `fs/state.c`. -/
structure State where
  fsParams : TfsParams
  inodeTable : Table Inode
  freeinodeTs : Table AllocationState
  fsData : Table UInt8
  freeBlocks : Table AllocationState
  openFileTable : Table OpenFileEntry
  freeOpenFileEntries : Table AllocationState

namespace State

/-- `INODE_TABLE_SIZE` -/
def inodeTableSize (s : State) : Nat := s.fsParams.maxInodeCount

/-- `DATA_BLOCKS` -/
def dataBlocks (s : State) : Nat := s.fsParams.maxBlockCount

/-- `MAX_OPEN_FILES` -/
def maxOpenFiles (s : State) : Nat := s.fsParams.maxOpenFilesCount

/-- `BLOCK_SIZE` -/
def blockSize (s : State) : Nat := s.fsParams.blockSize

/-- `MAX_DIR_ENTRIES` -/
def maxDirEntries (s : State) : Nat := s.blockSize / sizeofDirEntry

def validInumber (s : State) (inumber : Int) : Bool := 0 ≤ inumber ∧ inumber < s.inodeTableSize

def validBlockNumber (s : State) (blockNumber : Int) : Bool :=
  0 ≤ blockNumber ∧ blockNumber < s.dataBlocks

def validFileHandle (s : State) (fileHandle : Int) : Bool :=
  0 ≤ fileHandle ∧ fileHandle < s.maxOpenFiles

def setInode (s : State) (i : Nat) (inode : Inode) : State :=
  { s with inodeTable := s.inodeTable.set i inode }

/-- `memcpy(&fs_data[lo], src, n)` -/
def poke (s : State) (lo : Nat) (src : Mem) (n : Nat) : State :=
  { s with fsData := { s.fsData with cell := Mem.copy s.fsData.cell lo src n } }

/-- Whether the `n` bytes of `fs_data` from `lo` on were allocated. -/
def inData (s : State) (lo n : Nat) : Bool :=
  match s.fsData.bytes with
  | none => false
  | some size => lo + n ≤ size

/-- `dir_entry[i]`, where `dir_entry` points to `fs_data[p]`. -/
def dirEntry (s : State) (p i : Nat) : DirEntry where
  dName := Mem.ptr s.fsData.cell (p + sizeofDirEntry * i)
  dInumber := readInt32 (Mem.ptr s.fsData.cell (p + sizeofDirEntry * i + maxFileName))

/-- `dir_entry[i].d_inumber = v` -/
def setDInumber (s : State) (p i : Nat) (v : Int) : State :=
  s.poke (p + sizeofDirEntry * i + maxFileName) (int32Mem v) 4

/-- The first `n` bytes at `dir_entry[i].d_name` become those of `src`. -/
def setDName (s : State) (p i : Nat) (src : Mem) (n : Nat) : State :=
  s.poke (p + sizeofDirEntry * i) src n

end State

/-! ## Initialisation -/

/-- What the six calls of `malloc` in `state_init` return. -/
structure Malloc where
  inodeTable : Option (Nat → Inode)
  freeinodeTs : Option (Nat → AllocationState)
  fsData : Option Mem
  freeBlocks : Option (Nat → AllocationState)
  openFileTable : Option (Nat → OpenFileEntry)
  freeOpenFileEntries : Option (Nat → AllocationState)

/-- The static variables before any call: every pointer is NULL. -/
def State.static : State where
  fsParams := ⟨0, 0, 0, 0⟩
  inodeTable := ⟨none, fun _ => ⟨.file, 0, 0⟩⟩
  freeinodeTs := ⟨none, fun _ => .free⟩
  fsData := ⟨none, fun _ => 0⟩
  freeBlocks := ⟨none, fun _ => .free⟩
  openFileTable := ⟨none, fun _ => ⟨0, 0⟩⟩
  freeOpenFileEntries := ⟨none, fun _ => .free⟩

/-- A `malloc` that succeeds with memory that holds zeros. -/
def Malloc.zeros : Malloc where
  inodeTable := some fun _ => ⟨.file, 0, 0⟩
  freeinodeTs := some fun _ => .free
  fsData := some fun _ => 0
  freeBlocks := some fun _ => .free
  openFileTable := some fun _ => ⟨0, 0⟩
  freeOpenFileEntries := some fun _ => .free

def stateInit (m : Malloc) (s : State) (params : TfsParams) : Int × State :=
  let s := { s with fsParams := params }
  if s.inodeTable.isNull then
    let s :=
      { s with
        inodeTable := s.inodeTable.malloc (toSize (s.inodeTableSize * sizeofInode)) m.inodeTable
        freeinodeTs :=
          s.freeinodeTs.malloc (toSize (s.inodeTableSize * sizeofAllocationState)) m.freeinodeTs
        fsData := s.fsData.malloc (toSize (s.dataBlocks * s.blockSize)) m.fsData
        freeBlocks := s.freeBlocks.malloc (toSize (s.dataBlocks * sizeofAllocationState)) m.freeBlocks
        openFileTable :=
          s.openFileTable.malloc (toSize (s.maxOpenFiles * sizeofOpenFileEntry)) m.openFileTable
        freeOpenFileEntries :=
          s.freeOpenFileEntries.malloc (toSize (s.maxOpenFiles * sizeofAllocationState))
            m.freeOpenFileEntries }
    if s.inodeTable.isNull || s.freeinodeTs.isNull || s.fsData.isNull || s.freeBlocks.isNull ||
        s.openFileTable.isNull || s.freeOpenFileEntries.isNull then
      (-1, s)
    else
      (0, { s with
        freeinodeTs := s.freeinodeTs.fill s.inodeTableSize .free
        freeBlocks := s.freeBlocks.fill s.dataBlocks .free
        freeOpenFileEntries := s.freeOpenFileEntries.fill s.maxOpenFiles .free })
  else
    (-1, s)

def stateDestroy (s : State) : Int × State :=
  (0, { s with
    inodeTable := { s.inodeTable with bytes := none }
    freeinodeTs := { s.freeinodeTs with bytes := none }
    fsData := { s.fsData with bytes := none }
    freeBlocks := { s.freeBlocks with bytes := none }
    openFileTable := { s.openFileTable with bytes := none }
    freeOpenFileEntries := { s.freeOpenFileEntries with bytes := none } })

/-! ## Data blocks -/

/-- The allocation loop of `inode_alloc` and `data_block_alloc`, from entry `i` on with `n` entries left: the
first FREE entry. The remainder is evaluated before every entry is looked at. -/
def findFree (blockSize : Nat) (ts : Nat → AllocationState) : Nat → Nat → Except Fault (Option Nat)
  | _, 0 => return none
  | i, n + 1 => do
    let _ ← remainder (i * sizeofAllocationState) blockSize
    if ts i = .free then return some i
    findFree blockSize ts (i + 1) n

def dataBlockAlloc (s : State) : Except Fault (Int × State) := do
  match ← findFree s.blockSize s.freeBlocks.cell 0 s.dataBlocks with
  | some i => return (toInt i, { s with freeBlocks := s.freeBlocks.set i .taken })
  | none => return (-1, s)

def dataBlockFree (s : State) (blockNumber : Int) : Except Fault State := do
  alwaysAssert (s.validBlockNumber blockNumber) "data_block_free: invalid block number"
  return { s with freeBlocks := s.freeBlocks.set blockNumber.toNat .free }

/-- The pointer to the block, as an index into `fs_data`. -/
def dataBlockGet (s : State) (blockNumber : Int) : Except Fault Nat := do
  alwaysAssert (s.validBlockNumber blockNumber) "data_block_get: invalid block number"
  return toSize (blockNumber.toNat * s.blockSize)

/-! ## Inodes -/

def inodeAlloc (s : State) : Except Fault (Int × State) := do
  match ← findFree s.blockSize s.freeinodeTs.cell 0 s.inodeTableSize with
  | some inumber => return (toInt inumber, { s with freeinodeTs := s.freeinodeTs.set inumber .taken })
  | none => return (-1, s)

def inodeDelete (s : State) (inumber : Int) : Except Fault State := do
  alwaysAssert (s.validInumber inumber) "inode_delete: invalid inumber"
  let i := inumber.toNat
  alwaysAssert (s.freeinodeTs.cell i = .taken) "inode_delete: inode already freed"
  let s ← if 0 < (s.inodeTable.cell i).iSize then dataBlockFree s (s.inodeTable.cell i).iDataBlock
    else pure s
  return { s with freeinodeTs := s.freeinodeTs.set i .free }

/-- The pointer to the inode, as an index into the inode table. -/
def inodeGet (s : State) (inumber : Int) : Except Fault Nat := do
  alwaysAssert (s.validInumber inumber) "inode_get: invalid inumber"
  return inumber.toNat

/-- The loop of `inode_create` that labels every entry of a new directory as empty. -/
def clearDirEntries (s : State) (p n : Nat) : State :=
  (List.range n).foldl (fun s i => s.setDInumber p i (-1)) s

def inodeCreate (s : State) (iType : InodeType) : Except Fault (Int × State) := do
  let (inumber, s) ← inodeAlloc s
  if inumber = -1 then return (-1, s)
  let i ← index inumber
  let s := s.setInode i { s.inodeTable.cell i with iNodeType := iType }
  match iType with
  | .directory =>
    let (b, s) ← dataBlockAlloc s
    if b = -1 then
      let s := s.setInode i { s.inodeTable.cell i with iSize := 0, iDataBlock := -1 }
      let s ← inodeDelete s inumber
      return (-1, s)
    let s := s.setInode i { s.inodeTable.cell i with iSize := s.blockSize, iDataBlock := b }
    let p ← dataBlockGet s b
    return (inumber, clearDirEntries s p s.maxDirEntries)
  | .file =>
    return (inumber, s.setInode i { s.inodeTable.cell i with iSize := 0, iDataBlock := -1 })

/-! ## The directory -/

/-- `inode` is the index of the directory's inode. -/
def clearDirEntry (s : State) (inode : Nat) (subName : CString) : Except Fault (Int × State) := do
  if (s.inodeTable.cell inode).iNodeType ≠ .directory then return (-1, s)
  let p ← dataBlockGet s (s.inodeTable.cell inode).iDataBlock
  match firstIndex (fun i => strcmp (s.dirEntry p i).dName subName = 0) s.maxDirEntries with
  | some i => return (0, (s.setDInumber p i (-1)).setDName p i (fun _ => 0) maxFileName)
  | none => return (-1, s)

/-- `strncpy` pads the name with NULs, which is what lies behind the end of a `CString`. -/
def addDirEntry (s : State) (inode : Nat) (subName : CString) (subInumber : Int) :
    Except Fault (Int × State) := do
  if subName.strlen = 0 ∨ maxFileName - 1 < subName.strlen then return (-1, s)
  if (s.inodeTable.cell inode).iNodeType ≠ .directory then return (-1, s)
  let p ← dataBlockGet s (s.inodeTable.cell inode).iDataBlock
  match firstIndex (fun i => (s.dirEntry p i).dInumber = -1) s.maxDirEntries with
  | some i =>
    let s := s.setDInumber p i subInumber
    let s := s.setDName p i subName.mem (maxFileName - 1)
    return (0, s.poke (p + sizeofDirEntry * i + (maxFileName - 1)) (fun _ => 0) 1)
  | none => return (-1, s)

def findInDir (s : State) (inode : Nat) (subName : CString) : Except Fault Int := do
  if (s.inodeTable.cell inode).iNodeType ≠ .directory then return -1
  let p ← dataBlockGet s (s.inodeTable.cell inode).iDataBlock
  match firstIndex
      (fun i => (s.dirEntry p i).dInumber ≠ -1 ∧
        strncmp (s.dirEntry p i).dName subName.mem maxFileName = 0) s.maxDirEntries with
  | some i => return (s.dirEntry p i).dInumber
  | none => return -1

/-! ## Open files -/

def addToOpenFileTable (s : State) (inumber : Int) (offset : Nat) : Int × State :=
  match firstIndex (fun i => s.freeOpenFileEntries.cell i = .free) s.maxOpenFiles with
  | some i =>
    (i, { s with
      freeOpenFileEntries := s.freeOpenFileEntries.set i .taken
      openFileTable := s.openFileTable.set i ⟨inumber, offset⟩ })
  | none => (-1, s)

def removeFromOpenFileTable (s : State) (fhandle : Int) : Except Fault State := do
  alwaysAssert (s.validFileHandle fhandle) "remove_from_open_file_table: file handle must be valid"
  alwaysAssert (s.freeOpenFileEntries.cell fhandle.toNat = .taken)
    "remove_from_open_file_table: file handle must be taken"
  return { s with freeOpenFileEntries := s.freeOpenFileEntries.set fhandle.toNat .free }

/-- The pointer to the entry, as an index into the open file table; `none` is NULL. -/
def getOpenFileEntry (s : State) (fhandle : Int) : Option Nat :=
  if !s.validFileHandle fhandle then none
  else if s.freeOpenFileEntries.cell fhandle.toNat ≠ .taken then none
  else some fhandle.toNat

end Mbroker.Fs
