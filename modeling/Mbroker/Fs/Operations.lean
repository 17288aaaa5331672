import Mbroker.Fs.State
import Mbroker.Lib.Runs

/-!
# The operations of TecnicoFS

The functions of `fs/operations.c`. Each runs under `g_library_mutex` from its first line to its return, so a
call is one step; `pthread_mutex_lock` and `pthread_mutex_unlock` never return -1. `inode_get` never returns
NULL, so the assertions on its result hold.
-/

namespace Mbroker.Fs

open Mbroker.Lib

/-! ## Modes -/

def tfsOCreat : Nat := 0b001
def tfsOTrunc : Nat := 0b010
def tfsOAppend : Nat := 0b100

/-- `mode & flag` -/
def hasFlag (mode flag : Nat) : Bool := mode &&& flag ≠ 0

/-! ## Initialisation -/

def tfsDefaultParams : TfsParams where
  maxInodeCount := 64
  maxBlockCount := 1024
  maxOpenFilesCount := 16
  blockSize := 1024

/-- `none` stands for the NULL that asks for the default parameters. -/
def tfsInit (m : Malloc) (s : State) (paramsPtr : Option TfsParams) : Except Fault (Int × State) := do
  let params := paramsPtr.getD tfsDefaultParams
  let (r, s) := stateInit m s params
  if r ≠ 0 then return (-1, s)
  let (root, s) ← inodeCreate s .directory
  if root ≠ rootDirInum then return (-1, s)
  return (0, s)

def tfsDestroy (s : State) : Int × State :=
  let (r, s) := stateDestroy s
  if r ≠ 0 then (-1, s) else (0, s)

/-! ## Paths -/

/-- `'/'` -/
def slash : UInt8 := 47

def validPathname (name : CString) : Bool := 1 < name.strlen ∧ name.mem 0 = slash

def tfsLookup (s : State) (name : CString) (rootInode : Nat) : Except Fault Int :=
  if !validPathname name then return -1
  else findInDir s rootInode name.tail

/-! ## Files -/

/-- The part of `tfs_open` for a file that exists: what TFS_O_TRUNC does to it. -/
def truncate (s : State) (i mode : Nat) : Except Fault State :=
  if hasFlag mode tfsOTrunc ∧ 0 < (s.inodeTable.cell i).iSize then do
    let s ← dataBlockFree s (s.inodeTable.cell i).iDataBlock
    return s.setInode i { s.inodeTable.cell i with iSize := 0 }
  else return s

/-- `none` is the NULL path. -/
def tfsOpen (s : State) (name : Option CString) (mode : Nat) : Except Fault (Int × State) := do
  let some name := name | return (-1, s)
  if !validPathname name then return (-1, s)
  let root ← inodeGet s rootDirInum
  let inum ← tfsLookup s name root
  if 0 ≤ inum then
    let i ← inodeGet s inum
    let s ← truncate s i mode
    let offset := if hasFlag mode tfsOAppend then (s.inodeTable.cell i).iSize else 0
    return addToOpenFileTable s inum offset
  else if hasFlag mode tfsOCreat then
    let (inum, s) ← inodeCreate s .file
    if inum = -1 then return (-1, s)
    let (r, s) ← addDirEntry s root name.tail inum
    if r = -1 then
      let s ← inodeDelete s inum
      return (-1, s)
    return addToOpenFileTable s inum 0
  else return (-1, s)

def tfsClose (s : State) (fhandle : Int) : Except Fault (Int × State) := do
  match getOpenFileEntry s fhandle with
  | none => return (-1, s)
  | some _ =>
    let s ← removeFromOpenFileTable s fhandle
    return (0, s)

/-- How many bytes `tfs_write` takes from the buffer, in both branches on `size_t`. -/
def writeLen (blockSize ofOffset toWrite : Nat) : Nat :=
  if blockSize < toSize (toWrite + ofOffset) then sizeSub blockSize ofOffset else toWrite

/-- The part of `tfs_write` from `data_block_get` on, for the open file entry `h` and the inode `i`. -/
def writeData (s : State) (h i : Nat) (buffer : Mem) (toWrite : Nat) : Except Fault (Int × State) := do
  let file := s.openFileTable.cell h
  let block ← dataBlockGet s (s.inodeTable.cell i).iDataBlock
  if !s.inData (block + file.ofOffset) toWrite then throw .outOfBounds
  let s := s.poke (block + file.ofOffset) buffer toWrite
  let file := { file with ofOffset := toSize (file.ofOffset + toWrite) }
  let s := { s with openFileTable := s.openFileTable.set h file }
  let inode := s.inodeTable.cell i
  if inode.iSize < file.ofOffset then
    return (toSsize toWrite, s.setInode i { inode with iSize := file.ofOffset })
  else return (toSsize toWrite, s)

/-- `buffer` is what the caller's pointer points to. -/
def tfsWrite (s : State) (fhandle : Int) (buffer : Mem) (toWrite : Nat) :
    Except Fault (Int × State) := do
  let some h := getOpenFileEntry s fhandle | return (-1, s)
  let file := s.openFileTable.cell h
  let i ← inodeGet s file.ofInumber
  let toWrite := writeLen s.blockSize file.ofOffset toWrite
  if toWrite = 0 then return (0, s)
  if (s.inodeTable.cell i).iSize = 0 then
    let (bnum, s) ← dataBlockAlloc s
    if bnum = -1 then return (-1, s)
    writeData (s.setInode i { s.inodeTable.cell i with iDataBlock := bnum }) h i buffer toWrite
  else writeData s h i buffer toWrite

/-- How many bytes `tfs_read` copies, on `size_t`. -/
def readLen (iSize ofOffset len : Nat) : Nat :=
  if len < sizeSub iSize ofOffset then len else sizeSub iSize ofOffset

/-- Besides the result, the bytes that were copied to the caller's buffer. -/
def tfsRead (s : State) (fhandle : Int) (len : Nat) : Except Fault (Int × List UInt8 × State) := do
  let some h := getOpenFileEntry s fhandle | return (-1, [], s)
  let file := s.openFileTable.cell h
  let i ← inodeGet s file.ofInumber
  let toRead := readLen (s.inodeTable.cell i).iSize file.ofOffset len
  if toRead = 0 then return (0, [], s)
  let block ← dataBlockGet s (s.inodeTable.cell i).iDataBlock
  if !s.inData (block + file.ofOffset) toRead then throw .outOfBounds
  let data := (Mem.ptr s.fsData.cell (block + file.ofOffset)).bytes toRead
  let file := { file with ofOffset := toSize (file.ofOffset + toRead) }
  return (toSsize toRead, data, { s with openFileTable := s.openFileTable.set h file })

def tfsUnlink (s : State) (target : Option CString) : Except Fault (Int × State) := do
  let some target := target | return (-1, s)
  if !validPathname target then return (-1, s)
  let root ← inodeGet s rootDirInum
  let inum ← tfsLookup s target root
  if inum = -1 then return (-1, s)
  let s ← inodeDelete s inum
  let (r, s) ← clearDirEntry s root target.tail
  if r = -1 then return (-1, s)
  return (0, s)

/-! ## Calls -/

/-- A call of one of the five operations, with its arguments. -/
inductive Call
  | open (name : Option CString) (mode : Nat)
  | close (fhandle : Int)
  | read (fhandle : Int) (len : Nat)
  | write (fhandle : Int) (buffer : Mem) (toWrite : Nat)
  | unlink (target : Option CString)

/-- What a call gives back: its result and, for `tfs_read`, the bytes in the buffer. -/
structure Ret where
  value : Int
  data : List UInt8
  deriving DecidableEq, Repr

def exec (s : State) : Call → Except Fault (Ret × State)
  | .open name mode => do let (r, s) ← tfsOpen s name mode; return (⟨r, []⟩, s)
  | .close fhandle => do let (r, s) ← tfsClose s fhandle; return (⟨r, []⟩, s)
  | .read fhandle len => do let (r, data, s) ← tfsRead s fhandle len; return (⟨r, data⟩, s)
  | .write fhandle buffer n => do let (r, s) ← tfsWrite s fhandle buffer n; return (⟨r, []⟩, s)
  | .unlink target => do let (r, s) ← tfsUnlink s target; return (⟨r, []⟩, s)

/-- The step relation of TecnicoFS: a call that returns. -/
def Step (s : State) (c : Call) (s' : State) : Prop := ∃ r, exec s c = .ok (r, s')

/-! ## Runs that can be computed -/

/-- The state after a call that returns. -/
def next (s : State) (c : Call) : Option State := (exec s c).toOption.map Prod.snd

theorem Step.of_next (s : State) (c : Call) (s' : State) (h : next s c = some s') : Step s c s' := by
  obtain ⟨⟨r, s₁⟩, hr, rfl⟩ := Option.map_eq_some_iff.mp h
  cases he : exec s c with
  | error e =>
      rw [he] at hr
      cases hr
  | ok x =>
      rw [he] at hr
      cases hr
      exact ⟨r, he⟩

end Mbroker.Fs
