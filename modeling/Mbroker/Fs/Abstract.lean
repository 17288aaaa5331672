import Mbroker.Fs.Operations

/-!
# The file system that TecnicoFS implements

Names with contents, and handles with offsets; nothing of inodes, blocks or directory entries is left. The
tables show only in when a call fails: `params` bounds the files, the files with contents and the handles.
-/

namespace Mbroker.Fs

open Mbroker.Lib

/-- The files of the directory with their contents, and the open handles with the name and the offset. -/
structure FileSystem where
  names : Finset (List UInt8)
  content : List UInt8 → List UInt8
  handles : Nat → Option (List UInt8 × Nat)

namespace FileSystem

/-- A name `add_dir_entry` accepts has 1 to 39 characters, a file fits its block, and a handle is on a file,
within its contents. -/
structure WellFormed (params : TfsParams) (a : FileSystem) : Prop where
  name : ∀ n ∈ a.names, 0 ∉ n ∧ 0 < n.length ∧ n.length < maxFileName
  content : ∀ n ∈ a.names, (a.content n).length ≤ params.blockSize
  handle : ∀ i n off, a.handles i = some (n, off) →
    i < params.maxOpenFilesCount ∧ n ∈ a.names ∧ off ≤ (a.content n).length

def empty : FileSystem := ⟨∅, fun _ => [], fun _ => none⟩

/-- The files that occupy a block. -/
def stored (a : FileSystem) : Finset (List UInt8) := a.names.filter fun n => a.content n ≠ []

def HasHandle (a : FileSystem) (n : List UInt8) : Prop := ∃ i off, a.handles i = some (n, off)

/-- The handle behind an `int`, with its name and offset. -/
def handle (a : FileSystem) (fhandle : Int) : Option (Nat × List UInt8 × Nat) :=
  if fhandle < 0 then none else (a.handles fhandle.toNat).map fun (n, off) => (fhandle.toNat, n, off)

def setContent (a : FileSystem) (n bytes : List UInt8) : FileSystem :=
  { a with content := Function.update a.content n bytes }

def setHandle (a : FileSystem) (i : Nat) (h : Option (List UInt8 × Nat)) : FileSystem :=
  { a with handles := Function.update a.handles i h }

/-! ## The operations -/

def addHandle (params : TfsParams) (a : FileSystem) (n : List UInt8) (off : Nat) : Int × FileSystem :=
  match firstIndex (fun i => (a.handles i).isNone) params.maxOpenFilesCount with
  | some i => (i, a.setHandle i (some (n, off)))
  | none => (-1, a)

/-- Creating the name `n` is possible: the name is short enough, and there are an inode and an entry left. -/
def CanCreate (params : TfsParams) (a : FileSystem) (n : List UInt8) : Prop :=
  n.length < maxFileName ∧ a.names.card + 1 ≠ params.maxInodeCount ∧
    a.names.card ≠ params.blockSize / sizeofDirEntry

instance (params : TfsParams) (a : FileSystem) (n : List UInt8) : Decidable (a.CanCreate params n) := by
  unfold CanCreate; infer_instance

def openFile (params : TfsParams) (a : FileSystem) (name : Option CString) (mode : Nat) : Int × FileSystem :=
  match name with
  | none => (-1, a)
  | some p =>
    let n := p.tail.chars
    if !validPathname p then (-1, a)
    else if n ∈ a.names then
      let a := if hasFlag mode tfsOTrunc then a.setContent n [] else a
      addHandle params a n (if hasFlag mode tfsOAppend then (a.content n).length else 0)
    else if hasFlag mode tfsOCreat ∧ a.CanCreate params n then
      addHandle params { a.setContent n [] with names := insert n a.names } n 0
    else (-1, a)

def closeFile (a : FileSystem) (fhandle : Int) : Int × FileSystem :=
  match a.handle fhandle with
  | some (i, _) => (0, a.setHandle i none)
  | none => (-1, a)

def readFile (a : FileSystem) (fhandle : Int) (len : Nat) : Ret × FileSystem :=
  match a.handle fhandle with
  | some (i, n, off) =>
    let data := ((a.content n).drop off).take len
    (⟨data.length, data⟩, a.setHandle i (some (n, off + data.length)))
  | none => (⟨-1, []⟩, a)

/-- What does not fit the block is cut off. The first write to an empty file needs a block of its own. -/
def writeFile (params : TfsParams) (a : FileSystem) (fhandle : Int) (buffer : Mem) (toWrite : Nat) :
    Int × FileSystem :=
  match a.handle fhandle with
  | some (i, n, off) =>
    let m := min toWrite (params.blockSize - off)
    if m = 0 then (0, a)
    else if a.content n = [] ∧ a.stored.card + 1 = params.maxBlockCount then (-1, a)
    else
      (m, (a.setContent n (overwrite (a.content n) off (buffer.bytes m))).setHandle i (some (n, off + m)))
  | none => (-1, a)

def unlinkFile (a : FileSystem) (target : Option CString) : Int × FileSystem :=
  match target with
  | none => (-1, a)
  | some p =>
    if validPathname p ∧ p.tail.chars ∈ a.names then (0, { a with names := a.names.erase p.tail.chars })
    else (-1, a)

/-- The answer to a call. -/
def call (params : TfsParams) (a : FileSystem) : Call → Ret × FileSystem
  | .open name mode => (⟨(a.openFile params name mode).1, []⟩, (a.openFile params name mode).2)
  | .close fhandle => (⟨(a.closeFile fhandle).1, []⟩, (a.closeFile fhandle).2)
  | .read fhandle len => a.readFile fhandle len
  | .write fhandle buffer n => (⟨(a.writeFile params fhandle buffer n).1, []⟩, (a.writeFile params fhandle buffer n).2)
  | .unlink target => (⟨(a.unlinkFile target).1, []⟩, (a.unlinkFile target).2)

/-- The calls the abstraction is for: a file is neither truncated nor unlinked while a handle on it is open,
and the length of a write does not overflow `size_t` when the offset is added. -/
def Allowed (a : FileSystem) : Call → Prop
  | .open (some p) mode => hasFlag mode tfsOTrunc → ¬ a.HasHandle p.tail.chars
  | .write fhandle _ n => ∀ i name off, a.handle fhandle = some (i, name, off) → n + off < 2 ^ 64
  | .unlink (some p) => ¬ a.HasHandle p.tail.chars
  | _ => True

end FileSystem

end Mbroker.Fs
