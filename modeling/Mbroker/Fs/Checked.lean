import Mbroker.Fs.Operations
import Mbroker.Lib.Checked

/-!
# The start-up with its accesses

`tfs_init` and the functions it calls, with every access to a table checked against what `malloc` gave. One outside
is undefined, and ends the call. `Checked.tfsInit_refines` says that they are the functions of the model otherwise.
-/

namespace Mbroker.Fs

open Mbroker.Lib

/-! ## Accesses -/

namespace Table

variable {α : Type}

/-- Whether the first `n` elements, of `size` bytes each, were allocated. -/
def covers (t : Table α) (size n : Nat) : Bool :=
  match t.bytes with
  | none => false
  | some bytes => n * size ≤ bytes

/-- An access to the element at `i`. -/
def access (t : Table α) (size i : Nat) : Except Fault Unit :=
  if t.covers size (i + 1) then .ok () else .error .outOfBounds

end Table

namespace State

/-- The six calls of `malloc` in `state_init`. -/
def allocate (s : State) (m : Malloc) : State :=
  { s with
    inodeTable := s.inodeTable.malloc (toSize (s.inodeTableSize * sizeofInode)) m.inodeTable
    freeinodeTs := s.freeinodeTs.malloc (toSize (s.inodeTableSize * sizeofAllocationState)) m.freeinodeTs
    fsData := s.fsData.malloc (toSize (s.dataBlocks * s.blockSize)) m.fsData
    freeBlocks := s.freeBlocks.malloc (toSize (s.dataBlocks * sizeofAllocationState)) m.freeBlocks
    openFileTable := s.openFileTable.malloc (toSize (s.maxOpenFiles * sizeofOpenFileEntry)) m.openFileTable
    freeOpenFileEntries :=
      s.freeOpenFileEntries.malloc (toSize (s.maxOpenFiles * sizeofAllocationState)) m.freeOpenFileEntries }

/-- What the three loops of `state_init` leave. -/
def label (s : State) : State :=
  { s with
    freeinodeTs := s.freeinodeTs.fill s.inodeTableSize .free
    freeBlocks := s.freeBlocks.fill s.dataBlocks .free
    freeOpenFileEntries := s.freeOpenFileEntries.fill s.maxOpenFiles .free }

/-- One of the six pointers is NULL. -/
def anyNull (s : State) : Bool :=
  s.inodeTable.isNull || s.freeinodeTs.isNull || s.fsData.isNull || s.freeBlocks.isNull ||
    s.openFileTable.isNull || s.freeOpenFileEntries.isNull

end State

/-! ## Functions -/

namespace Checked

/-- The loop of `state_init` that labels the entries FREE, from entry `i` on with `n` entries left. -/
def labelFree : Table AllocationState → Nat → Nat → Except Fault (Table AllocationState)
  | ts, _, 0 => return ts
  | ts, i, n + 1 => do
    ts.access sizeofAllocationState i
    labelFree (ts.set i .free) (i + 1) n

def stateInit (m : Malloc) (s : State) (params : TfsParams) : Except Fault (Int × State) := do
  let s := { s with fsParams := params }
  if s.inodeTable.isNull then
    let s := s.allocate m
    if s.anyNull then return (-1, s)
    let freeinodeTs ← labelFree s.freeinodeTs 0 s.inodeTableSize
    let freeBlocks ← labelFree s.freeBlocks 0 s.dataBlocks
    let freeOpenFileEntries ← labelFree s.freeOpenFileEntries 0 s.maxOpenFiles
    return (0, { s with
      freeinodeTs := freeinodeTs
      freeBlocks := freeBlocks
      freeOpenFileEntries := freeOpenFileEntries })
  else return (-1, s)

def findFree (blockSize : Nat) (ts : Table AllocationState) : Nat → Nat → Except Fault (Option Nat)
  | _, 0 => return none
  | i, n + 1 => do
    let _ ← remainder (i * sizeofAllocationState) blockSize
    ts.access sizeofAllocationState i
    if ts.cell i = .free then return some i
    findFree blockSize ts (i + 1) n

def dataBlockAlloc (s : State) : Except Fault (Int × State) := do
  match ← findFree s.blockSize s.freeBlocks 0 s.dataBlocks with
  | some i => return (toInt i, { s with freeBlocks := s.freeBlocks.set i .taken })
  | none => return (-1, s)

def dataBlockFree (s : State) (blockNumber : Int) : Except Fault State := do
  alwaysAssert (s.validBlockNumber blockNumber) "data_block_free: invalid block number"
  s.freeBlocks.access sizeofAllocationState blockNumber.toNat
  return { s with freeBlocks := s.freeBlocks.set blockNumber.toNat .free }

def inodeAlloc (s : State) : Except Fault (Int × State) := do
  match ← findFree s.blockSize s.freeinodeTs 0 s.inodeTableSize with
  | some inumber => return (toInt inumber, { s with freeinodeTs := s.freeinodeTs.set inumber .taken })
  | none => return (-1, s)

def inodeDelete (s : State) (inumber : Int) : Except Fault State := do
  alwaysAssert (s.validInumber inumber) "inode_delete: invalid inumber"
  let i := inumber.toNat
  s.freeinodeTs.access sizeofAllocationState i
  alwaysAssert (s.freeinodeTs.cell i = .taken) "inode_delete: inode already freed"
  s.inodeTable.access sizeofInode i
  let s ← if 0 < (s.inodeTable.cell i).iSize then dataBlockFree s (s.inodeTable.cell i).iDataBlock
    else pure s
  return { s with freeinodeTs := s.freeinodeTs.set i .free }

/-- The loop of `inode_create` that labels the entries from `i` on as empty. -/
def clearDirEntries (p : Nat) : State → Nat → Nat → Except Fault State
  | s, _, 0 => return s
  | s, i, n + 1 => do
    if !s.inData (p + sizeofDirEntry * i + maxFileName) 4 then throw .outOfBounds
    clearDirEntries p (s.setDInumber p i (-1)) (i + 1) n

def inodeCreate (s : State) (iType : InodeType) : Except Fault (Int × State) := do
  let (inumber, s) ← inodeAlloc s
  if inumber = -1 then return (-1, s)
  let i ← index inumber
  s.inodeTable.access sizeofInode i
  let s := s.setInode i { s.inodeTable.cell i with iNodeType := iType }
  match iType with
  | .directory =>
    let (b, s) ← dataBlockAlloc s
    if b = -1 then
      let s := s.setInode i { s.inodeTable.cell i with iSize := 0, iDataBlock := -1 }
      let s ← inodeDelete s inumber
      return (-1, s)
    let s := s.setInode i { s.inodeTable.cell i with iSize := s.blockSize, iDataBlock := b }
    let p ← dataBlockGet s b
    let s ← clearDirEntries p s 0 s.maxDirEntries
    return (inumber, s)
  | .file =>
    return (inumber, s.setInode i { s.inodeTable.cell i with iSize := 0, iDataBlock := -1 })

def tfsInit (m : Malloc) (s : State) (paramsPtr : Option TfsParams) : Except Fault (Int × State) := do
  let params := paramsPtr.getD tfsDefaultParams
  let (r, s) ← stateInit m s params
  if r ≠ 0 then return (-1, s)
  let (root, s) ← inodeCreate s .directory
  if root ≠ rootDirInum then return (-1, s)
  return (0, s)

/-! ## The functions without the checks -/

theorem labelFree_refines (ts : Table AllocationState) (i n : Nat) : Refines (labelFree ts i n)
    (.ok { ts with cell := fun j => if i ≤ j ∧ j < i + n then .free else ts.cell j }) := by
  induction n generalizing ts i with
  | zero =>
      have hcell : (fun j => if i ≤ j ∧ j < i + 0 then .free else ts.cell j) = ts.cell := by
        funext j
        exact if_neg (by omega)
      rw [hcell]
      exact .refl _
  | succ n ih =>
      have hcell : (fun j => if i ≤ j ∧ j < i + (n + 1) then .free else ts.cell j) =
          fun j => if i + 1 ≤ j ∧ j < i + 1 + n then .free else (ts.set i .free).cell j := by
        funext j
        rw [Table.set_cell]
        grind
      rw [hcell]
      exact (ih (ts.set i .free) (i + 1)).check

theorem findFree_refines (blockSize : Nat) (ts : Table AllocationState) (i n : Nat) :
    Refines (findFree blockSize ts i n) (Fs.findFree blockSize ts.cell i n) := by
  induction n generalizing i with
  | zero => exact .refl _
  | succ n ih => exact .bind (.refl _) fun _ => .check (.ite (.refl _) (ih (i + 1)))

theorem dataBlockAlloc_refines (s : State) : Refines (dataBlockAlloc s) (Fs.dataBlockAlloc s) :=
  .bind (findFree_refines _ _ _ _) fun _ => .refl _

theorem inodeAlloc_refines (s : State) : Refines (inodeAlloc s) (Fs.inodeAlloc s) :=
  .bind (findFree_refines _ _ _ _) fun _ => .refl _

theorem dataBlockFree_refines (s : State) (b : Int) : Refines (dataBlockFree s b) (Fs.dataBlockFree s b) :=
  .bind (.refl _) fun _ => .check (.refl _)

theorem inodeDelete_refines (s : State) (k : Int) : Refines (inodeDelete s k) (Fs.inodeDelete s k) := by
  refine .bind (.refl _) fun _ => .check (.bind (.refl _) fun _ => .check ?_)
  refine .ite ?_ (.refl _)
  exact .bind (dataBlockFree_refines _ _) fun _ => .refl _

theorem clearDirEntries_refines (p : Nat) (s : State) (i n : Nat) : Refines (clearDirEntries p s i n)
    (.ok ((List.range' i n).foldl (fun s i => s.setDInumber p i (-1)) s)) := by
  induction n generalizing s i with
  | zero => exact .refl _
  | succ n ih =>
      unfold clearDirEntries
      dsimp only
      split
      · exact .of_error _ _
      · exact ih _ _

theorem inodeCreate_refines (s : State) (iType : InodeType) :
    Refines (inodeCreate s iType) (Fs.inodeCreate s iType) := by
  refine .bind (inodeAlloc_refines s) fun ⟨k, s₁⟩ => ?_
  refine .ite (.refl _) (.bind (.refl _) fun i => .check ?_)
  cases iType with
  | file => exact .refl _
  | directory =>
      refine .bind (dataBlockAlloc_refines _) fun ⟨b, s₂⟩ => ?_
      refine .ite (.bind (inodeDelete_refines _ _) fun _ => .refl _) (.bind (.refl _) fun p => ?_)
      have hclear := clearDirEntries_refines p
        (s₂.setInode i { s₂.inodeTable.cell i with iSize := s₂.blockSize, iDataBlock := b }) 0 s₂.maxDirEntries
      rw [← List.range_eq_range'] at hclear
      exact hclear.bind fun _ => .refl _

theorem stateInit_eq (m : Malloc) (s : State) (params : TfsParams) :
    Fs.stateInit m s params =
      if ({ s with fsParams := params } : State).inodeTable.isNull then
        if (State.allocate { s with fsParams := params } m).anyNull then
          (-1, State.allocate { s with fsParams := params } m)
        else (0, State.label (State.allocate { s with fsParams := params } m))
      else (-1, { s with fsParams := params }) := rfl

theorem stateInit_refines (m : Malloc) (s : State) (params : TfsParams) :
    Refines (stateInit m s params) (.ok (Fs.stateInit m s params)) := by
  have hlabel : ∀ (ts : Table AllocationState) (n : Nat), Refines (labelFree ts 0 n) (.ok (ts.fill n .free)) := by
    intro ts n
    simpa [Table.fill] using labelFree_refines ts 0 n
  rw [stateInit_eq, apply_ite Except.ok, apply_ite Except.ok]
  refine .ite (.ite (.refl _) ?_) (.refl _)
  exact .bind_ok (hlabel _ _) (.bind_ok (hlabel _ _) (.bind_ok (hlabel _ _) (.refl _)))

/-- Where the checked start-up returns, the start-up returns the same. -/
theorem tfsInit_refines (m : Malloc) (s : State) (p : Option TfsParams) :
    Refines (tfsInit m s p) (Fs.tfsInit m s p) := by
  refine .bind_ok (stateInit_refines m s _) ?_
  exact .ite (.refl _) (.bind (inodeCreate_refines _ _) fun _ => .refl _)

end Checked

end Mbroker.Fs
