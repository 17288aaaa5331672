import Mbroker.Fs.Operations

/-!
# The primitives of the state

What the allocation loops, the integer casts and the pointer functions compute when the parameters are in
range, in the form the lemmas about the operations use.
-/

namespace Mbroker.Fs

open Mbroker.Lib

/-! ## Calls that return

The parentheses keep `simp` from using these as definitional unfoldings, which the kernel would have to redo on
whole operations. -/

@[simp] theorem ok_bind {α β : Type} (a : α) (f : α → Except Fault β) : (Except.ok a >>= f) = f a := (rfl)

@[simp] theorem error_bind {α β : Type} (e : Fault) (f : α → Except Fault β) :
    (Except.error e >>= f) = .error e := (rfl)

theorem pure_eq_ok {α : Type} (a : α) : (pure a : Except Fault α) = .ok a := (rfl)

theorem throw_eq_error {α : Type} (e : Fault) : (throw e : Except Fault α) = .error e := (rfl)

/-- A call that returns: its first part returned, and the rest did from there. -/
theorem bind_eq_ok {α β : Type} {x : Except Fault α} {f : α → Except Fault β} {b : β} (h : (x >>= f) = .ok b) :
    ∃ a, x = .ok a ∧ f a = .ok b := by
  cases x with
  | error e => cases h
  | ok a => exact ⟨a, rfl, h⟩

theorem alwaysAssert_of {c : Bool} (h : c = true) (msg : String) : alwaysAssert c msg = .ok () := by
  simp [alwaysAssert, h]

/-- A computation that returns, from what can be evaluated of its result. -/
theorem exists_ok_of_map {α β : Type} {x : Except Fault α} {f : α → β} {b : β} (h : x.map f = .ok b) :
    ∃ a, x = .ok a ∧ f a = b := by
  cases x with
  | error e => cases h
  | ok a => exact ⟨a, rfl, Except.ok.inj h⟩

/-! ## Parameters in range -/

/-- The block size is positive and the sizes and counts fit an `int`. -/
structure Sane (p : TfsParams) : Prop where
  blockSize_pos : 0 < p.blockSize
  blockSize_lt : p.blockSize < 2 ^ 31
  inodes_lt : p.maxInodeCount < 2 ^ 31
  blocks_lt : p.maxBlockCount < 2 ^ 31
  files_lt : p.maxOpenFilesCount < 2 ^ 31

theorem toInt_of_lt {n : Nat} (h : n < 2 ^ 31) : toInt n = n := by
  unfold toInt
  rw [Int.bmod_def]
  norm_num
  split <;> omega

theorem toSsize_of_lt {n : Nat} (h : n < 2 ^ 63) : toSsize n = n := by
  unfold toSsize
  rw [Int.bmod_def]
  norm_num
  split <;> omega

theorem toSize_of_lt {n : Nat} (h : n < 2 ^ 64) : toSize n = n := Nat.mod_eq_of_lt h

theorem sizeSub_of_le {a b : Nat} (h : b ≤ a) (ha : a < 2 ^ 64) : sizeSub a b = a - b := by
  unfold sizeSub toSize
  norm_num at ha ⊢
  omega

/-- The subtraction wraps when the second number is the larger. -/
theorem sizeSub_of_lt {a b : Nat} (h : a < b) (hb : b < 2 ^ 64) : sizeSub a b = 2 ^ 64 - (b - a) := by
  unfold sizeSub toSize
  norm_num at hb ⊢
  omega

theorem Sane.blockSize_lt' {s : State} (h : Sane s.fsParams) : s.blockSize < 2 ^ 31 := h.blockSize_lt

/-- A block lies in the data area, and the data area is small enough for every sum to fit `size_t`. -/
theorem Sane.block_lt {s : State} (h : Sane s.fsParams) {b : Nat} (hb : b < s.dataBlocks) :
    b * s.blockSize + s.blockSize ≤ s.dataBlocks * s.blockSize ∧
      s.dataBlocks * s.blockSize < 4611686018427387904 := by
  constructor
  · calc b * s.blockSize + s.blockSize = (b + 1) * s.blockSize := by ring
      _ ≤ s.dataBlocks * s.blockSize := Nat.mul_le_mul_right _ hb
  · calc s.dataBlocks * s.blockSize < 2 ^ 31 * 2 ^ 31 := Nat.mul_lt_mul'' h.blocks_lt h.blockSize_lt
      _ = 4611686018427387904 := by norm_num

theorem State.inData_eq {s : State} {size : Nat} (h : s.fsData.bytes = some size) (lo n : Nat) :
    s.inData lo n = decide (lo + n ≤ size) := by
  simp [State.inData, h]

/-! ## Allocation -/

theorem findFree_range' {bs : Nat} (hbs : 0 < bs) (ts : Nat → AllocationState) (i n : Nat) :
    findFree bs ts i n = .ok ((List.range' i n).find? fun j => ts j = .free) := by
  induction n generalizing i with
  | zero => rfl
  | succ n ih =>
      have hr : remainder (i * sizeofAllocationState) bs = .ok (i * sizeofAllocationState % bs) := by
        simp [remainder, hbs.ne']
      simp only [findFree, hr, ok_bind, ih, List.range'_succ, List.find?_cons]
      by_cases hfree : ts i = .free <;> simp [hfree, pure_eq_ok]

/-- The first FREE entry of an allocation map of `n` entries. -/
def firstFree (t : Table AllocationState) (n : Nat) : Option Nat :=
  firstIndex (fun j => t.cell j = .free) n

/-- The allocation loop returns the first FREE entry. -/
theorem findFree_eq {bs : Nat} (hbs : 0 < bs) (t : Table AllocationState) (n : Nat) :
    findFree bs t.cell 0 n = .ok (firstFree t n) := by
  rw [findFree_range' hbs, firstFree, firstIndex, List.range_eq_range']

theorem firstFree_eq_some {t : Table AllocationState} {n i : Nat} :
    firstFree t n = some i ↔ t.cell i = .free ∧ i < n ∧ ∀ j < i, t.cell j = .taken := by
  rw [firstFree, firstIndex_eq_some]
  have : ∀ j, t.cell j = .taken ↔ t.cell j ≠ .free := by intro j; cases t.cell j <;> simp
  simp [this]

theorem firstFree_eq_none {t : Table AllocationState} {n : Nat} :
    firstFree t n = none ↔ ∀ i < n, t.cell i = .taken := by
  rw [firstFree, firstIndex_eq_none]
  have : ∀ j, t.cell j = .taken ↔ t.cell j ≠ .free := by intro j; cases t.cell j <;> simp
  simp [this]

theorem dataBlockAlloc_eq {s : State} (hs : Sane s.fsParams) :
    dataBlockAlloc s = .ok (match firstFree s.freeBlocks s.dataBlocks with
      | some b => ((b : Int), { s with freeBlocks := s.freeBlocks.set b .taken })
      | none => (-1, s)) := by
  simp only [dataBlockAlloc, State.blockSize, findFree_eq hs.blockSize_pos, ok_bind]
  cases h : firstFree s.freeBlocks s.dataBlocks with
  | none => rfl
  | some b =>
      have hb : b < 2 ^ 31 := lt_trans (firstFree_eq_some.mp h).2.1 hs.blocks_lt
      simp only [pure_eq_ok, toInt_of_lt hb]

theorem inodeAlloc_eq {s : State} (hs : Sane s.fsParams) :
    inodeAlloc s = .ok (match firstFree s.freeinodeTs s.inodeTableSize with
      | some k => ((k : Int), { s with freeinodeTs := s.freeinodeTs.set k .taken })
      | none => (-1, s)) := by
  simp only [inodeAlloc, State.blockSize, findFree_eq hs.blockSize_pos, ok_bind]
  cases h : firstFree s.freeinodeTs s.inodeTableSize with
  | none => rfl
  | some k =>
      have hk : k < 2 ^ 31 := lt_trans (firstFree_eq_some.mp h).2.1 hs.inodes_lt
      simp only [pure_eq_ok, toInt_of_lt hk]

/-- The inode of a new file. -/
def newFile : Inode := ⟨.file, 0, -1⟩

namespace State

/-- The state after `inode_create(T_FILE)` took the inode `k`. -/
def createInode (s : State) (k : Nat) : State :=
  { s with
    freeinodeTs := s.freeinodeTs.set k .taken
    inodeTable := s.inodeTable.set k newFile }

end State

theorem inodeCreate_file {s : State} (hs : Sane s.fsParams) :
    inodeCreate s .file = .ok (match firstFree s.freeinodeTs s.inodeTableSize with
      | some k => ((k : Int), s.createInode k)
      | none => (-1, s)) := by
  simp only [inodeCreate, inodeAlloc_eq hs, ok_bind]
  cases firstFree s.freeinodeTs s.inodeTableSize with
  | none => simp [pure_eq_ok]
  | some k =>
      have hk : (k : Int) ≠ -1 := by omega
      have hidx : index (k : Int) = .ok k := by simp [index]
      simp only [hk, ↓reduceIte, hidx, ok_bind, pure_eq_ok]
      simp [State.setInode, State.createInode, Table.set, newFile]

/-! ## Numbers and pointers -/

theorem validBlockNumber_iff {s : State} {b : Int} :
    s.validBlockNumber b = true ↔ ∃ k : Nat, b = k ∧ k < s.dataBlocks := by
  simp only [State.validBlockNumber, decide_eq_true_eq]
  constructor
  · rintro ⟨h, h'⟩; exact ⟨b.toNat, by omega, by omega⟩
  · rintro ⟨k, rfl, hk⟩; omega

theorem validInumber_natCast {s : State} {k : Nat} (h : k < s.inodeTableSize) :
    s.validInumber (k : Int) = true := by
  simp only [State.validInumber, decide_eq_true_eq]; omega

theorem inodeGet_natCast {s : State} {k : Nat} (h : k < s.inodeTableSize) :
    inodeGet s (k : Int) = .ok k := by
  simp [inodeGet, alwaysAssert_of (validInumber_natCast h), pure_eq_ok]

theorem dataBlockGet_natCast {s : State} (hs : Sane s.fsParams) {b : Nat} (hb : b < s.dataBlocks) :
    dataBlockGet s (b : Int) = .ok (b * s.blockSize) := by
  have hv : s.validBlockNumber (b : Int) = true := validBlockNumber_iff.mpr ⟨b, rfl, hb⟩
  have hlt : b * s.blockSize < 2 ^ 64 := by
    obtain ⟨h₁, h₂⟩ := hs.block_lt hb
    omega
  simp [dataBlockGet, alwaysAssert_of hv, pure_eq_ok, toSize_of_lt hlt]

theorem dataBlockGet_zero {s : State} (hB : 0 < s.dataBlocks) : dataBlockGet s 0 = .ok 0 := by
  have hvalid : s.validBlockNumber 0 = true := validBlockNumber_iff.mpr ⟨0, rfl, hB⟩
  rw [dataBlockGet, alwaysAssert_of hvalid, ok_bind, Int.toNat_zero, Nat.zero_mul]
  rfl

theorem dataBlockFree_of_valid {s : State} {b : Int} (h : s.validBlockNumber b = true) :
    dataBlockFree s b = .ok { s with freeBlocks := s.freeBlocks.set b.toNat .free } := by
  simp [dataBlockFree, alwaysAssert_of h, pure_eq_ok]

/-! ## Open files -/

namespace State

/-- The handle `h` is an entry of the open file table in use. -/
def IsOpen (s : State) (h : Nat) : Prop := h < s.maxOpenFiles ∧ s.freeOpenFileEntries.cell h = .taken

instance (s : State) (h : Nat) : Decidable (s.IsOpen h) := by unfold IsOpen; infer_instance

/-- The state after `add_to_open_file_table` took the entry `h`. -/
def openAt (s : State) (h : Nat) (inumber : Int) (offset : Nat) : State :=
  { s with
    freeOpenFileEntries := s.freeOpenFileEntries.set h .taken
    openFileTable := s.openFileTable.set h ⟨inumber, offset⟩ }

/-- The state after `remove_from_open_file_table` freed the entry `h`. -/
def closeAt (s : State) (h : Nat) : State :=
  { s with freeOpenFileEntries := s.freeOpenFileEntries.set h .free }

end State

theorem addToOpenFileTable_eq (s : State) (inumber : Int) (offset : Nat) :
    addToOpenFileTable s inumber offset =
      match firstFree s.freeOpenFileEntries s.maxOpenFiles with
      | some h => ((h : Int), s.openAt h inumber offset)
      | none => (-1, s) := rfl

theorem getOpenFileEntry_eq_some {s : State} {fh : Int} {h : Nat} :
    getOpenFileEntry s fh = some h ↔ fh = h ∧ s.IsOpen h := by
  have hv : s.validFileHandle fh = true ↔ 0 ≤ fh ∧ fh < s.maxOpenFiles := by
    simp [State.validFileHandle]
  unfold getOpenFileEntry State.IsOpen
  by_cases hvalid : s.validFileHandle fh = true
  · obtain ⟨h0, hlt⟩ := hv.mp hvalid
    by_cases ht : s.freeOpenFileEntries.cell fh.toNat = .taken
    · simp only [hvalid, Bool.not_true, Bool.false_eq_true, ↓reduceIte, ht, ne_eq, not_true_eq_false,
        Option.some.injEq]
      constructor
      · rintro rfl; exact ⟨by omega, by omega, ht⟩
      · rintro ⟨rfl, -, -⟩; rfl
    · simp only [hvalid, Bool.not_true, Bool.false_eq_true, ↓reduceIte, ht, ne_eq, not_false_eq_true,
        reduceCtorEq, false_iff]
      rintro ⟨rfl, -, ht'⟩
      exact ht ht'
  · simp only [hvalid, Bool.not_false, ↓reduceIte, reduceCtorEq, false_iff]
    rintro ⟨rfl, hlt, -⟩
    exact hvalid (hv.mpr (by omega))

theorem getOpenFileEntry_natCast {s : State} {h : Nat} (ho : s.IsOpen h) :
    getOpenFileEntry s (h : Int) = some h := getOpenFileEntry_eq_some.mpr ⟨rfl, ho⟩

theorem tfsClose_eq (s : State) (fh : Int) :
    tfsClose s fh = .ok (match getOpenFileEntry s fh with
      | some h => (0, s.closeAt h)
      | none => (-1, s)) := by
  cases he : getOpenFileEntry s fh with
  | none => simp [tfsClose, he, pure_eq_ok]
  | some h =>
      obtain ⟨rfl, hlt, ht⟩ := getOpenFileEntry_eq_some.mp he
      have hv : s.validFileHandle (h : Int) = true := by
        simp only [State.validFileHandle, decide_eq_true_eq]; omega
      simp [tfsClose, he, removeFromOpenFileTable, alwaysAssert_of hv, ht, alwaysAssert_of, pure_eq_ok,
        State.closeAt]

end Mbroker.Fs
