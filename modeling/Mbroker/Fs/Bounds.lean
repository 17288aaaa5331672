import Mbroker.Fs.Checked
import Mbroker.Fs.Lemmas.Preservation
import Mbroker.Fs.Startup

/-!
# When the start-up is safe

What `tfs_init` should leave for whatever parameters it is given, and for which parameters it does: no size that is
passed to `malloc` may wrap, and `block_size` may not be 0.
-/

namespace Mbroker.Fs

open Mbroker.Lib

variable {m : Malloc} {s s' : State} {params : TfsParams}

/-! ## A safe start-up -/

/-- The six products that are passed to `malloc`, as they would be without wrapping. -/
def TfsParams.sizes (p : TfsParams) : List Nat :=
  [p.maxInodeCount * sizeofInode, p.maxInodeCount * sizeofAllocationState, p.maxBlockCount * p.blockSize,
    p.maxBlockCount * sizeofAllocationState, p.maxOpenFilesCount * sizeofOpenFileEntry,
    p.maxOpenFilesCount * sizeofAllocationState]

/-- Every element that a check of the source accepts was allocated, and no product wrapped. -/
structure State.Covered (s : State) : Prop where
  inodes : ∀ i, s.validInumber i = true → s.inodeTable.covers sizeofInode (i.toNat + 1) = true ∧
    s.freeinodeTs.covers sizeofAllocationState (i.toNat + 1) = true
  blocks : ∀ b, s.validBlockNumber b = true → s.fsData.covers s.blockSize (b.toNat + 1) = true ∧
    s.freeBlocks.covers sizeofAllocationState (b.toNat + 1) = true
  handles : ∀ h, s.validFileHandle h = true → s.openFileTable.covers sizeofOpenFileEntry (h.toNat + 1) = true ∧
    s.freeOpenFileEntries.covers sizeofAllocationState (h.toNat + 1) = true
  exact : s.pointers.2 = s.fsParams.sizes.map some

/-- Inode 0 is a directory without files. -/
structure State.EmptyRoot (s : State) : Prop where
  taken : s.freeinodeTs.cell 0 = .taken
  directory : (s.inodeTable.cell 0).iNodeType = .directory
  entries : ∀ i < s.maxDirEntries, (s.rootEntry i).dInumber = -1

/-- A start-up that returns, and with 0 only from a state as it should be. -/
def SafeStart (res : Except Fault (Int × State)) : Prop :=
  ∃ r s', res = .ok (r, s') ∧ (r = 0 → s'.Covered ∧ s'.EmptyRoot)

/-! ## When it is -/

def Malloc.Succeeds (m : Malloc) : Prop :=
  m.inodeTable.isSome ∧ m.freeinodeTs.isSome ∧ m.fsData.isSome ∧ m.freeBlocks.isSome ∧ m.openFileTable.isSome ∧
    m.freeOpenFileEntries.isSome

namespace TfsParams

/-- The loops of `state_init` stay in their tables. -/
def LabelsFit (p : TfsParams) : Prop :=
  p.maxInodeCount * sizeofAllocationState < 2 ^ 64 ∧ p.maxBlockCount * sizeofAllocationState < 2 ^ 64 ∧
    p.maxOpenFilesCount * sizeofAllocationState < 2 ^ 64

/-- The sizes of the other three tables do not wrap. -/
def SizesFit (p : TfsParams) : Prop :=
  p.maxInodeCount * sizeofInode < 2 ^ 64 ∧ p.maxBlockCount * p.blockSize < 2 ^ 64 ∧
    p.maxOpenFilesCount * sizeofOpenFileEntry < 2 ^ 64

/-- Without inodes or without blocks `tfs_init` returns -1, in the second case after it wrote inode 0. -/
def Safe (p : TfsParams) : Prop :=
  p.LabelsFit ∧ (p.maxInodeCount = 0 ∨ 0 < p.blockSize ∧
    (p.maxBlockCount = 0 ∧ sizeofInode ≤ toSize (p.maxInodeCount * sizeofInode) ∨ 0 < p.maxBlockCount ∧ p.SizesFit))

end TfsParams

/-! ## The tables -/

namespace Table

variable {α : Type} {t : Table α} {size i n : Nat}

theorem covers_iff : t.covers size n = true ↔ ∃ bytes, t.bytes = some bytes ∧ n * size ≤ bytes := by
  unfold covers
  cases t.bytes <;> simp

theorem covers_of_le (h : t.covers size n = true) (hi : i ≤ n) : t.covers size i = true := by
  obtain ⟨bytes, hbytes, hle⟩ := covers_iff.mp h
  exact covers_iff.mpr ⟨bytes, hbytes, (Nat.mul_le_mul_right size hi).trans hle⟩

theorem access_of_covers (h : t.covers size (i + 1) = true) : t.access size i = .ok () := if_pos h

theorem covers_of_access {u : Unit} (h : t.access size i = .ok u) : t.covers size (i + 1) = true := by
  unfold access at h
  split at h
  · assumption
  · cases h

end Table

theorem toSize_eq_iff {n : Nat} : toSize n = n ↔ n < 2 ^ 64 := by
  constructor
  · intro h
    rw [← h]
    exact Nat.mod_lt _ (by norm_num)
  · exact toSize_of_lt

theorem le_toSize_iff {n : Nat} : n ≤ toSize n ↔ n < 2 ^ 64 := by
  constructor
  · intro h
    exact h.trans_lt (Nat.mod_lt _ (by norm_num))
  · intro h
    exact (toSize_of_lt h).ge

/-- If no product wrapped, the tables have as many elements as there are indices. -/
theorem State.Covered.of_exact (h : s.pointers.2 = s.fsParams.sizes.map some) : s.Covered := by
  have hcovers : ∀ {α : Type} {t : Table α} {size n : Nat} {i : Int}, t.bytes = some (n * size) → 0 ≤ i ∧ i < n →
      t.covers size (i.toNat + 1) = true := by
    intro α t size n i hbytes hi
    exact Table.covers_iff.mpr ⟨_, hbytes, Nat.mul_le_mul_right size (by omega)⟩
  have hbytes := h
  simp only [pointers, TfsParams.sizes, List.map_cons, List.map_nil, List.cons.injEq, and_true] at hbytes
  obtain ⟨hit, hft, hfd, hfb, hot, hof⟩ := hbytes
  refine ⟨fun i hi => ?_, fun b hb => ?_, fun f hf => ?_, h⟩
  · have hi := of_decide_eq_true hi
    exact ⟨hcovers hit hi, hcovers hft hi⟩
  · have hb := of_decide_eq_true hb
    exact ⟨hcovers hfd hb, hcovers hfb hb⟩
  · have hf := of_decide_eq_true hf
    exact ⟨hcovers hot hf, hcovers hof hf⟩

namespace Checked

/-! ## The loops -/

/-- The loop ends if the last entry that it labels was allocated. -/
theorem labelFree_iff {ts : Table AllocationState} {i n : Nat} :
    (∃ ts', labelFree ts i n = .ok ts') ↔ n = 0 ∨ ts.covers sizeofAllocationState (i + n) = true := by
  induction n generalizing ts i with
  | zero => exact iff_of_true ⟨ts, rfl⟩ (Or.inl rfl)
  | succ n ih =>
      have hsum : i + 1 + n = i + (n + 1) := by omega
      have hrec : (∃ ts', labelFree (ts.set i .free) (i + 1) n = .ok ts') ↔
          n = 0 ∨ ts.covers sizeofAllocationState (i + (n + 1)) = true := by
        rw [ih, hsum]
        rfl
      by_cases hc : ts.covers sizeofAllocationState (i + 1) = true
      · rw [labelFree, Table.access_of_covers hc, ok_bind, hrec]
        constructor
        · rintro (rfl | h)
          · exact Or.inr hc
          · exact Or.inr h
        · rintro (h | h)
          · cases h
          · exact Or.inr h
      · refine iff_of_false ?_ ?_
        · rintro ⟨ts', h⟩
          obtain ⟨_, ha, -⟩ := bind_eq_ok h
          exact hc (Table.covers_of_access ha)
        · rintro (h | h)
          · cases h
          · exact hc (Table.covers_of_le h (by omega))

theorem clearDirEntries_of_inData {p i n : Nat}
    (h : ∀ j, i ≤ j → j < i + n → s.inData (p + sizeofDirEntry * j + maxFileName) 4 = true) :
    ∃ s', clearDirEntries p s i n = .ok s' := by
  induction n generalizing s i with
  | zero => exact ⟨s, rfl⟩
  | succ n ih =>
      have hi := h i le_rfl (by omega)
      rw [clearDirEntries]
      simp only [hi, Bool.not_true]
      exact ih fun j hj hj' => h j (by omega) (by omega)

/-! ## state_init -/

theorem anyNull_allocate (s : State) (m : Malloc) : (s.allocate m).anyNull = false ↔ m.Succeeds := by
  simp [State.anyNull, State.allocate, Table.isNull, Table.bytes_malloc, Malloc.Succeeds, Option.isSome_iff_ne_none,
    and_assoc]

theorem stateInit_of_not_succeeds (h : s.inodeTable.isNull = true) (hm : ¬ m.Succeeds) :
    ∃ s', stateInit m s params = .ok (-1, s') := by
  have hany : (State.allocate { s with fsParams := params } m).anyNull = true := by
    rw [← Bool.not_eq_false, anyNull_allocate]
    exact hm
  exact ⟨_, by simp only [stateInit, h, hany, ↓reduceIte]; rfl⟩

/-- The loop over a table of `n` entries ends if their size did not wrap. -/
theorem labelFree_malloc_iff {t : Table AllocationState} {c : Option (Nat → AllocationState)} (hc : c.isSome)
    (n : Nat) : (∃ ts', labelFree (t.malloc (toSize (n * sizeofAllocationState)) c) 0 n = .ok ts') ↔
      n * sizeofAllocationState < 2 ^ 64 := by
  obtain ⟨contents, rfl⟩ := Option.isSome_iff_exists.mp hc
  rw [labelFree_iff, Nat.zero_add, Table.covers_iff, ← le_toSize_iff]
  constructor
  · rintro (rfl | ⟨bytes, hbytes, hle⟩)
    · exact Nat.zero_le _
    · cases hbytes
      exact hle
  · intro h
    exact Or.inr ⟨_, rfl, h⟩

theorem stateInit_iff (h : s.inodeTable.isNull = true) (hm : m.Succeeds) :
    (∃ x, stateInit m s params = .ok x) ↔ params.LabelsFit := by
  have hany := (anyNull_allocate { s with fsParams := params } m).mpr hm
  obtain ⟨-, hi, -, hb, -, hf⟩ := hm
  have hinodes := labelFree_malloc_iff (t := s.freeinodeTs) hi params.maxInodeCount
  have hblocks := labelFree_malloc_iff (t := s.freeBlocks) hb params.maxBlockCount
  have hfiles := labelFree_malloc_iff (t := s.freeOpenFileEntries) hf params.maxOpenFilesCount
  simp only [stateInit, h, hany, ↓reduceIte, Bool.false_eq_true]
  rw [TfsParams.LabelsFit, ← hinodes, ← hblocks, ← hfiles]
  constructor
  · rintro ⟨x, hx⟩
    obtain ⟨ts, hts, hx⟩ := bind_eq_ok hx
    obtain ⟨bs, hbs, hx⟩ := bind_eq_ok hx
    obtain ⟨fs, hfs, -⟩ := bind_eq_ok hx
    exact ⟨⟨ts, hts⟩, ⟨bs, hbs⟩, ⟨fs, hfs⟩⟩
  · rintro ⟨⟨ts, hts⟩, ⟨bs, hbs⟩, ⟨fs, hfs⟩⟩
    refine ⟨(0, { State.allocate { s with fsParams := params } m with
      freeinodeTs := ts, freeBlocks := bs, freeOpenFileEntries := fs }), ?_⟩
    simp only [State.allocate, State.inodeTableSize, State.dataBlocks, State.maxOpenFiles, hts, hbs, hfs, ok_bind]
    rfl

/-- What `state_init` leaves with all its memory, if its loops stay in their tables. -/
structure Started (params : TfsParams) (s : State) : Prop where
  fit : params.LabelsFit
  blank : Blank s
  fsParams : s.fsParams = params
  sizes : s.pointers.2 = params.sizes.map fun n => some (toSize n)

theorem stateInit_started {r : Int} (h : s.inodeTable.isNull = true) (hm : m.Succeeds)
    (he : stateInit m s params = .ok (r, s')) : r = 0 ∧ Started params s' := by
  have hany := (anyNull_allocate { s with fsParams := params } m).mpr hm
  have hinit := Except.ok.inj (stateInit_refines m s params _ he)
  have hzero : (Fs.stateInit m s params).1 = 0 := by
    rw [stateInit_eq]
    simp only [h, hany, ↓reduceIte, Bool.false_eq_true]
  have hptr : (Fs.stateInit m s params).2.pointers = _ := stateInit_pointers h
  have hfit := (stateInit_iff h hm).mp ⟨_, he⟩
  rw [hinit] at hzero hptr
  change r = 0 at hzero
  subst hzero
  obtain ⟨hblank, hparams⟩ := stateInit_blank hinit
  simp only [Malloc.Succeeds, Option.isSome_iff_exists] at hm
  obtain ⟨⟨_, hit⟩, ⟨_, hft⟩, ⟨_, hfd⟩, ⟨_, hfb⟩, ⟨_, hot⟩, ⟨_, hof⟩⟩ := hm
  refine ⟨rfl, hfit, hblank, hparams, ?_⟩
  simp only [hptr, hit, hft, hfd, hfb, hot, hof, Option.map_some, TfsParams.sizes, List.map_cons, List.map_nil]

/-! ## inode_create -/

theorem findFree_blockSize_zero {ts : Table AllocationState} {n : Nat} (hn : 0 < n) :
    findFree 0 ts 0 n = .error .divByZero := by
  cases n with
  | zero => cases hn
  | succ n => rfl

theorem findFree_of_free {bs n : Nat} {ts : Table AllocationState} (hbs : 0 < bs)
    (hc : n = 0 ∨ ts.covers sizeofAllocationState 1 = true) (hfree : ∀ k < n, ts.cell k = .free) :
    findFree bs ts 0 n = .ok (if n = 0 then none else some 0) := by
  cases n with
  | zero => rfl
  | succ n =>
      obtain hn | hc := hc
      · cases hn
      have hrem : remainder (0 * sizeofAllocationState) bs = .ok (0 * sizeofAllocationState % bs) := if_neg hbs.ne'
      rw [findFree, hrem, ok_bind, Table.access_of_covers hc, ok_bind, if_pos (hfree 0 (Nat.succ_pos n))]
      rfl

/-- An inode without data is deleted without a look at its block. -/
theorem inodeDelete_of_empty (hN : 0 < s.inodeTableSize)
    (hinodes : s.freeinodeTs.covers sizeofAllocationState 1 = true)
    (hinode : s.inodeTable.covers sizeofInode 1 = true) (htaken : s.freeinodeTs.cell 0 = .taken)
    (hsize : (s.inodeTable.cell 0).iSize = 0) : ∃ s', inodeDelete s 0 = .ok s' := by
  have hvalid : s.validInumber 0 = true := validInumber_natCast hN
  rw [inodeDelete, alwaysAssert_of hvalid, ok_bind]
  dsimp only
  rw [Int.toNat_zero, Table.access_of_covers hinodes, ok_bind, alwaysAssert_of (by simp [htaken]), ok_bind,
    Table.access_of_covers hinode, ok_bind, if_neg (by simp [hsize])]
  exact ⟨_, rfl⟩

/-- `inode_create(T_DIRECTORY)` in a state without files. -/
theorem inodeCreate_blank (h : Blank s) (hN : 0 < s.inodeTableSize) (hbs : 0 < s.blockSize)
    (hinodes : s.freeinodeTs.covers sizeofAllocationState 1 = true)
    (hblocks : s.dataBlocks = 0 ∨ s.freeBlocks.covers sizeofAllocationState 1 = true)
    (hinode : s.inodeTable.covers sizeofInode 1 = true) :
    (s.dataBlocks = 0 → ∃ s', inodeCreate s .directory = .ok (-1, s')) ∧
      (0 < s.dataBlocks → inodeCreate s .directory =
        clearDirEntries 0 s.createRoot 0 s.maxDirEntries >>= fun s' => .ok (0, s')) := by
  have halloc : inodeAlloc s = .ok (0, { s with freeinodeTs := s.freeinodeTs.set 0 .taken }) := by
    rw [inodeAlloc, findFree_of_free hbs (Or.inr hinodes) h.inodes, if_neg hN.ne']
    rfl
  obtain ⟨s₁, hs₁⟩ : ∃ s₁, s₁ = ({ s with freeinodeTs := s.freeinodeTs.set 0 .taken } : State).setInode 0
    { s.inodeTable.cell 0 with iNodeType := .directory } := ⟨_, rfl⟩
  have hfind : findFree s₁.blockSize s₁.freeBlocks 0 s₁.dataBlocks =
      .ok (if s.dataBlocks = 0 then none else some 0) := by
    rw [hs₁]
    exact findFree_of_free hbs hblocks h.blocks
  have hzero : (0 : Int) ≠ -1 := by omega
  have hindex : index 0 = .ok 0 := rfl
  have haccess : Table.access s.inodeTable sizeofInode 0 = .ok () := Table.access_of_covers hinode
  simp only [inodeCreate, halloc, ok_bind, if_neg hzero, hindex, haccess, ← hs₁, dataBlockAlloc, hfind]
  constructor
  · intro hB
    simp only [hB, ↓reduceIte, pure_eq_ok, ok_bind]
    obtain ⟨s', hdelete⟩ := inodeDelete_of_empty
      (s := s₁.setInode 0 { s₁.inodeTable.cell 0 with iSize := 0, iDataBlock := -1 })
      (by rw [hs₁]; exact hN) (by rw [hs₁]; exact hinodes) (by rw [hs₁]; exact hinode)
      (by rw [hs₁]; exact Table.set_cell_same _ _ _) (by simp [State.setInode])
    rw [hdelete]
    exact ⟨s', rfl⟩
  · intro hB
    have hget : ∀ s₂ : State, s₂.fsParams = s.fsParams → dataBlockGet s₂ 0 = .ok 0 := by
      intro s₂ hp
      exact dataBlockGet_zero (by rw [State.dataBlocks, hp]; exact hB)
    have htoInt : toInt 0 = 0 := rfl
    simp only [if_neg hB.ne', pure_eq_ok, ok_bind, htoInt, if_neg hzero]
    rw [hget _ (by rw [hs₁]; rfl), ok_bind, hs₁]
    simp [State.createRoot, State.setInode, Table.set, State.maxDirEntries, State.blockSize]

theorem inodeCreate_no_inodes (hN : s.inodeTableSize = 0) : inodeCreate s .directory = .ok (-1, s) := by
  have halloc : inodeAlloc s = .ok (-1, s) := by
    rw [inodeAlloc, hN]
    rfl
  rw [inodeCreate, halloc]
  rfl

/-- It returns only if the block size is positive and inode 0 was allocated. -/
theorem inodeCreate_returns {x : Int × State} (h : Blank s) (hN : 0 < s.inodeTableSize)
    (hinodes : s.freeinodeTs.covers sizeofAllocationState 1 = true) (he : inodeCreate s .directory = .ok x) :
    0 < s.blockSize ∧ s.inodeTable.covers sizeofInode 1 = true := by
  obtain ⟨⟨k, s₁⟩, halloc, he⟩ := bind_eq_ok he
  obtain ⟨o, hfind, halloc⟩ := bind_eq_ok halloc
  rcases Nat.eq_zero_or_pos s.blockSize with hbs | hbs
  · rw [hbs, findFree_blockSize_zero hN] at hfind
    cases hfind
  · refine ⟨hbs, ?_⟩
    rw [findFree_of_free hbs (Or.inr hinodes) h.inodes, if_neg hN.ne'] at hfind
    cases hfind
    obtain ⟨rfl, rfl⟩ := Prod.mk.inj (Except.ok.inj halloc)
    obtain ⟨i, hindex, he⟩ := bind_eq_ok he
    cases hindex
    obtain ⟨_, haccess, -⟩ := bind_eq_ok he
    exact Table.covers_of_access haccess

/-! ## tfs_init -/

namespace Started

theorem inodeTableSize_eq (h : Started params s) : s.inodeTableSize = params.maxInodeCount := by
  rw [State.inodeTableSize, h.fsParams]

theorem dataBlocks_eq (h : Started params s) : s.dataBlocks = params.maxBlockCount := by
  rw [State.dataBlocks, h.fsParams]

theorem blockSize_eq (h : Started params s) : s.blockSize = params.blockSize := by
  rw [State.blockSize, h.fsParams]

theorem covers_freeinodeTs (h : Started params s) (hN : 0 < params.maxInodeCount) :
    s.freeinodeTs.covers sizeofAllocationState 1 = true := by
  have hsizes := h.sizes
  simp only [State.pointers, TfsParams.sizes, List.map_cons, List.cons.injEq] at hsizes
  have hle := le_toSize_iff.mpr h.fit.1
  exact Table.covers_iff.mpr ⟨_, hsizes.2.1, (Nat.mul_le_mul_right _ hN).trans hle⟩

theorem covers_freeBlocks (h : Started params s) (hB : 0 < params.maxBlockCount) :
    s.freeBlocks.covers sizeofAllocationState 1 = true := by
  have hsizes := h.sizes
  simp only [State.pointers, TfsParams.sizes, List.map_cons, List.cons.injEq] at hsizes
  have hle := le_toSize_iff.mpr h.fit.2.1
  exact Table.covers_iff.mpr ⟨_, hsizes.2.2.2.1, (Nat.mul_le_mul_right _ hB).trans hle⟩

theorem covers_inodeTable (h : Started params s) :
    s.inodeTable.covers sizeofInode 1 = true ↔ sizeofInode ≤ toSize (params.maxInodeCount * sizeofInode) := by
  have hsizes := h.sizes
  simp only [State.pointers, TfsParams.sizes, List.map_cons, List.cons.injEq] at hsizes
  rw [Table.covers_iff, hsizes.1]
  simp

/-- The table of blocks is empty or its first entry was allocated. -/
theorem dataBlocks_or (h : Started params s) :
    s.dataBlocks = 0 ∨ s.freeBlocks.covers sizeofAllocationState 1 = true := by
  rw [h.dataBlocks_eq]
  exact (Nat.eq_zero_or_pos _).imp_right h.covers_freeBlocks

theorem safe (h : Started params s) {root : Int} (he : inodeCreate s .directory = .ok (root, s'))
    (hroot : root = 0 → s'.Covered) : params.Safe := by
  refine ⟨h.fit, ?_⟩
  rcases Nat.eq_zero_or_pos params.maxInodeCount with hN | hN
  · exact Or.inl hN
  have hN' : 0 < s.inodeTableSize := by rwa [h.inodeTableSize_eq]
  obtain ⟨hbs, hinode⟩ := inodeCreate_returns h.blank hN' (h.covers_freeinodeTs hN) he
  have hcreate := inodeCreate_blank h.blank hN' hbs (h.covers_freeinodeTs hN) h.dataBlocks_or hinode
  rw [h.blockSize_eq] at hbs
  rw [h.dataBlocks_eq] at hcreate
  refine Or.inr ⟨hbs, ?_⟩
  rcases Nat.eq_zero_or_pos params.maxBlockCount with hB | hB
  · exact Or.inl ⟨hB, h.covers_inodeTable.mp hinode⟩
  · refine Or.inr ⟨hB, ?_⟩
    have hptr := inodeCreate_pointers (inodeCreate_refines _ _ _ he)
    rw [hcreate.2 hB] at he
    obtain ⟨s₁, -, he⟩ := bind_eq_ok he
    have hexact := (hroot (congrArg Prod.fst (Except.ok.inj he)).symm).exact
    have hparams : s'.fsParams = params := (congrArg Prod.fst hptr).trans h.fsParams
    rw [hptr, h.sizes, hparams] at hexact
    simp only [TfsParams.sizes, List.map_cons, List.cons.injEq, Option.some.injEq, toSize_eq_iff] at hexact
    exact ⟨hexact.1, hexact.2.2.1, hexact.2.2.2.2.1⟩

/-- The root directory is created in block 0 if inode 0 and this block were allocated. -/
theorem inodeCreate_eq (h : Started params s) (hN : 0 < params.maxInodeCount) (hbs : 0 < params.blockSize)
    (hB : 0 < params.maxBlockCount) (hinode : sizeofInode ≤ toSize (params.maxInodeCount * sizeofInode))
    (hblock : params.blockSize ≤ toSize (params.maxBlockCount * params.blockSize)) :
    inodeCreate s .directory = .ok (0, Fs.clearDirEntries s.createRoot 0 s.maxDirEntries) := by
  have hN' : 0 < s.inodeTableSize := by rwa [h.inodeTableSize_eq]
  have hbs' : 0 < s.blockSize := by rwa [h.blockSize_eq]
  have hB' : 0 < s.dataBlocks := by rwa [h.dataBlocks_eq]
  have hcreate := (inodeCreate_blank h.blank hN' hbs' (h.covers_freeinodeTs hN) h.dataBlocks_or
    (h.covers_inodeTable.mpr hinode)).2 hB'
  have hdata : s.createRoot.fsData.bytes = some (toSize (s.dataBlocks * s.blockSize)) := h.blank.bytes
  rw [← h.blockSize_eq, ← h.dataBlocks_eq] at hblock
  have hinside : ∀ j, 0 ≤ j → j < 0 + s.maxDirEntries →
      s.createRoot.inData (0 + sizeofDirEntry * j + maxFileName) 4 = true := by
    intro j _ hj
    have hentry := State.dirEntry_lt (show j < s.maxDirEntries by omega)
    rw [State.inData_eq hdata, decide_eq_true_iff, sizeofDirEntry_eq, maxFileName]
    refine le_trans ?_ hblock
    exact le_trans (by omega) hentry
  obtain ⟨s', hclear⟩ := clearDirEntries_of_inData hinside
  have hvalue := clearDirEntries_refines _ _ _ _ _ hclear
  rw [hcreate, hclear, ok_bind, Fs.clearDirEntries, List.range_eq_range', Except.ok.inj hvalue]

theorem covered (h : Started params s) (hsizes : params.SizesFit) (hs' : s'.pointers = s.pointers) : s'.Covered := by
  have hparams : s'.fsParams = params := (congrArg Prod.fst hs').trans h.fsParams
  apply State.Covered.of_exact
  obtain ⟨hinodes, hblocks, hfiles⟩ := h.fit
  obtain ⟨hnodes, hdata, hhandles⟩ := hsizes
  rw [hs', h.sizes, hparams]
  simp only [TfsParams.sizes, List.map_cons, List.map_nil, toSize_of_lt, hinodes, hblocks, hfiles, hnodes, hdata,
    hhandles]

theorem emptyRoot (hs' : s' = Fs.clearDirEntries s.createRoot 0 s.maxDirEntries) : s'.EmptyRoot := by
  obtain ⟨⟨cell, he⟩, -, hentries⟩ := State.createRoot_cleared hs'
  exact ⟨by simp [he, State.createRoot], by simp [he, State.createRoot], hentries⟩

theorem safeStart (h : Started params s) (hsafe : params.Safe) : ∃ root s', inodeCreate s .directory = .ok (root, s') ∧
    (root = 0 → s'.Covered ∧ s'.EmptyRoot) := by
  rcases Nat.eq_zero_or_pos params.maxInodeCount with hN | hN
  · rw [← h.inodeTableSize_eq] at hN
    exact ⟨-1, s, inodeCreate_no_inodes hN, fun h0 => absurd h0 (by decide)⟩
  obtain ⟨hbs, hrest⟩ := hsafe.2.resolve_left hN.ne'
  obtain ⟨hB, hinode⟩ | ⟨hB, hsizes⟩ := hrest
  · have hbs' : 0 < s.blockSize := by rwa [h.blockSize_eq]
    have hN' : 0 < s.inodeTableSize := by rwa [h.inodeTableSize_eq]
    have hB' : s.dataBlocks = 0 := by rwa [h.dataBlocks_eq]
    obtain ⟨s', hs'⟩ := (inodeCreate_blank h.blank hN' hbs' (h.covers_freeinodeTs hN) h.dataBlocks_or
      (h.covers_inodeTable.mpr hinode)).1 hB'
    exact ⟨-1, s', hs', fun h0 => absurd h0 (by decide)⟩
  · have hinode := (Nat.le_mul_of_pos_left sizeofInode hN).trans (le_toSize_iff.mpr hsizes.1)
    have hblock := (Nat.le_mul_of_pos_left params.blockSize hB).trans (le_toSize_iff.mpr hsizes.2.1)
    have he := h.inodeCreate_eq hN hbs hB hinode hblock
    have hptr := inodeCreate_pointers (inodeCreate_refines _ _ _ he)
    exact ⟨0, _, he, fun _ => ⟨h.covered hsizes hptr, emptyRoot rfl⟩⟩

end Started

/-! ## tfs_init -/

theorem tfsInit_eq {s₁ : State} (he : stateInit m s params = .ok (0, s₁)) :
    tfsInit m s (some params) = inodeCreate s₁ .directory >>= fun x =>
      if x.1 ≠ rootDirInum then .ok (-1, x.2) else .ok (0, x.2) := by
  rw [tfsInit, Option.getD_some, he, ok_bind]
  rfl

/-- Whether the start-up is safe is decided by the creation of the root directory. -/
theorem safeStart_iff {s₁ : State} (he : stateInit m s params = .ok (0, s₁)) :
    SafeStart (tfsInit m s (some params)) ↔ ∃ root s', inodeCreate s₁ .directory = .ok (root, s') ∧
      (root = 0 → s'.Covered ∧ s'.EmptyRoot) := by
  rw [SafeStart, tfsInit_eq he]
  constructor
  · rintro ⟨r, s', hr, hsafe⟩
    obtain ⟨⟨root, s₂⟩, hroot, hr⟩ := bind_eq_ok hr
    refine ⟨root, s₂, hroot, fun h0 => ?_⟩
    subst h0
    cases hr
    exact hsafe rfl
  · rintro ⟨root, s', hroot, hsafe⟩
    rw [hroot, ok_bind]
    by_cases h0 : root = rootDirInum
    · exact ⟨0, s', if_neg (not_not.mpr h0), fun _ => hsafe h0⟩
    · exact ⟨-1, s', if_pos h0, fun h1 => absurd h1 (by decide)⟩

/-- The first inode and the first block are all that `tfs_init` needs to return 0. -/
theorem tfsInit_zero (h : s.inodeTable.isNull = true) (hm : m.Succeeds) (hfit : params.LabelsFit)
    (hN : 0 < params.maxInodeCount) (hbs : 0 < params.blockSize) (hB : 0 < params.maxBlockCount)
    (hinode : sizeofInode ≤ toSize (params.maxInodeCount * sizeofInode))
    (hblock : params.blockSize ≤ toSize (params.maxBlockCount * params.blockSize)) :
    ∃ s', tfsInit m s (some params) = .ok (0, s') ∧ s'.fsParams = params ∧
      s'.fsData.bytes = some (toSize (params.maxBlockCount * params.blockSize)) := by
  obtain ⟨⟨r, s₁⟩, he⟩ := (stateInit_iff h hm).mpr hfit
  obtain ⟨rfl, hstart⟩ := stateInit_started h hm he
  have hcreate := hstart.inodeCreate_eq hN hbs hB hinode hblock
  have hptr := inodeCreate_pointers (inodeCreate_refines _ _ _ hcreate)
  have hsizes := hstart.sizes
  rw [← hptr] at hsizes
  simp only [State.pointers, TfsParams.sizes, List.map_cons, List.cons.injEq] at hsizes
  refine ⟨_, ?_, (congrArg Prod.fst hptr).trans hstart.fsParams, hsizes.2.2.1⟩
  rw [tfsInit_eq he, hcreate]
  rfl

end Checked

end Mbroker.Fs
