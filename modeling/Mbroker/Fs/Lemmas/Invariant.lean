import Mbroker.Fs.Lemmas.ReadWrite

/-!
# The invariant along a run

`FsInv` after each of the changes that the operations make, after `tfs_init`, and after every call.
-/

namespace Mbroker.Fs

open Mbroker.Lib

variable {s s' : State} {L : Layout}

/-! ## Open handles after a change -/

theorem State.isOpen_openAt {i j off : Nat} {v : Int} :
    (s.openAt i v off).IsOpen j ↔ j < s.maxOpenFiles ∧ (j = i ∨ s.freeOpenFileEntries.cell j = .taken) := by
  simp only [State.IsOpen, State.openAt, State.maxOpenFiles, Table.set_cell]
  by_cases hj : j = i <;> simp [hj]

theorem State.isOpen_closeAt {i j : Nat} : (s.closeAt i).IsOpen j ↔ j ≠ i ∧ s.IsOpen j := by
  simp only [State.IsOpen, State.closeAt, State.maxOpenFiles, Table.set_cell]
  by_cases hj : j = i <;> simp [hj]

@[simp] theorem State.isOpen_seek {i j off : Nat} : (s.seek i off).IsOpen j ↔ s.IsOpen j := Iff.rfl

@[simp] theorem State.seek_ofInumber {i j off : Nat} :
    ((s.seek i off).openFileTable.cell j).ofInumber = (s.openFileTable.cell j).ofInumber := by
  simp only [State.seek, Table.set_cell]
  by_cases hj : j = i <;> simp [hj]

theorem State.seek_ofOffset {i j off : Nat} :
    ((s.seek i off).openFileTable.cell j).ofOffset = if j = i then off else (s.openFileTable.cell j).ofOffset := by
  simp only [State.seek, Table.set_cell]
  by_cases hj : j = i <;> simp [hj]

@[simp] theorem State.writeAt_ofInumber {i j k b n : Nat} {buffer : Mem} :
    ((s.writeAt i k b buffer n).openFileTable.cell j).ofInumber = (s.openFileTable.cell j).ofInumber :=
  State.seek_ofInumber

theorem State.writeAt_ofOffset {i j k b n : Nat} {buffer : Mem} :
    ((s.writeAt i k b buffer n).openFileTable.cell j).ofOffset =
      if j = i then (s.openFileTable.cell i).ofOffset + n else (s.openFileTable.cell j).ofOffset :=
  State.seek_ofOffset

@[simp] theorem State.writeAt_inode {i k b n : Nat} {buffer : Mem} :
    (s.writeAt i k b buffer n).inodeTable.cell k =
      { s.inodeTable.cell k with
        iSize := max (s.inodeTable.cell k).iSize ((s.openFileTable.cell i).ofOffset + n) } :=
  Table.set_cell_same _ _ _

theorem State.writeAt_inode_ne {i k k' b n : Nat} {buffer : Mem} (h : k' ≠ k) :
    (s.writeAt i k b buffer n).inodeTable.cell k' = s.inodeTable.cell k' := Table.set_cell_ne _ _ h

@[simp] theorem State.takeBlock_inode {k b : Nat} :
    (s.takeBlock k b).inodeTable.cell k = { s.inodeTable.cell k with iDataBlock := b } := Table.set_cell_same _ _ _

theorem State.takeBlock_inode_ne {k k' b : Nat} (h : k' ≠ k) :
    (s.takeBlock k b).inodeTable.cell k' = s.inodeTable.cell k' := Table.set_cell_ne _ _ h

theorem State.takeBlock_rootBlock {k b : Nat} (hk : 0 < k) : (s.takeBlock k b).rootBlock = s.rootBlock := by
  simp only [State.rootBlock, State.takeBlock_inode_ne hk.ne]

/-! ## The handles and the blocks -/

/-- What `DataOk` asks of the inode of a file. -/
def State.InodeOk (s : State) (inode : Inode) : Prop :=
  inode.iSize ≤ s.blockSize ∧ (0 < inode.iSize →
    ∃ b : Nat, inode.iDataBlock = b ∧ b < s.dataBlocks ∧ b ≠ s.rootBlock)

theorem State.inodeOk_of_empty {inode : Inode} (h : inode.iSize = 0) : s.InodeOk inode :=
  ⟨by omega, fun hpos => absurd hpos (by omega)⟩

namespace DataOk

theorem inodeOk (h : DataOk s) {k : Nat} (hk : 0 < k) (hu : s.InUse k) : s.InodeOk (s.inodeTable.cell k) :=
  ⟨h.size_le k hk hu, h.block k hk hu⟩

theorem handle (h : DataOk s) {i : Nat} (ho : s.IsOpen i) :
    (∃ k : Nat, (s.openFileTable.cell i).ofInumber = k ∧ 0 < k ∧ k < s.inodeTableSize) ∧
      (s.openFileTable.cell i).ofOffset < 2 ^ 64 := ⟨h.handleIno i ho, h.handleOff i ho⟩

/-- A change that keeps the root directory's inode and block keeps `DataOk` if every handle and every inode
in use afterwards is fine. -/
theorem of_change (h : DataOk s) (hp : s'.fsParams = s.fsParams) (hbytes : s'.fsData.bytes = s.fsData.bytes)
    (hroot : s'.inodeTable.cell 0 = s.inodeTable.cell 0) (htaken : s'.freeBlocks.cell s.rootBlock = .taken)
    (hh : ∀ i, s'.IsOpen i →
      (∃ k : Nat, (s'.openFileTable.cell i).ofInumber = k ∧ 0 < k ∧ k < s.inodeTableSize) ∧
        (s'.openFileTable.cell i).ofOffset < 2 ^ 64)
    (hi : ∀ k, 0 < k → s'.InUse k → s.InodeOk (s'.inodeTable.cell k)) : DataOk s' := by
  have hN : s'.inodeTableSize = s.inodeTableSize := by simp only [State.inodeTableSize, hp]
  have hbs : s'.blockSize = s.blockSize := by simp only [State.blockSize, hp]
  have hB : s'.dataBlocks = s.dataBlocks := by simp only [State.dataBlocks, hp]
  have hrb : s'.rootBlock = s.rootBlock := by simp only [State.rootBlock, hroot]
  exact
    { bytes := by rw [hbytes, hB, hbs]; exact h.bytes
      rootBlockTaken := by rw [hrb]; exact htaken
      handleIno := fun i ho => by rw [hN]; exact (hh i ho).1
      handleOff := fun i ho => (hh i ho).2
      size_le := fun k hk hu => by rw [hbs]; exact (hi k hk hu).1
      block := fun k hk hu => by rw [hB, hrb]; exact (hi k hk hu).2 }

end DataOk

theorem block_disjoint {b c bs x : Nat} (h : b ≠ c) (hx : c * bs ≤ x) (hx' : x < c * bs + bs) :
    x < b * bs ∨ b * bs + bs ≤ x := by
  rcases Nat.lt_or_gt_of_ne h with hlt | hgt
  · have hle : (b + 1) * bs ≤ c * bs := Nat.mul_le_mul_right _ hlt
    rw [Nat.add_mul, Nat.one_mul] at hle
    exact Or.inr (by omega)
  · have hle : (c + 1) * bs ≤ b * bs := Nat.mul_le_mul_right _ hgt
    rw [Nat.add_mul, Nat.one_mul] at hle
    exact Or.inl (by omega)

namespace FsInv

/-! ## Changes of the open file table -/

theorem openAt (h : FsInv s L) {i k off : Nat} (hk : 0 < k) (hu : s.InUse k) (hoff : off < 2 ^ 64) :
    FsInv (s.openAt i k off) L := by
  refine ⟨h.root.frame rfl (fun _ _ => rfl) rfl (fun _ _ _ => rfl) (fun _ _ _ => rfl),
    h.data.of_change rfl rfl rfl h.data.rootBlockTaken (fun j hj => ?_) (fun k' hk' hu' => ?_)⟩
  · obtain ⟨hlt, hj⟩ := State.isOpen_openAt.mp hj
    by_cases hji : j = i
    · subst hji
      simp only [State.openAt, Table.set_cell_same]
      exact ⟨⟨k, rfl, hk, hu.1⟩, hoff⟩
    · simp only [State.openAt, Table.set_cell_ne _ _ hji]
      exact h.data.handle ⟨hlt, hj.resolve_left hji⟩
  · refine h.data.inodeOk hk' ?_
    obtain ⟨hlt, ht | ⟨j, hj, hjk⟩⟩ := hu'
    · exact ⟨hlt, Or.inl ht⟩
    · obtain ⟨hjlt, hj⟩ := State.isOpen_openAt.mp hj
      by_cases hji : j = i
      · simp only [State.openAt, hji, Table.set_cell_same] at hjk
        obtain rfl : k = k' := by omega
        exact hu
      · simp only [State.openAt, Table.set_cell_ne _ _ hji] at hjk
        exact ⟨hlt, Or.inr ⟨j, ⟨hjlt, hj.resolve_left hji⟩, hjk⟩⟩

theorem addToOpenFileTable (h : FsInv s L) {k off : Nat} (hk : 0 < k) (hu : s.InUse k) (hoff : off < 2 ^ 64) :
    FsInv (addToOpenFileTable s k off).2 L := by
  rw [addToOpenFileTable_eq]
  cases firstFree s.freeOpenFileEntries s.maxOpenFiles with
  | none => exact h
  | some i => exact h.openAt hk hu hoff

theorem closeAt (h : FsInv s L) (i : Nat) : FsInv (s.closeAt i) L := by
  refine ⟨h.root.frame rfl (fun _ _ => rfl) rfl (fun _ _ _ => rfl) (fun _ _ _ => rfl),
    h.data.of_change rfl rfl rfl h.data.rootBlockTaken
      (fun j hj => h.data.handle (State.isOpen_closeAt.mp hj).2) (fun k hk hu => h.data.inodeOk hk ?_)⟩
  obtain ⟨hlt, ht | ⟨j, hj, hjk⟩⟩ := hu
  · exact ⟨hlt, Or.inl ht⟩
  · exact ⟨hlt, Or.inr ⟨j, (State.isOpen_closeAt.mp hj).2, hjk⟩⟩

theorem inUse_seek {i k off : Nat} : (s.seek i off).InUse k ↔ s.InUse k := by
  simp only [State.InUse, State.isOpen_seek, State.seek_ofInumber]
  rfl

theorem seek (h : FsInv s L) (i off : Nat) (hoff : off < 2 ^ 64) : FsInv (s.seek i off) L := by
  refine ⟨h.root.frame rfl (fun _ _ => rfl) rfl (fun _ _ _ => rfl) (fun _ _ _ => rfl),
    h.data.of_change rfl rfl rfl h.data.rootBlockTaken (fun j hj => ?_)
      (fun k hk hu => h.data.inodeOk hk (inUse_seek.mp hu))⟩
  obtain ⟨hino, hjoff⟩ := h.data.handle (State.isOpen_seek.mp hj)
  rw [State.seek_ofInumber, State.seek_ofOffset]
  refine ⟨hino, ?_⟩
  split
  · exact hoff
  · exact hjoff

/-! ## Changes of an inode -/

theorem setInode (h : FsInv s L) {k : Nat} {inode : Inode} (hk : 0 < k)
    (htype : s.freeinodeTs.cell k = .taken → inode.iNodeType = (s.inodeTable.cell k).iNodeType)
    (hok : s.InodeOk inode) : FsInv (s.setInode k inode) L := by
  refine ⟨h.root.frame rfl (fun _ _ => rfl) (Table.set_cell_ne _ _ hk.ne) (fun k' _ ht => ?_) (fun _ _ _ => rfl),
    h.data.of_change rfl rfl (Table.set_cell_ne _ _ hk.ne) h.data.rootBlockTaken
      (fun j hj => h.data.handle hj) (fun k' hk' hu => ?_)⟩
  · by_cases hkk : k' = k
    · subst hkk
      simp only [State.setInode, Table.set_cell_same]
      exact htype ht
    · simp only [State.setInode, Table.set_cell_ne _ _ hkk]
  · by_cases hkk : k' = k
    · subst hkk
      simp only [State.setInode, Table.set_cell_same]
      exact hok
    · simp only [State.setInode, Table.set_cell_ne _ _ hkk]
      exact h.data.inodeOk hk' hu

/-- The allocation map of the blocks may change everywhere but at the root's block. -/
theorem setFreeBlocks (h : FsInv s L) {t : Table AllocationState} (ht : t.cell s.rootBlock = .taken) :
    FsInv { s with freeBlocks := t } L :=
  ⟨h.root.frame rfl (fun _ _ => rfl) rfl (fun _ _ _ => rfl) (fun _ _ _ => rfl),
    h.data.of_change rfl rfl rfl ht (fun _ hj => h.data.handle hj) (fun _ hk hu => h.data.inodeOk hk hu)⟩

theorem freeBlock_rootBlock (h : FsInv s L) {k : Nat} (hk : 0 < k) (hu : s.InUse k)
    (hsize : 0 < (s.inodeTable.cell k).iSize) :
    (s.freeBlocks.set (s.inodeTable.cell k).iDataBlock.toNat .free).cell s.rootBlock = .taken := by
  obtain ⟨b, hb, -, hne⟩ := h.data.block k hk hu hsize
  rw [hb, Int.toNat_natCast, Table.set_cell_ne _ _ hne.symm]
  exact h.data.rootBlockTaken

theorem truncateInode (h : FsInv s L) {k : Nat} (hk : 0 < k) (hu : s.InUse k)
    (hsize : 0 < (s.inodeTable.cell k).iSize) : FsInv (s.truncateInode k) L :=
  (h.setFreeBlocks (h.freeBlock_rootBlock hk hu hsize)).setInode hk (fun _ => rfl) (State.inodeOk_of_empty rfl)

/-- An inode that was taken and given back holds an empty file. -/
theorem resetInode (h : FsInv s L) {k : Nat} (hk : firstFree s.freeinodeTs s.inodeTableSize = some k) :
    FsInv (s.setInode k newFile) L := by
  obtain ⟨hfree, -, -⟩ := firstFree_eq_some.mp hk
  refine h.setInode (h.firstFree_pos hk) (fun ht => ?_) (State.inodeOk_of_empty rfl)
  rw [hfree] at ht
  cases ht

theorem firstFree_ne_rootBlock (h : FsInv s L) {b : Nat}
    (hb : firstFree s.freeBlocks s.dataBlocks = some b) : b ≠ s.rootBlock := by
  rintro rfl
  have hfree := (firstFree_eq_some.mp hb).1
  rw [h.data.rootBlockTaken] at hfree
  cases hfree

theorem takeBlock (h : FsInv s L) {k b : Nat} (hk : 0 < k) (hsize : (s.inodeTable.cell k).iSize = 0)
    (hb : firstFree s.freeBlocks s.dataBlocks = some b) : FsInv (s.takeBlock k b) L := by
  refine (h.setFreeBlocks (t := s.freeBlocks.set b .taken) ?_).setInode hk (fun _ => rfl)
    (State.inodeOk_of_empty hsize)
  rw [Table.set_cell_ne _ _ (h.firstFree_ne_rootBlock hb).symm]
  exact h.data.rootBlockTaken

/-! ## Writing -/

theorem poke (h : FsInv s L) {b lo n : Nat} (src : Mem) (hb : b ≠ s.rootBlock) (hlo : b * s.blockSize ≤ lo)
    (hhi : lo + n ≤ b * s.blockSize + s.blockSize) : FsInv (s.poke lo src n) L := by
  refine ⟨h.root.frame rfl (fun _ _ => rfl) rfl (fun _ _ _ => rfl) (fun x hx hx' => ?_),
    h.data.of_change rfl rfl rfl h.data.rootBlockTaken (fun _ hj => h.data.handle hj)
      (fun _ hk hu => h.data.inodeOk hk hu)⟩
  have := block_disjoint hb hx hx'
  exact Mem.copy_apply_of_not_mem (by omega)

theorem writeAt (h : FsInv s L) {i k b n : Nat} {buffer : Mem} (hk : 0 < k)
    (hb : (s.inodeTable.cell k).iDataBlock = b) (hlt : b < s.dataBlocks) (hne : b ≠ s.rootBlock)
    (hsize : (s.inodeTable.cell k).iSize ≤ s.blockSize)
    (hfit : (s.openFileTable.cell i).ofOffset + n ≤ s.blockSize) : FsInv (s.writeAt i k b buffer n) L := by
  have hbs := h.root.sane.blockSize_lt'
  have hpoke := h.poke buffer hne (Nat.le_add_right _ (s.openFileTable.cell i).ofOffset)
    (n := n) (by omega)
  have hseek := hpoke.seek i ((s.openFileTable.cell i).ofOffset + n) (by omega)
  exact hseek.setInode hk (fun _ => rfl) ⟨max_le hsize hfit, fun _ => ⟨b, hb, hlt, hne⟩⟩

end FsInv

end Mbroker.Fs
