import Mbroker.Fs.Abstract
import Mbroker.Fs.Lemmas.Preservation

/-!
# The tables and the abstract file system

`Refines S s L a`: the tables of `s`, with the directory laid out as `L`, hold the files and the handles of `a`,
and the files named in `S` own a block each. One lemma for each change that the operations make.
-/

namespace Mbroker.Fs

open Mbroker.Lib

namespace State

/-- The block of the inode `k`. -/
def blockOf (s : State) (k : Nat) : Nat := (s.inodeTable.cell k).iDataBlock.toNat

/-- The contents of the file with the inode `k`. -/
def fileBytes (s : State) (k : Nat) : List UInt8 :=
  (Mem.ptr s.fsData.cell (s.blockOf k * s.blockSize)).bytes (s.inodeTable.cell k).iSize

variable {s s' : State}

@[simp] theorem length_fileBytes (k : Nat) : (s.fileBytes k).length = (s.inodeTable.cell k).iSize :=
  Mem.length_bytes _ _

/-- The contents depend on the inode and on the bytes of its block. -/
theorem fileBytes_congr {k : Nat} (hp : s'.fsParams = s.fsParams)
    (hc : s'.inodeTable.cell k = s.inodeTable.cell k)
    (hd : ∀ x, s.blockOf k * s.blockSize ≤ x → x < s.blockOf k * s.blockSize + (s.inodeTable.cell k).iSize →
      s'.fsData.cell x = s.fsData.cell x) : s'.fileBytes k = s.fileBytes k := by
  have hb : s'.blockOf k = s.blockOf k := by simp only [blockOf, hc]
  have hbs : s'.blockSize = s.blockSize := by simp only [blockSize, hp]
  simp only [fileBytes, hb, hbs, hc]
  exact Mem.bytes_congr fun i hi => hd _ (Nat.le_add_right _ _) (by omega)

@[simp] theorem writeAt_blockOf {i k k' b n : Nat} {buffer : Mem} :
    (s.writeAt i k b buffer n).blockOf k' = s.blockOf k' := by
  by_cases hk : k' = k
  · subst hk
    simp only [blockOf, writeAt_inode]
  · simp only [blockOf, writeAt_inode_ne hk]

@[simp] theorem takeBlock_blockOf {k b : Nat} : (s.takeBlock k b).blockOf k = b := by
  simp only [blockOf, takeBlock_inode, Int.toNat_natCast]

theorem takeBlock_blockOf_ne {k k' b : Nat} (h : k' ≠ k) : (s.takeBlock k b).blockOf k' = s.blockOf k' := by
  simp only [blockOf, takeBlock_inode_ne h]

end State

/-- A write into the block `b` of the inode `k` keeps every file with another inode and block. -/
theorem FsInv.fileBytes_writeAt {s : State} {L : Layout} (h : FsInv s L) {i k b m : Nat} (buffer : Mem)
    {n : List UInt8} (hn : n ∈ L.names) (hk : L.ino n ≠ k)
    (hb : 0 < (s.inodeTable.cell (L.ino n)).iSize → s.blockOf (L.ino n) ≠ b)
    (hfit : (s.openFileTable.cell i).ofOffset + m ≤ s.blockSize) :
    (s.writeAt i k b buffer m).fileBytes (L.ino n) = s.fileBytes (L.ino n) := by
  refine State.fileBytes_congr (by rfl) (State.writeAt_inode_ne hk) fun x hx hx' => ?_
  have hsize := h.data.size_le _ (h.root.ino_pos n hn) (h.inUse_ino hn)
  have hne := hb (by omega)
  have hout := block_disjoint hne.symm hx (by omega)
  exact Mem.copy_apply_of_not_mem (by omega)

/-- The tables hold what the abstract file system says. -/
structure Refines (S : Finset (List UInt8)) (s : State) (L : Layout) (a : FileSystem) : Prop where
  inv : FsInv s L
  names : a.names = L.names
  handle_some : ∀ i n off, a.handles i = some (n, off) →
    s.IsOpen i ∧ n ∈ L.names ∧ s.openFileTable.cell i = ⟨L.ino n, off⟩ ∧ off ≤ (a.content n).length
  handle_none : ∀ i, a.handles i = none → ¬ s.IsOpen i
  content : ∀ n ∈ L.names, s.fileBytes (L.ino n) = a.content n
  owns : S ⊆ L.names
  stored : ∀ n ∈ L.names, a.content n ≠ [] → n ∈ S
  block : ∀ n ∈ S, (s.inodeTable.cell (L.ino n)).iDataBlock = s.blockOf (L.ino n) ∧
    s.blockOf (L.ino n) < s.dataBlocks ∧ s.blockOf (L.ino n) ≠ s.rootBlock
  block_inj : ∀ n ∈ S, ∀ m ∈ S, s.blockOf (L.ino n) = s.blockOf (L.ino m) → n = m
  taken : ∀ b < s.dataBlocks,
    s.freeBlocks.cell b = .taken ↔ b = s.rootBlock ∨ ∃ n ∈ S, s.blockOf (L.ino n) = b

namespace FileSystem

variable {a : FileSystem} {params : TfsParams}

theorem handle_eq_some {fh : Int} {i : Nat} {n : List UInt8} {off : Nat} :
    a.handle fh = some (i, n, off) ↔ fh = i ∧ a.handles i = some (n, off) := by
  unfold handle
  split
  · rename_i hneg
    simp only [reduceCtorEq, false_iff]
    rintro ⟨rfl, -⟩
    omega
  · simp only [Option.map_eq_some_iff, Prod.mk.injEq, Prod.exists]
    constructor
    · rintro ⟨n', off', h, rfl, rfl, rfl⟩
      exact ⟨by omega, h⟩
    · rintro ⟨rfl, h⟩
      exact ⟨n, off, by simpa using h, by simp, rfl, rfl⟩

@[simp] theorem setHandle_same {i : Nat} {x : Option (List UInt8 × Nat)} :
    (a.setHandle i x).handles i = x := Function.update_self _ _ _

theorem setHandle_ne {i j : Nat} {x : Option (List UInt8 × Nat)} (h : j ≠ i) :
    (a.setHandle i x).handles j = a.handles j := Function.update_of_ne h _ _

@[simp] theorem setContent_same {n l : List UInt8} : (a.setContent n l).content n = l :=
  Function.update_self _ _ _

theorem setContent_ne {n m l : List UInt8} (h : m ≠ n) : (a.setContent n l).content m = a.content m :=
  Function.update_of_ne h _ _

theorem mem_stored {n : List UInt8} : n ∈ a.stored ↔ n ∈ a.names ∧ a.content n ≠ [] := Finset.mem_filter

theorem setContent_nil {n : List UInt8} (h : a.content n = []) : a.setContent n [] = a := by
  simp only [setContent, ← h, Function.update_eq_self]

end FileSystem

namespace Refines

variable {S : Finset (List UInt8)} {s : State} {L : Layout} {a : FileSystem}

theorem size (h : Refines S s L a) {n : List UInt8} (hn : n ∈ L.names) :
    (s.inodeTable.cell (L.ino n)).iSize = (a.content n).length := by
  rw [← h.content n hn, State.length_fileBytes]

theorem isOpen_iff (h : Refines S s L a) {i : Nat} : s.IsOpen i ↔ ∃ n off, a.handles i = some (n, off) := by
  constructor
  · intro ho
    cases hi : a.handles i with
    | none => exact absurd ho (h.handle_none i hi)
    | some x => exact ⟨x.1, x.2, rfl⟩
  · rintro ⟨n, off, hi⟩
    exact (h.handle_some i n off hi).1

/-- The entry of an open handle, and what the abstract file system says of it. -/
theorem of_isOpen (h : Refines S s L a) {i : Nat} (ho : s.IsOpen i) :
    ∃ n off, a.handles i = some (n, off) ∧ n ∈ L.names ∧ s.openFileTable.cell i = ⟨L.ino n, off⟩ ∧
      off ≤ (a.content n).length := by
  obtain ⟨n, off, hi⟩ := h.isOpen_iff.mp ho
  exact ⟨n, off, hi, (h.handle_some i n off hi).2⟩

theorem getOpenFileEntry_none (h : Refines S s L a) {fh : Int} (hget : getOpenFileEntry s fh = none) :
    a.handle fh = none := by
  cases hh : a.handle fh with
  | none => rfl
  | some x =>
      obtain ⟨i, n, off⟩ := x
      obtain ⟨rfl, hi⟩ := FileSystem.handle_eq_some.mp hh
      rw [getOpenFileEntry_natCast (h.handle_some i n off hi).1] at hget
      cases hget

theorem wellFormed (h : Refines S s L a) : a.WellFormed s.fsParams := by
  refine ⟨fun n hn => ?_, fun n hn => ?_, fun i n off hi => ?_⟩
  · rw [h.names] at hn
    exact h.inv.root.nameOk n hn
  · rw [h.names] at hn
    rw [← h.size hn]
    exact h.inv.data.size_le _ (h.inv.root.ino_pos n hn) (h.inv.inUse_ino hn)
  · obtain ⟨ho, hn, -, hle⟩ := h.handle_some i n off hi
    exact ⟨ho.1, by rw [h.names]; exact hn, hle⟩

/-! ## Handles -/

theorem openAt (h : Refines S s L a) {i : Nat} {n : List UInt8} {off : Nat} (hi : i < s.maxOpenFiles)
    (hn : n ∈ L.names) (hoff : off ≤ (a.content n).length) :
    Refines S (s.openAt i (L.ino n) off) L (a.setHandle i (some (n, off))) := by
  have hwf := h.wellFormed.content n (by rw [h.names]; exact hn)
  have hbs := h.inv.root.sane.blockSize_lt
  refine
    { h with
      inv := h.inv.openAt (h.inv.root.ino_pos n hn) (h.inv.inUse_ino hn) (by omega)
      handle_some := fun j m off' hj => ?_
      handle_none := fun j hj => ?_ }
  · by_cases hji : j = i
    · subst hji
      rw [FileSystem.setHandle_same] at hj
      cases hj
      exact ⟨State.isOpen_openAt.mpr ⟨hi, Or.inl rfl⟩, hn, Table.set_cell_same _ _ _, hoff⟩
    · rw [FileSystem.setHandle_ne hji] at hj
      obtain ⟨ho, hm, hcell, hle⟩ := h.handle_some j m off' hj
      exact ⟨State.isOpen_openAt.mpr ⟨ho.1, Or.inr ho.2⟩, hm, (Table.set_cell_ne _ _ hji).trans hcell, hle⟩
  · by_cases hji : j = i
    · subst hji
      rw [FileSystem.setHandle_same] at hj
      cases hj
    · rw [FileSystem.setHandle_ne hji] at hj
      rintro hopen
      obtain ⟨hlt, hor⟩ := State.isOpen_openAt.mp hopen
      exact h.handle_none j hj ⟨hlt, hor.resolve_left hji⟩

/-- Both sides give out the lowest free handle. -/
theorem firstFree_eq (h : Refines S s L a) :
    firstFree s.freeOpenFileEntries s.maxOpenFiles =
      firstIndex (fun i => (a.handles i).isNone) s.fsParams.maxOpenFilesCount := by
  refine firstIndex_congr fun i hi => ?_
  cases hh : a.handles i with
  | none =>
      have hclosed := h.handle_none i hh
      have hfree : s.freeOpenFileEntries.cell i = .free := by
        cases hc : s.freeOpenFileEntries.cell i with
        | free => rfl
        | taken => exact absurd ⟨hi, hc⟩ hclosed
      simp [hfree]
  | some x =>
      have ho := (h.handle_some i x.1 x.2 hh).1
      simp [ho.2]

theorem addToOpenFileTable (h : Refines S s L a) {n : List UInt8} {off : Nat} (hn : n ∈ L.names)
    (hoff : off ≤ (a.content n).length) :
    (addToOpenFileTable s (L.ino n) off).1 = (a.addHandle s.fsParams n off).1 ∧
      Refines S (addToOpenFileTable s (L.ino n) off).2 L (a.addHandle s.fsParams n off).2 := by
  rw [addToOpenFileTable_eq, FileSystem.addHandle, ← h.firstFree_eq]
  cases hi : firstFree s.freeOpenFileEntries s.maxOpenFiles with
  | none => exact ⟨rfl, h⟩
  | some i => exact ⟨rfl, h.openAt (firstFree_eq_some.mp hi).2.1 hn hoff⟩

theorem closeAt (h : Refines S s L a) (i : Nat) : Refines S (s.closeAt i) L (a.setHandle i none) := by
  refine
    { h with
      inv := h.inv.closeAt i
      handle_some := fun j m off' hj => ?_
      handle_none := fun j hj => ?_ }
  · by_cases hji : j = i
    · subst hji
      rw [FileSystem.setHandle_same] at hj
      cases hj
    · rw [FileSystem.setHandle_ne hji] at hj
      obtain ⟨ho, hm⟩ := h.handle_some j m off' hj
      exact ⟨State.isOpen_closeAt.mpr ⟨hji, ho⟩, hm⟩
  · intro hopen
    obtain ⟨hji, ho⟩ := State.isOpen_closeAt.mp hopen
    rw [FileSystem.setHandle_ne hji] at hj
    exact h.handle_none j hj ho

theorem seek (h : Refines S s L a) {i : Nat} {n : List UInt8} {off : Nat} (off' : Nat)
    (hi : a.handles i = some (n, off)) (hoff : off' ≤ (a.content n).length) :
    Refines S (s.seek i off') L (a.setHandle i (some (n, off'))) := by
  obtain ⟨ho, hn, hcell, -⟩ := h.handle_some i n off hi
  have hwf := h.wellFormed.content n (by rw [h.names]; exact hn)
  have hbs := h.inv.root.sane.blockSize_lt
  refine
    { h with
      inv := h.inv.seek i off' (by omega)
      handle_some := fun j m offj hj => ?_
      handle_none := fun j hj => ?_ }
  · by_cases hji : j = i
    · subst hji
      rw [FileSystem.setHandle_same] at hj
      cases hj
      refine ⟨ho, hn, (Table.set_cell_same _ _ _).trans ?_, hoff⟩
      rw [hcell]
    · rw [FileSystem.setHandle_ne hji] at hj
      obtain ⟨hoj, hm, hcellj, hle⟩ := h.handle_some j m offj hj
      exact ⟨hoj, hm, (Table.set_cell_ne _ _ hji).trans hcellj, hle⟩
  · by_cases hji : j = i
    · subst hji
      rw [FileSystem.setHandle_same] at hj
      cases hj
    · rw [FileSystem.setHandle_ne hji] at hj
      exact h.handle_none j hj

/-! ## Contents -/

theorem resetInode (h : Refines S s L a) {k : Nat} (hk : firstFree s.freeinodeTs s.inodeTableSize = some k) :
    Refines S (s.setInode k newFile) L a := by
  have hpos := h.inv.firstFree_pos hk
  have hne : ∀ n ∈ L.names, L.ino n ≠ k := by
    rintro n hn rfl
    have hfree := (firstFree_eq_some.mp hk).1
    rw [(h.inv.root.taken _ (h.inv.root.ino_lt n hn)).mpr (Or.inr ⟨n, hn, rfl⟩)] at hfree
    cases hfree
  have hcell : ∀ n ∈ L.names, (s.setInode k newFile).inodeTable.cell (L.ino n) = s.inodeTable.cell (L.ino n) :=
    fun n hn => Table.set_cell_ne _ _ (hne n hn)
  have hblk : ∀ n ∈ S, (s.setInode k newFile).blockOf (L.ino n) = s.blockOf (L.ino n) := by
    intro n hn
    simp only [State.blockOf, hcell n (h.owns hn)]
  have hroot : (s.setInode k newFile).rootBlock = s.rootBlock := by
    simp only [State.rootBlock, State.setInode, Table.set_cell_ne _ _ hpos.ne]
  refine
    { h with
      inv := h.inv.resetInode hk
      content := fun n hn => ?_
      block := fun n hn => ?_
      block_inj := fun n hn m hm he => ?_
      taken := fun b hb => ?_ }
  · exact (State.fileBytes_congr (by rfl) (hcell n hn) fun _ _ _ => rfl).trans (h.content n hn)
  · rw [hblk n hn, hroot, hcell n (h.owns hn)]
    exact h.block n hn
  · rw [hblk n hn, hblk m hm] at he
    exact h.block_inj n hn m hm he
  · rw [hroot]
    refine (h.taken b hb).trans (or_congr_right (exists_congr fun n => and_congr_right fun hn => ?_))
    rw [hblk n hn]

theorem takeBlock (h : Refines S s L a) {n : List UInt8} {b : Nat} (hn : n ∈ L.names) (hnS : n ∉ S)
    (hb : firstFree s.freeBlocks s.dataBlocks = some b) :
    Refines (insert n S) (s.takeBlock (L.ino n) b) L a := by
  obtain ⟨hfree, hlt, -⟩ := firstFree_eq_some.mp hb
  have hpos := h.inv.root.ino_pos n hn
  have hempty : a.content n = [] := by
    by_contra hne
    exact hnS (h.stored n hn hne)
  have hsize : (s.inodeTable.cell (L.ino n)).iSize = 0 := by rw [h.size hn, hempty]; rfl
  have hroot := State.takeBlock_rootBlock (s := s) (b := b) hpos
  have hcell : ∀ m ∈ L.names, m ≠ n →
      (s.takeBlock (L.ino n) b).inodeTable.cell (L.ino m) = s.inodeTable.cell (L.ino m) := by
    intro m hm hmn
    exact State.takeBlock_inode_ne fun he => hmn (h.inv.root.ino_inj m hm n hn he)
  have hne : ∀ m ∈ S, m ≠ n := fun m hm he => hnS (he ▸ hm)
  have hblk : ∀ m ∈ S, (s.takeBlock (L.ino n) b).blockOf (L.ino m) = s.blockOf (L.ino m) := by
    intro m hm
    simp only [State.blockOf, hcell m (h.owns hm) (hne m hm)]
  -- a block that was free belongs to no file
  have hnew : ∀ m ∈ S, s.blockOf (L.ino m) ≠ b := by
    rintro m hm rfl
    rw [(h.taken _ hlt).mpr (Or.inr ⟨m, hm, rfl⟩)] at hfree
    cases hfree
  refine
    { h with
      inv := h.inv.takeBlock hpos hsize hb
      content := fun m hm => ?_
      owns := Finset.insert_subset hn h.owns
      stored := fun m hm hc => Finset.mem_insert_of_mem (h.stored m hm hc)
      block := fun m hm => ?_
      block_inj := fun m hm m' hm' he => ?_
      taken := fun c hc => ?_ }
  · by_cases hmn : m = n
    · subst hmn
      rw [hempty, ← List.length_eq_zero_iff, State.length_fileBytes, State.takeBlock_inode]
      exact hsize
    · exact (State.fileBytes_congr (by rfl) (hcell m hm hmn) fun _ _ _ => rfl).trans (h.content m hm)
  · rcases Finset.mem_insert.mp hm with rfl | hmS
    · rw [State.takeBlock_blockOf, hroot, State.takeBlock_inode]
      exact ⟨rfl, hlt, h.inv.firstFree_ne_rootBlock hb⟩
    · rw [hblk m hmS, hroot, hcell m (h.owns hmS) (hne m hmS)]
      exact h.block m hmS
  · rcases Finset.mem_insert.mp hm with rfl | hmS <;> rcases Finset.mem_insert.mp hm' with rfl | hmS'
    · rfl
    · rw [State.takeBlock_blockOf, hblk m' hmS'] at he
      exact absurd he.symm (hnew m' hmS')
    · rw [State.takeBlock_blockOf, hblk m hmS] at he
      exact absurd he (hnew m hmS)
    · rw [hblk m hmS, hblk m' hmS'] at he
      exact h.block_inj m hmS m' hmS' he
  · have hset : (s.takeBlock (L.ino n) b).freeBlocks.cell c = .taken ↔ c = b ∨ s.freeBlocks.cell c = .taken := by
      simp only [State.takeBlock, Table.set_cell]
      by_cases hcb : c = b <;> simp [hcb]
    rw [hset, h.taken c hc, hroot]
    constructor
    · rintro (rfl | hr | ⟨m, hm, hmc⟩)
      · exact Or.inr ⟨n, Finset.mem_insert_self _ _, State.takeBlock_blockOf⟩
      · exact Or.inl hr
      · exact Or.inr ⟨m, Finset.mem_insert_of_mem hm, (hblk m hm).trans hmc⟩
    · rintro (hr | ⟨m, hm, hmc⟩)
      · exact Or.inr (Or.inl hr)
      · rcases Finset.mem_insert.mp hm with rfl | hmS
        · exact Or.inl (hmc.symm.trans State.takeBlock_blockOf)
        · exact Or.inr (Or.inr ⟨m, hmS, (hblk m hmS).symm.trans hmc⟩)

/-- A write changes the contents of the handle's file, and of no other one. -/
theorem writeAt_content (h : Refines S s L a) {i m : Nat} {n : List UInt8} {off : Nat} (buffer : Mem)
    (hi : a.handles i = some (n, off)) (hnS : n ∈ S) (hfit : off + m ≤ s.blockSize) :
    ∀ m' ∈ L.names, (s.writeAt i (L.ino n) (s.blockOf (L.ino n)) buffer m).fileBytes (L.ino m') =
      (a.setContent n (overwrite (a.content n) off (buffer.bytes m))).content m' := by
  obtain ⟨ho, hn, hentry, hle⟩ := h.handle_some i n off hi
  have hoff : (s.openFileTable.cell i).ofOffset = off := by rw [hentry]
  intro m' hm'
  by_cases hmn : m' = n
  · subst hmn
    have hdata : (s.writeAt i (L.ino m') (s.blockOf (L.ino m')) buffer m).fsData.cell =
        Mem.copy s.fsData.cell (s.blockOf (L.ino m') * s.blockSize + off) buffer m := by
      rw [← hoff]
      rfl
    rw [FileSystem.setContent_same, ← h.content m' hm']
    simp only [State.fileBytes, State.writeAt_blockOf, State.writeAt_inode, hdata, hoff]
    exact Mem.bytes_copy (by rw [h.size hn]; exact hle)
  · rw [FileSystem.setContent_ne hmn, ← h.content m' hm']
    refine h.inv.fileBytes_writeAt buffer hm' (fun he => hmn (h.inv.root.ino_inj m' hm' n hn he)) (fun hsize => ?_)
      (by rw [hoff]; exact hfit)
    have hm'S : m' ∈ S := h.stored m' hm' fun hnil => by
      rw [h.size hm', hnil] at hsize
      exact Nat.lt_irrefl 0 hsize
    exact fun he => hmn (h.block_inj m' hm'S n hnS he)

theorem writeAt (h : Refines S s L a) {i m : Nat} {n : List UInt8} {off : Nat} {buffer : Mem}
    (hi : a.handles i = some (n, off)) (hnS : n ∈ S) (hfit : off + m ≤ s.blockSize) :
    Refines S (s.writeAt i (L.ino n) (s.blockOf (L.ino n)) buffer m) L
      ((a.setContent n (overwrite (a.content n) off (buffer.bytes m))).setHandle i (some (n, off + m))) := by
  obtain ⟨ho, hn, hentry, hle⟩ := h.handle_some i n off hi
  have hoff : (s.openFileTable.cell i).ofOffset = off := by rw [hentry]
  obtain ⟨hb, hlt, hne⟩ := h.block n hnS
  have hpos := h.inv.root.ino_pos n hn
  obtain ⟨s', hs'⟩ : ∃ s', s' = s.writeAt i (L.ino n) (s.blockOf (L.ino n)) buffer m := ⟨_, rfl⟩
  have hcontent := h.writeAt_content buffer hi hnS hfit
  rw [← hs'] at hcontent ⊢
  have hinv : FsInv s' L := by
    rw [hs']
    exact h.inv.writeAt hpos hb hlt hne (h.inv.data.size_le _ hpos (h.inv.inUse_ino hn)) (by rw [hoff]; exact hfit)
  have hblk : ∀ k, s'.blockOf k = s.blockOf k := by
    intro k
    rw [hs']
    exact State.writeAt_blockOf
  have hroot : s'.rootBlock = s.rootBlock := hblk 0
  have hparams : s'.fsParams = s.fsParams := by rw [hs']; rfl
  have hopen : ∀ j, s'.IsOpen j ↔ s.IsOpen j := by
    intro j
    rw [hs']
    exact Iff.rfl
  refine
    { inv := hinv
      names := h.names
      handle_some := fun j m' off' hj => ?_
      handle_none := fun j hj => ?_
      content := hcontent
      owns := h.owns
      stored := fun m' hm' hc => ?_
      block := fun m' hm' => ?_
      block_inj := fun m' hm' m'' hm'' he => ?_
      taken := fun c hc => ?_ }
  · rw [hopen]
    by_cases hji : j = i
    · subst hji
      rw [FileSystem.setHandle_same] at hj
      cases hj
      refine ⟨ho, hn, ?_, ?_⟩
      · rw [hs']
        refine (Table.set_cell_same _ _ _).trans ?_
        simp only [State.poke, hentry]
      · change off + m ≤ ((a.setContent n _).content n).length
        rw [FileSystem.setContent_same, length_overwrite hle, Mem.length_bytes]
        exact le_max_right _ _
    · rw [FileSystem.setHandle_ne hji] at hj
      obtain ⟨hoj, hm', hcellj, hlej⟩ := h.handle_some j m' off' hj
      refine ⟨hoj, hm', ?_, ?_⟩
      · rw [hs']
        exact (Table.set_cell_ne _ _ hji).trans hcellj
      · change off' ≤ ((a.setContent n _).content m').length
        by_cases hmn : m' = n
        · subst hmn
          rw [FileSystem.setContent_same, length_overwrite hle]
          exact hlej.trans (le_max_left _ _)
        · rw [FileSystem.setContent_ne hmn]
          exact hlej
  · rw [hopen]
    by_cases hji : j = i
    · subst hji
      rw [FileSystem.setHandle_same] at hj
      cases hj
    · rw [FileSystem.setHandle_ne hji] at hj
      exact h.handle_none j hj
  · by_cases hmn : m' = n
    · rw [hmn]; exact hnS
    · refine h.stored m' hm' ?_
      have : (a.setContent n _).content m' ≠ [] := hc
      rwa [FileSystem.setContent_ne hmn] at this
  · obtain ⟨hbm, hltm, hnem⟩ := h.block m' hm'
    rw [hblk, hroot]
    refine ⟨?_, by simpa only [State.dataBlocks, hparams] using hltm, hnem⟩
    rw [hs']
    by_cases hmn : L.ino m' = L.ino n
    · rw [hmn] at hbm ⊢
      rw [State.writeAt_inode]
      exact hbm
    · rw [State.writeAt_inode_ne hmn]
      exact hbm
  · rw [hblk, hblk] at he
    exact h.block_inj m' hm' m'' hm'' he
  · have hc' : c < s.dataBlocks := by simpa only [State.dataBlocks, hparams] using hc
    have hfree : s'.freeBlocks = s.freeBlocks := by rw [hs']; rfl
    rw [hfree, hroot]
    simp only [hblk]
    exact h.taken c hc'

end Refines

end Mbroker.Fs
