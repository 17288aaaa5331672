import Mbroker.Fs.Lemmas.Refinement

/-!
# Which file a handle belongs to

Each creation of a name is a new file, and a handle belongs to the file it was opened on. The tables do not
record this: a handle has an inode number, and an inode a block number, and both are given out again. The tags
record it beside the tables, and `Apart` is what keeps a handle away from other files.
-/

namespace Mbroker.Fs

open Mbroker.Lib

/-! ## Tags -/

/-- The file that a name of the directory is, the file that a handle was opened on, and the next new file. -/
structure Tags where
  next : Nat
  file : List UInt8 → Nat
  handle : Nat → Nat

/-- The tags when nothing was created yet. -/
def Tags.start : Tags := ⟨0, fun _ => 0, fun _ => 0⟩

/-- What `tfs_lookup` finds in the root directory. -/
def lookup (s : State) (p : CString) : Int :=
  match tfsLookup s p 0 with
  | .ok inum => inum
  | .error _ => -1

/-- The tags after a call with the result `r` led from `s` to `s'`. -/
def Tags.after (g : Tags) (s : State) (c : Call) (r : Int) (s' : State) : Tags :=
  match c with
  | .open (some p) _ =>
    let g := if lookup s p = -1 ∧ lookup s' p ≠ -1
      then { g with next := g.next + 1, file := Function.update g.file p.tail.chars g.next } else g
    if 0 ≤ r then { g with handle := Function.update g.handle r.toNat (g.file p.tail.chars) } else g
  | _ => g

/-- A call that returns, with the tags beside the tables. -/
def TaggedStep (x : State × Tags) (c : Call) (x' : State × Tags) : Prop :=
  ∃ r, exec x.1 c = .ok (r, x'.1) ∧ x'.2 = x.2.after x.1 c r.value x'.1

theorem TaggedStep.of_exec {s s' : State} {g : Tags} {c : Call} {r : Ret} (h : exec s c = .ok (r, s')) :
    TaggedStep (s, g) c (s', g.after s c r.value s') := ⟨r, h, rfl⟩

/-! ## Isolation -/

/-- The byte `x` of `fs_data` belongs to the contents of the inode `k`. -/
def State.Holds (s : State) (k x : Nat) : Prop :=
  s.blockOf k * s.blockSize ≤ x ∧ x < s.blockOf k * s.blockSize + (s.inodeTable.cell k).iSize

/-- The byte `x` of `fs_data` is one of the `n` that `tfs_read` copies through the handle `i`. -/
def State.Copied (s : State) (i n x : Nat) : Prop :=
  let k := (s.openFileTable.cell i).ofInumber.toNat
  s.blockOf k * s.blockSize + (s.openFileTable.cell i).ofOffset ≤ x ∧
    x < s.blockOf k * s.blockSize + (s.openFileTable.cell i).ofOffset + n

/-- The call leaves every other file of the directory alone: a write keeps its size and its contents, a read
copies none of its bytes. -/
def Isolated (s : State) (g : Tags) : Call → Prop
  | .write fhandle buffer n => ∀ i r s', getOpenFileEntry s fhandle = some i →
      tfsWrite s fhandle buffer n = .ok (r, s') → ∀ (name : CString) (k : Nat),
        findInDir s 0 name = .ok (k : Int) → g.file name.chars ≠ g.handle i →
          findInDir s' 0 name = .ok (k : Int) ∧ (s'.inodeTable.cell k).iSize = (s.inodeTable.cell k).iSize ∧
            s'.fileBytes k = s.fileBytes k
  | .read fhandle len => ∀ i r data s', getOpenFileEntry s fhandle = some i →
      tfsRead s fhandle len = .ok (r, data, s') → ∀ (name : CString) (k : Nat),
        findInDir s 0 name = .ok (k : Int) → g.file name.chars ≠ g.handle i →
          ∀ x, s.Copied i data.length x → ¬ s.Holds k x
  | _ => True

/-! ## The condition -/

/-- A new file would get the inode of an open handle. -/
def ReusesInode (s : State) (p : CString) (mode : Nat) : Prop :=
  validPathname p ∧ tfsLookup s p 0 = .ok (-1) ∧ hasFlag mode tfsOCreat ∧ p.tail.strlen < maxFileName ∧
    firstIndex (fun i => (s.dirEntry s.rootPtr i).dInumber = -1) s.maxDirEntries ≠ none ∧
    ∃ j < s.maxOpenFiles, s.IsOpen j ∧
      firstFree s.freeinodeTs s.inodeTableSize = some (s.openFileTable.cell j).ofInumber.toNat

/-- A file of the directory would get the block of an inode that was freed while a handle on it is open. -/
def ReusesBlock (s : State) (i n : Nat) : Prop :=
  s.freeinodeTs.cell (s.openFileTable.cell i).ofInumber.toNat = .taken ∧
    (s.inodeTable.cell (s.openFileTable.cell i).ofInumber.toNat).iSize = 0 ∧
    0 < writeLen s.blockSize (s.openFileTable.cell i).ofOffset n ∧
    ∃ j < s.maxOpenFiles, s.IsOpen j ∧
      s.freeinodeTs.cell (s.openFileTable.cell j).ofInumber.toNat = .free ∧
      0 < (s.inodeTable.cell (s.openFileTable.cell j).ofInumber.toNat).iSize ∧
      firstFree s.freeBlocks s.dataBlocks = some (s.blockOf (s.openFileTable.cell j).ofInumber.toNat)

instance (s : State) (p : CString) (mode : Nat) : Decidable (ReusesInode s p mode) := by
  unfold ReusesInode; infer_instance

instance (s : State) (i n : Nat) : Decidable (ReusesBlock s i n) := by
  unfold ReusesBlock; infer_instance

/-- The call gives no inode and no block of an open handle to another file, and is no read behind the end. -/
def KeepsApart (s : State) : Call → Prop
  | .open (some p) mode => ¬ ReusesInode s p mode
  | .write fhandle _ n => ∀ i ∈ getOpenFileEntry s fhandle, ¬ ReusesBlock s i n
  | .read fhandle _ => ∀ i ∈ getOpenFileEntry s fhandle,
      (s.openFileTable.cell i).ofOffset ≤ (s.inodeTable.cell (s.openFileTable.cell i).ofInumber.toNat).iSize
  | _ => True

instance (s : State) : DecidablePred (KeepsApart s)
  | .open (some p) mode => inferInstanceAs (Decidable (¬ ReusesInode s p mode))
  | .open none _ => .isTrue trivial
  | .close _ => .isTrue trivial
  | .read fhandle _ => inferInstanceAs (Decidable (∀ i ∈ getOpenFileEntry s fhandle,
      (s.openFileTable.cell i).ofOffset ≤ (s.inodeTable.cell (s.openFileTable.cell i).ofInumber.toNat).iSize))
  | .write fhandle _ n => inferInstanceAs (Decidable (∀ i ∈ getOpenFileEntry s fhandle, ¬ ReusesBlock s i n))
  | .unlink _ => .isTrue trivial

/-! ## The invariant -/

/-- The file `n` has contents, so a block of its own. -/
def State.Stored (s : State) (L : Layout) (n : List UInt8) : Prop :=
  n ∈ L.names ∧ 0 < (s.inodeTable.cell (L.ino n)).iSize

/-- Files with contents have different blocks, also different from those of freed inodes with open handles,
and a handle on a file of the directory belongs to it. -/
structure Apart (s : State) (L : Layout) (g : Tags) : Prop where
  inv : FsInv s L
  taken : ∀ n, s.Stored L n → s.freeBlocks.cell (s.blockOf (L.ino n)) = .taken
  inj : ∀ n m, s.Stored L n → s.Stored L m → s.blockOf (L.ino n) = s.blockOf (L.ino m) → n = m
  stale : ∀ i k : Nat, s.IsOpen i → (s.openFileTable.cell i).ofInumber = k → s.freeinodeTs.cell k = .free →
    0 < (s.inodeTable.cell k).iSize → ∀ n, s.Stored L n → s.blockOf (L.ino n) ≠ s.blockOf k
  handle : ∀ i, s.IsOpen i → ∀ n ∈ L.names, (s.openFileTable.cell i).ofInumber = L.ino n → g.handle i = g.file n

variable {s s' : State} {L : Layout} {g : Tags}

theorem lookup_eq (h : RootOk s L) (p : CString) :
    lookup s p = if validPathname p = true ∧ p.tail.chars ∈ L.names then (L.ino p.tail.chars : Int) else -1 := by
  unfold lookup
  by_cases hp : validPathname p = true
  · simp [tfsLookup_eq h hp, hp]
  · simp [tfsLookup, hp, pure_eq_ok]

namespace Apart

theorem ino_taken (h : Apart s L g) {n : List UInt8} (hn : n ∈ L.names) : s.freeinodeTs.cell (L.ino n) = .taken :=
  (h.inv.root.taken _ (h.inv.root.ino_lt n hn)).mpr (Or.inr ⟨n, hn, rfl⟩)

theorem ino_ne_of_free (h : Apart s L g) {n : List UInt8} (hn : n ∈ L.names) {k : Nat}
    (hk : s.freeinodeTs.cell k = .free) : L.ino n ≠ k := by
  rintro rfl
  rw [h.ino_taken hn] at hk
  cases hk

/-! ## The open file table -/

theorem openAt (h : Apart s L g) {i off : Nat} {n : List UInt8} (hn : n ∈ L.names)
    (hinv : FsInv (s.openAt i (L.ino n) off) L) :
    Apart (s.openAt i (L.ino n) off) L { g with handle := Function.update g.handle i (g.file n) } := by
  refine ⟨hinv, h.taken, h.inj, fun j k ho hk hfree => ?_, fun j ho m hm hk => ?_⟩
  · obtain ⟨hlt, hj⟩ := State.isOpen_openAt.mp ho
    by_cases hji : j = i
    · simp only [State.openAt, hji, Table.set_cell_same] at hk
      obtain rfl : L.ino n = k := by omega
      exact absurd rfl (h.ino_ne_of_free hn hfree)
    · simp only [State.openAt, Table.set_cell_ne _ _ hji] at hk
      exact h.stale j k ⟨hlt, hj.resolve_left hji⟩ hk hfree
  · obtain ⟨hlt, hj⟩ := State.isOpen_openAt.mp ho
    by_cases hji : j = i
    · simp only [State.openAt, hji, Table.set_cell_same] at hk
      obtain rfl : n = m := h.inv.root.ino_inj n hn m hm (by omega)
      simp only [hji, Function.update_self]
    · simp only [State.openAt, Table.set_cell_ne _ _ hji] at hk
      simp only [Function.update_of_ne hji]
      exact h.handle j ⟨hlt, hj.resolve_left hji⟩ m hm hk

theorem addToOpenFileTable (h : Apart s L g) {off : Nat} {n : List UInt8} (hn : n ∈ L.names)
    (hinv : FsInv (addToOpenFileTable s (L.ino n) off).2 L) :
    Apart (addToOpenFileTable s (L.ino n) off).2 L
      (if 0 ≤ (addToOpenFileTable s (L.ino n) off).1
        then { g with handle := Function.update g.handle (addToOpenFileTable s (L.ino n) off).1.toNat (g.file n) }
        else g) := by
  rw [addToOpenFileTable_eq] at hinv ⊢
  cases hi : firstFree s.freeOpenFileEntries s.maxOpenFiles with
  | none => exact h
  | some i =>
      rw [hi] at hinv
      have hpos : (0 : Int) ≤ i := by omega
      simp only [hpos, ↓reduceIte, Int.toNat_natCast]
      exact h.openAt hn hinv

theorem closeAt (h : Apart s L g) (i : Nat) : Apart (s.closeAt i) L g :=
  ⟨h.inv.closeAt i, h.taken, h.inj, fun j k ho => h.stale j k (State.isOpen_closeAt.mp ho).2,
    fun j ho => h.handle j (State.isOpen_closeAt.mp ho).2⟩

theorem seek (h : Apart s L g) {i off : Nat} (hinv : FsInv (s.seek i off) L) : Apart (s.seek i off) L g := by
  refine ⟨hinv, h.taken, h.inj, fun j k ho hk => ?_, fun j ho n hn hk => ?_⟩
  · rw [State.seek_ofInumber] at hk
    exact h.stale j k ho hk
  · rw [State.seek_ofInumber] at hk
    exact h.handle j ho n hn hk

/-! ## Inodes -/

/-- The rule for a change in which no file and no freed inode gets a block. -/
theorem of_change (h : Apart s L g) {L' : Layout} {g' : Tags} (hinv : FsInv s' L')
    (hopen : ∀ i, s'.IsOpen i → s.IsOpen i)
    (hino : ∀ i, (s'.openFileTable.cell i).ofInumber = (s.openFileTable.cell i).ofInumber)
    (hst : ∀ n, s'.Stored L' n → s.Stored L n ∧ L'.ino n = L.ino n ∧
      s'.freeBlocks.cell (s.blockOf (L.ino n)) = .taken)
    (hblk : ∀ k, 0 < (s'.inodeTable.cell k).iSize → s'.blockOf k = s.blockOf k)
    (hstale : ∀ k, s'.freeinodeTs.cell k = .free → 0 < (s'.inodeTable.cell k).iSize →
      s.freeinodeTs.cell k = .free ∧ 0 < (s.inodeTable.cell k).iSize)
    (hhandle : ∀ i, s'.IsOpen i → ∀ n ∈ L'.names, (s.openFileTable.cell i).ofInumber = L'.ino n →
      g'.handle i = g'.file n) : Apart s' L' g' := by
  have hb : ∀ n, s'.Stored L' n → s'.blockOf (L'.ino n) = s.blockOf (L.ino n) := by
    intro n hn
    rw [hblk _ hn.2, (hst n hn).2.1]
  refine ⟨hinv, fun n hn => ?_, fun n m hn hm he => ?_, fun i k ho hk hfree hsize n hn => ?_,
    fun i ho n hn hk => ?_⟩
  · rw [hb n hn]
    exact (hst n hn).2.2
  · rw [hb n hn, hb m hm] at he
    exact h.inj n m (hst n hn).1 (hst m hm).1 he
  · rw [hino] at hk
    obtain ⟨hfree', hsize'⟩ := hstale k hfree hsize
    rw [hb n hn, hblk k hsize]
    exact h.stale i k (hopen i ho) hk hfree' hsize' n (hst n hn).1
  · rw [hino] at hk
    exact hhandle i ho n hn hk

theorem truncateInode (h : Apart s L g) {n : List UInt8} (hn : s.Stored L n) :
    Apart (s.truncateInode (L.ino n)) L g := by
  have hpos := h.inv.root.ino_pos n hn.1
  have hself : ((s.truncateInode (L.ino n)).inodeTable.cell (L.ino n)).iSize = 0 :=
    congrArg Inode.iSize (Table.set_cell_same _ _ _)
  have hcell : ∀ k, k ≠ L.ino n → (s.truncateInode (L.ino n)).inodeTable.cell k = s.inodeTable.cell k :=
    fun k hk => Table.set_cell_ne _ _ hk
  have hne : ∀ k, 0 < ((s.truncateInode (L.ino n)).inodeTable.cell k).iSize → k ≠ L.ino n := by
    rintro k hk rfl
    omega
  refine h.of_change (h.inv.truncateInode hpos (h.inv.inUse_ino hn.1) hn.2) (fun _ ho => ho) (fun _ => rfl)
    (fun m hm => ?_) (fun k hk => ?_) (fun k hfree hk => ?_) h.handle
  · have hmn := hne _ hm.2
    have hm' : s.Stored L m := ⟨hm.1, by rw [← hcell _ hmn]; exact hm.2⟩
    refine ⟨hm', rfl, ?_⟩
    have hb : s.blockOf (L.ino m) ≠ s.blockOf (L.ino n) := fun he => hmn (congrArg L.ino (h.inj m n hm' hn he))
    exact (Table.set_cell_ne _ _ hb).trans (h.taken m hm')
  · simp only [State.blockOf, hcell k (hne k hk)]
  · exact ⟨hfree, by rw [← hcell k (hne k hk)]; exact hk⟩

theorem resetInode (h : Apart s L g) {k : Nat} (hk : firstFree s.freeinodeTs s.inodeTableSize = some k) :
    Apart (s.setInode k newFile) L g := by
  have hself : ((s.setInode k newFile).inodeTable.cell k).iSize = 0 :=
    congrArg Inode.iSize (Table.set_cell_same _ _ _)
  have hcell : ∀ k', k' ≠ k → (s.setInode k newFile).inodeTable.cell k' = s.inodeTable.cell k' :=
    fun k' hk => Table.set_cell_ne _ _ hk
  have hne : ∀ k', 0 < ((s.setInode k newFile).inodeTable.cell k').iSize → k' ≠ k := by
    rintro k' hk' rfl
    omega
  refine h.of_change (h.inv.resetInode hk) (fun _ ho => ho) (fun _ => rfl) (fun m hm => ?_) (fun k' hk' => ?_)
    (fun k' hfree hk' => ?_) h.handle
  · have hm' : s.Stored L m := ⟨hm.1, by rw [← hcell _ (hne _ hm.2)]; exact hm.2⟩
    exact ⟨hm', rfl, h.taken m hm'⟩
  · simp only [State.blockOf, hcell k' (hne k' hk')]
  · exact ⟨hfree, by rw [← hcell k' (hne k' hk')]; exact hk'⟩

theorem createFile (h : Apart s L g) {i k : Nat} {name : CString}
    (hk : firstFree s.freeinodeTs s.inodeTableSize = some k)
    (hi : firstIndex (fun i => (s.dirEntry s.rootPtr i).dInumber = -1) s.maxDirEntries = some i)
    (hnew : name.chars ∉ L.names) (hok : NameOk name.chars)
    (hunused : ∀ j, s.IsOpen j → (s.openFileTable.cell j).ofInumber ≠ k) :
    Apart (s.createFile i k name) (L.insert name.chars i k)
      { g with next := g.next + 1, file := Function.update g.file name.chars g.next } := by
  have hself : ((s.createFile i k name).inodeTable.cell k).iSize = 0 :=
    congrArg Inode.iSize (Table.set_cell_same s.inodeTable k newFile)
  have hcell : ∀ k', k' ≠ k → (s.createFile i k name).inodeTable.cell k' = s.inodeTable.cell k' :=
    fun k' hk => Table.set_cell_ne _ _ hk
  have hne : ∀ k', 0 < ((s.createFile i k name).inodeTable.cell k').iSize → k' ≠ k := by
    rintro k' hk' rfl
    omega
  have hold : ∀ n ∈ L.names, n ≠ name.chars := fun n hn he => hnew (he ▸ hn)
  refine h.of_change (h.inv.createFile hk hi hnew hok) (fun _ ho => ho) (fun _ => rfl) (fun m hm => ?_)
    (fun k' hk' => ?_) (fun k' hfree hk' => ?_) (fun j ho n hn hjn => ?_)
  · have hmk := hne _ hm.2
    rcases Layout.mem_insert.mp hm.1 with rfl | hmL
    · exact absurd Layout.insert_ino_same hmk
    · have hino := Layout.insert_ino_ne (i := i) (k := k) (L := L) (hold m hmL)
      have hm' : s.Stored L m := ⟨hmL, by
        rw [← hino, ← hcell _ hmk]
        exact hm.2⟩
      exact ⟨hm', hino, h.taken m hm'⟩
  · simp only [State.blockOf, hcell k' (hne k' hk')]
  · have hkk := hne k' hk'
    exact ⟨(Table.set_cell_ne s.freeinodeTs _ hkk).symm.trans hfree, by rw [← hcell k' hkk]; exact hk'⟩
  · rcases Layout.mem_insert.mp hn with rfl | hnL
    · rw [Layout.insert_ino_same] at hjn
      exact absurd hjn (hunused j ho)
    · rw [Layout.insert_ino_ne (hold n hnL)] at hjn
      simp only [Function.update_of_ne (hold n hnL)]
      exact h.handle j ho n hnL hjn

theorem removeFile (h : Apart s L g) {n : List UInt8} (hn : n ∈ L.names) :
    Apart (s.removeFile (L.slot n) (L.ino n)) (L.erase n) g := by
  have hsub : ∀ m, (s.removeFile (L.slot n) (L.ino n)).Stored (L.erase n) m → m ≠ n ∧ s.Stored L m :=
    fun m hm => ⟨(Layout.mem_erase.mp hm.1).1, (Layout.mem_erase.mp hm.1).2, hm.2⟩
  refine ⟨h.inv.removeFile hn, fun m hm => ?_, fun m m' hm hm' he => ?_, fun i k ho hk hfree hsize m hm => ?_,
    fun i ho m hm hk => h.handle i ho m (Layout.mem_erase.mp hm).2 hk⟩
  · obtain ⟨hmn, hmS⟩ := hsub m hm
    change (if 0 < (s.inodeTable.cell (L.ino n)).iSize then s.freeBlocks.set (s.blockOf (L.ino n)) .free
      else s.freeBlocks).cell (s.blockOf (L.ino m)) = .taken
    split
    · rename_i hsize
      have hb : s.blockOf (L.ino m) ≠ s.blockOf (L.ino n) := fun he => hmn (h.inj m n hmS ⟨hn, hsize⟩ he)
      rw [Table.set_cell_ne _ _ hb]
      exact h.taken m hmS
    · exact h.taken m hmS
  · exact h.inj m m' (hsub m hm).2 (hsub m' hm').2 he
  · obtain ⟨hmn, hmS⟩ := hsub m hm
    by_cases hkn : k = L.ino n
    · -- the inode of the removed file keeps its block number
      subst hkn
      exact fun he => hmn (h.inj m n hmS ⟨hn, hsize⟩ he)
    · exact h.stale i k ho hk ((Table.set_cell_ne s.freeinodeTs _ hkn).symm.trans hfree) hsize m hmS

/-! ## Blocks -/

theorem writeAt (h : Apart s L g) {i k b n : Nat} {buffer : Mem} (hinv : FsInv (s.writeAt i k b buffer n) L)
    (hsize : 0 < (s.inodeTable.cell k).iSize) : Apart (s.writeAt i k b buffer n) L g := by
  have hold : ∀ k', 0 < ((s.writeAt i k b buffer n).inodeTable.cell k').iSize →
      0 < (s.inodeTable.cell k').iSize := by
    intro k' hk'
    by_cases hkk : k' = k
    · rwa [hkk]
    · rwa [State.writeAt_inode_ne hkk] at hk'
  refine h.of_change hinv (fun _ ho => ho) (fun _ => State.writeAt_ofInumber) (fun m hm => ?_)
    (fun k' _ => State.writeAt_blockOf) (fun k' hfree hk' => ⟨hfree, hold k' hk'⟩) h.handle
  have hm' : s.Stored L m := ⟨hm.1, hold _ hm.2⟩
  exact ⟨hm', rfl, h.taken m hm'⟩

/-- The first write to an empty inode takes a free block: a file must not get that of a freed inode with an
open handle. -/
theorem writeFresh (h : Apart s L g) {i k b n : Nat} {buffer : Mem}
    (hinv : FsInv ((s.takeBlock k b).writeAt i k b buffer n) L)
    (hb : firstFree s.freeBlocks s.dataBlocks = some b)
    (hreuse : s.freeinodeTs.cell k = .taken → ∀ j k' : Nat, s.IsOpen j → (s.openFileTable.cell j).ofInumber = k' →
      s.freeinodeTs.cell k' = .free → 0 < (s.inodeTable.cell k').iSize → s.blockOf k' ≠ b) :
    Apart ((s.takeBlock k b).writeAt i k b buffer n) L g := by
  obtain ⟨s', hs'⟩ : ∃ s', s' = (s.takeBlock k b).writeAt i k b buffer n := ⟨_, rfl⟩
  rw [← hs'] at hinv ⊢
  have hfree := (firstFree_eq_some.mp hb).1
  have hself : s'.blockOf k = b := by rw [hs', State.writeAt_blockOf, State.takeBlock_blockOf]
  have hcell : ∀ k', k' ≠ k → s'.inodeTable.cell k' = s.inodeTable.cell k' := by
    intro k' hkk
    rw [hs', State.writeAt_inode_ne hkk, State.takeBlock_inode_ne hkk]
  have hblk : ∀ k', k' ≠ k → s'.blockOf k' = s.blockOf k' := by
    intro k' hkk
    simp only [State.blockOf, hcell k' hkk]
  have hblocks : s'.freeBlocks = s.freeBlocks.set b .taken := by rw [hs']; rfl
  have hfreeIno : s'.freeinodeTs = s.freeinodeTs := by rw [hs']; rfl
  have hino : ∀ j, (s'.openFileTable.cell j).ofInumber = (s.openFileTable.cell j).ofInumber := by
    intro j
    rw [hs']
    exact State.writeAt_ofInumber
  have hopen : ∀ j, s'.IsOpen j ↔ s.IsOpen j := by
    intro j
    rw [hs']
    exact Iff.rfl
  -- the files that had a block before keep it, and it is not the new one
  have hst : ∀ m, s'.Stored L m → L.ino m ≠ k → s.Stored L m := by
    intro m hm hmk
    exact ⟨hm.1, by rw [← hcell _ hmk]; exact hm.2⟩
  have hnew : ∀ m, s.Stored L m → s.blockOf (L.ino m) ≠ b := by
    rintro m hm rfl
    rw [h.taken m hm] at hfree
    cases hfree
  refine ⟨hinv, fun m hm => ?_, fun m m' hm hm' he => ?_, fun j k' hoj hjk hfreek hsize m hm => ?_,
    fun j hoj m hm hjm => ?_⟩
  · rw [hblocks]
    by_cases hmk : L.ino m = k
    · rw [hmk, hself]
      exact Table.set_cell_same _ _ _
    · have hmS := hst m hm hmk
      rw [hblk _ hmk, Table.set_cell_ne _ _ (hnew m hmS)]
      exact h.taken m hmS
  · by_cases hmk : L.ino m = k <;> by_cases hmk' : L.ino m' = k
    · exact h.inv.root.ino_inj m hm.1 m' hm'.1 (hmk.trans hmk'.symm)
    · rw [hmk, hself, hblk _ hmk'] at he
      exact absurd he.symm (hnew m' (hst m' hm' hmk'))
    · rw [hmk', hself, hblk _ hmk] at he
      exact absurd he (hnew m (hst m hm hmk))
    · rw [hblk _ hmk, hblk _ hmk'] at he
      exact h.inj m m' (hst m hm hmk) (hst m' hm' hmk') he
  · rw [hopen] at hoj
    rw [hino] at hjk
    rw [hfreeIno] at hfreek
    have hmk' := h.ino_ne_of_free hm.1 hfreek
    by_cases hmk : L.ino m = k
    · have hkk : k' ≠ k := fun he => hmk' (hmk.trans he.symm)
      rw [hmk, hself, hblk _ hkk]
      rw [hcell _ hkk] at hsize
      have hlive : s.freeinodeTs.cell k = .taken := by rw [← hmk]; exact h.ino_taken hm.1
      exact (hreuse hlive j k' hoj hjk hfreek hsize).symm
    · have hmS := hst m hm hmk
      rw [hblk _ hmk]
      by_cases hkk : k' = k
      · rw [hkk, hself]
        exact hnew m hmS
      · rw [hblk _ hkk]
        rw [hcell _ hkk] at hsize
        exact h.stale j k' hoj hjk hfreek hsize m hmS
  · rw [hopen] at hoj
    rw [hino] at hjm
    exact h.handle j hoj m hm hjm

/-! ## Calls -/

theorem after_of_listed (h : RootOk s L) {p : CString} (hp : validPathname p = true) (hn : p.tail.chars ∈ L.names)
    (g : Tags) (mode : Nat) (r : Int) (s' : State) :
    g.after s (.open (some p) mode) r s' =
      if 0 ≤ r then { g with handle := Function.update g.handle r.toNat (g.file p.tail.chars) } else g := by
  have hl : lookup s p ≠ -1 := by
    rw [lookup_eq h, if_pos ⟨hp, hn⟩]
    omega
  simp only [Tags.after, hl, false_and, ↓reduceIte]

theorem after_of_created (h : RootOk s L) {L' : Layout} (h' : RootOk s' L') {p : CString}
    (hp : validPathname p = true) (hn : p.tail.chars ∉ L.names) (hn' : p.tail.chars ∈ L'.names)
    (g : Tags) (mode : Nat) (r : Int) :
    g.after s (.open (some p) mode) r s' =
      if 0 ≤ r
        then { g with
          next := g.next + 1
          file := Function.update g.file p.tail.chars g.next
          handle := Function.update g.handle r.toNat (Function.update g.file p.tail.chars g.next p.tail.chars) }
        else { g with next := g.next + 1, file := Function.update g.file p.tail.chars g.next } := by
  have hl : lookup s p = -1 := by rw [lookup_eq h, if_neg fun hand => hn hand.2]
  have hl' : lookup s' p ≠ -1 := by
    rw [lookup_eq h', if_pos ⟨hp, hn'⟩]
    omega
  simp only [Tags.after, hl, hl', ne_eq, not_false_eq_true, and_self, ↓reduceIte]

/-- A failed call that leaves the directory as it is leaves the tags as they are. -/
theorem after_of_failed (h : RootOk s L) (h' : RootOk s' L) (g : Tags) (p : CString) (mode : Nat) :
    g.after s (.open (some p) mode) (-1) s' = g := by
  have hl : lookup s' p = lookup s p := by rw [lookup_eq h, lookup_eq h']
  have hneg : ¬ (0 : Int) ≤ -1 := by omega
  simp only [Tags.after, hl, ne_eq, and_not_self, ↓reduceIte, hneg]

theorem of_open (h : Apart s L g) {name : Option CString} {mode : Nat} {r : Int}
    (hg : KeepsApart s (.open name mode)) (ho : OpenOutcome s L mode name (r, s')) :
    ∃ L', Apart s' L' (g.after s (.open name mode) r s') := by
  obtain ⟨res, hres⟩ : ∃ res, res = (r, s') := ⟨_, rfl⟩
  rw [← hres] at ho
  cases ho with
  | null =>
      cases hres
      exact ⟨L, h⟩
  | invalid hp =>
      cases hres
      rw [after_of_failed h.inv.root h.inv.root]
      exact ⟨L, h⟩
  | absent hp hn hc =>
      cases hres
      rw [after_of_failed h.inv.root h.inv.root]
      exact ⟨L, h⟩
  | noInode hp hn hc hk =>
      cases hres
      rw [after_of_failed h.inv.root h.inv.root]
      exact ⟨L, h⟩
  | noEntry hp hn hc hk hfull =>
      cases hres
      rw [after_of_failed h.inv.root (h.inv.resetInode hk).root]
      exact ⟨L, h.resetInode hk⟩
  | existing hp hn ht =>
      rename_i p
      rw [after_of_listed h.inv.root hp hn]
      have hbs := h.inv.root.sane.blockSize_lt'
      have hsize := h.inv.data.size_le _ (h.inv.root.ino_pos _ hn) (h.inv.inUse_ino hn)
      have hadd := h.addToOpenFileTable hn (h.inv.addToOpenFileTable (h.inv.root.ino_pos _ hn) (h.inv.inUse_ino hn)
        (show (if hasFlag mode tfsOAppend then (s.inodeTable.cell (L.ino p.tail.chars)).iSize else 0) < 2 ^ 64 by
          split <;> omega))
      rw [hres] at hadd
      exact ⟨L, hadd⟩
  | truncated hp hn hf hsize =>
      rw [after_of_listed h.inv.root hp hn]
      have htr := h.truncateInode ⟨hn, hsize⟩
      have hadd := htr.addToOpenFileTable hn
        (htr.inv.addToOpenFileTable (h.inv.root.ino_pos _ hn) (htr.inv.inUse_ino hn) (show 0 < 2 ^ 64 by norm_num))
      rw [hres] at hadd
      exact ⟨L, hadd⟩
  | created hp hn hc hk hlen hi =>
      rename_i p k i
      have hok : NameOk p.tail.chars := ⟨p.tail.noNul, tail_ne_nil hp, hlen⟩
      have hunused : ∀ j, s.IsOpen j → (s.openFileTable.cell j).ofInumber ≠ k := by
        intro j hj hjk
        refine hg ⟨hp, ?_, hc, hlen, by rw [hi]; exact Option.some_ne_none _, j, hj.1, hj,
          by rw [hk, hjk, Int.toNat_natCast]⟩
        rw [tfsLookup_eq h.inv.root hp, if_neg hn]
      have hcr := h.createFile hk hi hn hok hunused
      have hmem : p.tail.chars ∈ (L.insert p.tail.chars i k).names := Layout.mem_insert.mpr (Or.inl rfl)
      have hinv := hcr.inv.addToOpenFileTable (hcr.inv.root.ino_pos _ hmem) (hcr.inv.inUse_ino hmem)
        (show 0 < 2 ^ 64 by norm_num)
      have hadd := hcr.addToOpenFileTable hmem hinv
      rw [Layout.insert_ino_same] at hadd hinv
      rw [hres] at hadd hinv
      rw [after_of_created h.inv.root hinv.root hp hn hmem]
      exact ⟨_, hadd⟩

theorem of_write (h : Apart s L g) {fh : Int} {buffer : Mem} {n : Nat} {res : Int × State}
    (hg : KeepsApart s (.write fh buffer n)) (ho : WriteOutcome s buffer n fh res) : Apart res.2 L g := by
  have hinv := h.inv.of_write ho
  cases ho with
  | closed hget => exact h
  | nothing hi hk hn => exact h
  | noBlock hi hk hn hsize hb => exact h
  | fresh hi hk hn hpos hfit hsize hb =>
      rename_i i k b m
      refine h.writeFresh hinv hb fun hlive j k' hoj hjk hfree hsz hblk => ?_
      refine hg i (getOpenFileEntry_natCast hi) ?_
      rw [ReusesBlock, hk, Int.toNat_natCast]
      refine ⟨hlive, hsize, by rw [← hn]; exact hpos, j, hoj.1, hoj, ?_⟩
      rw [hjk, Int.toNat_natCast]
      exact ⟨hfree, hsz, by rw [hb, hblk]⟩
  | inPlace hi hk hn hpos hfit hsize hb hlt => exact h.writeAt hinv hsize

theorem step (h : Apart s L g) {c : Call} {g' : Tags} (hg : KeepsApart s c) (hs : TaggedStep (s, g) c (s', g')) :
    ∃ L', Apart s' L' g' := by
  obtain ⟨r, hr, hg'⟩ := hs
  dsimp only at hr hg'
  subst hg'
  cases h.inv.exec_outcome hr with
  | «open» ho => exact h.of_open hg ho
  | notOpen hget => exact ⟨L, h⟩
  | close hget => exact ⟨L, h.closeAt _⟩
  | read ho =>
      have hinv := h.inv.of_read ho
      cases ho with
      | closed hget => exact ⟨L, h⟩
      | nothing hi hk hn => exact ⟨L, h⟩
      | data hi hk hn hpos hb hlt hle => exact ⟨L, h.seek hinv⟩
  | write ho => exact ⟨L, h.of_write hg ho⟩
  | unlink ho =>
      cases ho with
      | null => exact ⟨L, h⟩
      | invalid hp => exact ⟨L, h⟩
      | absent hp hn => exact ⟨L, h⟩
      | removed hp hn => exact ⟨_, h.removeFile hn⟩

theorem steps {cs : List Call} {x x' : State × Tags}
    (hrun : Steps (Guarded (fun x c => KeepsApart x.1 c) TaggedStep) x cs x') (h : ∃ L, Apart x.1 L x.2) :
    ∃ L, Apart x'.1 L x'.2 :=
  hrun.invariant (I := fun x => ∃ L, Apart x.1 L x.2) (fun _ _ _ ⟨_, hI⟩ ⟨hg, hs⟩ => hI.step hg hs) h

/-! ## Isolation from the invariant -/

/-- A file of the directory, as `find_in_dir` finds it. -/
theorem of_findInDir (h : RootOk s L) {name : CString} {k : Nat} (hf : findInDir s 0 name = .ok (k : Int)) :
    name.chars ∈ L.names ∧ L.ino name.chars = k := by
  rw [h.findInDir_eq] at hf
  split at hf
  · rename_i hn
    refine ⟨hn, ?_⟩
    have := Except.ok.inj hf
    omega
  · have := Except.ok.inj hf
    omega

theorem ofInumber_ne (h : Apart s L g) {i : Nat} (ho : s.IsOpen i) {n : List UInt8} (hn : n ∈ L.names)
    (hne : g.file n ≠ g.handle i) : (s.openFileTable.cell i).ofInumber ≠ L.ino n :=
  fun he => hne (h.handle i ho n hn he).symm

/-- The inode of a handle, with contents, has another block than every file with another inode. -/
theorem blockOf_ne (h : Apart s L g) {i k : Nat} (ho : s.IsOpen i) (hk : (s.openFileTable.cell i).ofInumber = k)
    (hsize : 0 < (s.inodeTable.cell k).iSize) {n : List UInt8} (hn : s.Stored L n) (hne : L.ino n ≠ k) :
    s.blockOf (L.ino n) ≠ s.blockOf k := by
  obtain ⟨k', hk', hkpos, hklt⟩ := h.inv.data.handleIno i ho
  obtain rfl : k' = k := by omega
  cases hfree : s.freeinodeTs.cell k' with
  | free => exact h.stale i k' ho hk hfree hsize n hn
  | taken =>
      rcases (h.inv.root.taken k' hklt).mp hfree with h0 | ⟨m, hm, rfl⟩
      · omega
      · intro he
        have hnm := h.inj n m hn ⟨hm, hsize⟩ he
        exact hne (congrArg L.ino hnm)

theorem isolated_write (h : Apart s L g) (fh : Int) (buffer : Mem) (m : Nat) :
    Isolated s g (.write fh buffer m) := by
  intro i r s' hget he name k hf hne
  obtain ⟨rfl, ho⟩ := getOpenFileEntry_eq_some.mp hget
  obtain ⟨hn, rfl⟩ := of_findInDir h.inv.root hf
  have hino := h.ofInumber_ne ho hn hne
  rcases h.inv.tfsWrite_outcome i buffer m with ⟨res, he', hw⟩ | ⟨he', -⟩
  swap
  · rw [he'] at he
    cases he
  rw [he'] at he
  cases he
  have hinv := h.inv.of_write hw
  have hdir : findInDir s' 0 name = .ok (L.ino name.chars : Int) := by rw [hinv.root.findInDir_eq, if_pos hn]
  cases hw with
  | closed _ => exact ⟨hf, rfl, rfl⟩
  | nothing _ _ _ => exact ⟨hf, rfl, rfl⟩
  | noBlock _ _ _ _ _ => exact ⟨hf, rfl, rfl⟩
  | fresh hi hk hm hpos hfit hsize hb =>
      rename_i k b m'
      have hne' : L.ino name.chars ≠ k := by omega
      have hcell : (s.takeBlock k b).inodeTable.cell (L.ino name.chars) = s.inodeTable.cell (L.ino name.chars) :=
        State.takeBlock_inode_ne hne'
      have htake := h.inv.takeBlock (h.inv.data.handleIno i hi |>.elim fun k' hk' => by omega) hsize hb
      have hother : 0 < ((s.takeBlock k b).inodeTable.cell (L.ino name.chars)).iSize →
          (s.takeBlock k b).blockOf (L.ino name.chars) ≠ b := by
        rw [hcell, State.takeBlock_blockOf_ne hne']
        rintro hpos' rfl
        have hfree := (firstFree_eq_some.mp hb).1
        rw [h.taken _ ⟨hn, hpos'⟩] at hfree
        cases hfree
      have hbytes : (s.takeBlock k b).fileBytes (L.ino name.chars) = s.fileBytes (L.ino name.chars) :=
        State.fileBytes_congr (by rfl) hcell fun _ _ _ => rfl
      exact ⟨hdir, by rw [State.writeAt_inode_ne hne', hcell],
        (htake.fileBytes_writeAt buffer hn hne' hother hfit).trans hbytes⟩
  | inPlace hi hk hm hpos hfit hsize hb hlt =>
      rename_i k b m'
      have hne' : L.ino name.chars ≠ k := by omega
      have hblk : s.blockOf k = b := by simp only [State.blockOf, hb, Int.toNat_natCast]
      have hother : 0 < (s.inodeTable.cell (L.ino name.chars)).iSize → s.blockOf (L.ino name.chars) ≠ b := by
        intro hpos'
        rw [← hblk]
        exact h.blockOf_ne hi hk hsize ⟨hn, hpos'⟩ hne'
      exact ⟨hdir, by rw [State.writeAt_inode_ne hne'], h.inv.fileBytes_writeAt buffer hn hne' hother hfit⟩

theorem isolated_read (h : Apart s L g) (fh : Int) (len : Nat) (hg : KeepsApart s (.read fh len)) :
    Isolated s g (.read fh len) := by
  intro i r data s' hget he name k hf hne x hx hx'
  have hoff := hg i hget
  obtain ⟨rfl, ho⟩ := getOpenFileEntry_eq_some.mp hget
  obtain ⟨hn, rfl⟩ := of_findInDir h.inv.root hf
  have hino := h.ofInumber_ne ho hn hne
  have hread := h.inv.tfsRead_outcome he
  unfold State.Copied at hx
  unfold State.Holds at hx'
  cases hread with
  | closed _ =>
      simp only [List.length_nil] at hx
      omega
  | nothing _ _ _ =>
      simp only [List.length_nil] at hx
      omega
  | data hi hk hm hpos hb hlt hle =>
      rename_i k b n
      obtain ⟨k', hk', hkpos, hklt⟩ := h.inv.data.handleIno i hi
      obtain rfl : k' = k := by omega
      rw [Mem.length_bytes, hk, Int.toNat_natCast] at hx
      rw [hk, Int.toNat_natCast] at hoff
      have hsz := h.inv.data.size_le k' hkpos ⟨hklt, Or.inr ⟨i, hi, hk⟩⟩
      have hszn := h.inv.data.size_le _ (h.inv.root.ino_pos _ hn) (h.inv.inUse_ino hn)
      have hbs := h.inv.root.sane.blockSize_lt'
      rw [readLen_of_le hoff (by omega)] at hm
      -- what is copied lies in the block of the handle's inode, and that is not the file's
      have hother := h.blockOf_ne hi hk (by omega) ⟨hn, by omega⟩ (by omega)
      have := block_disjoint hother.symm hx'.1 (by omega)
      omega

theorem isolated (h : Apart s L g) {c : Call} (hg : KeepsApart s c) : Isolated s g c := by
  cases c with
  | «open» name mode => trivial
  | close fhandle => trivial
  | read fhandle len => exact h.isolated_read fhandle len hg
  | write fhandle buffer n => exact h.isolated_write fhandle buffer n
  | unlink target => trivial

end Apart

theorem Initialised.apart {params : TfsParams} (h : Initialised s params) (g : Tags) : Apart s Layout.empty g :=
  ⟨h.inv, fun n hn => absurd hn.1 (by simp [Layout.empty]), fun n _ hn => absurd hn.1 (by simp [Layout.empty]),
    fun i _ ho => absurd ho (h.noHandle i), fun i ho => absurd ho (h.noHandle i)⟩

end Mbroker.Fs
