import Mathlib.Data.Set.Function
import Mbroker.Fs.Lemmas.Handles

/-!
# The root directory and the inode table

The entries of the root directory that are live, and the inodes in use besides the root's, are in bijection; and
what a write leaves alone.
-/

namespace Mbroker.Fs

open Mbroker.Lib

variable {s s' : State} {L : Layout}

namespace State

/-- The entry `i` of the root directory is live. -/
def Live (s : State) (i : Nat) : Prop := i < s.maxDirEntries ∧ (s.rootEntry i).dInumber ≠ -1

instance (s : State) (i : Nat) : Decidable (s.Live i) := by unfold Live; infer_instance

/-- `k` is the number of an inode in use, other than the root's. -/
def FileInumber (s : State) (k : Int) : Prop :=
  0 < k ∧ k < s.inodeTableSize ∧ s.freeinodeTs.cell k.toNat = .taken

end State

structure DirectoryMatches (s : State) : Prop where
  nameOk : ∀ i, s.Live i → NameOk (s.rootEntry i).name ∧ (s.rootEntry i).dName.IsStr (s.rootEntry i).name
  distinct : Set.InjOn (fun i => (s.rootEntry i).name) {i | s.Live i}
  bijection : Set.BijOn (fun i => (s.rootEntry i).dInumber) {i | s.Live i} {k | s.FileInumber k}
  files : ∀ k, s.FileInumber k → (s.inodeTable.cell k.toNat).iNodeType = .file
  root : 0 < s.inodeTableSize ∧ s.freeinodeTs.cell 0 = .taken ∧ (s.inodeTable.cell 0).iNodeType = .directory

/-- The root directory has the block that it had, with the same bytes. -/
def RootUntouched (s s' : State) : Prop :=
  (s'.inodeTable.cell 0).iDataBlock = (s.inodeTable.cell 0).iDataBlock ∧
    ∀ x, s.rootPtr ≤ x → x < s.rootPtr + s.blockSize → s'.fsData.cell x = s.fsData.cell x

/-! ## Entries and names -/

namespace RootOk

theorem live_iff (h : RootOk s L) {i : Nat} : s.Live i ↔ ∃ n ∈ L.names, L.slot n = i := by
  constructor
  · rintro ⟨hi, hlive⟩
    exact h.live i hi hlive
  · rintro ⟨n, hn, rfl⟩
    refine ⟨h.slot_lt n hn, ?_⟩
    rw [h.entryIno n hn]
    omega

theorem fileInumber_iff (h : RootOk s L) {k : Int} : s.FileInumber k ↔ ∃ n ∈ L.names, (L.ino n : Int) = k := by
  constructor
  · rintro ⟨hpos, hlt, ht⟩
    obtain hz | ⟨n, hn, hk⟩ := (h.taken k.toNat (by omega)).mp ht
    · omega
    · exact ⟨n, hn, by omega⟩
  · rintro ⟨n, hn, rfl⟩
    have hpos := h.ino_pos n hn
    have hlt := h.ino_lt n hn
    exact ⟨by omega, by omega, (h.taken _ hlt).mpr (Or.inr ⟨n, hn, rfl⟩)⟩

theorem directoryMatches (h : RootOk s L) : DirectoryMatches s where
  nameOk i hi := by
    obtain ⟨n, hn, rfl⟩ := h.live_iff.mp hi
    rw [h.rootEntry_name hn]
    exact ⟨h.nameOk n hn, h.entryName n hn⟩
  distinct i hi j hj he := by
    obtain ⟨n, hn, rfl⟩ := h.live_iff.mp hi
    obtain ⟨m, hm, rfl⟩ := h.live_iff.mp hj
    simp only [h.rootEntry_name hn, h.rootEntry_name hm] at he
    rw [he]
  bijection := by
    refine ⟨fun i hi => ?_, fun i hi j hj he => ?_, fun k hk => ?_⟩
    · obtain ⟨n, hn, rfl⟩ := h.live_iff.mp hi
      exact h.fileInumber_iff.mpr ⟨n, hn, (h.entryIno n hn).symm⟩
    · obtain ⟨n, hn, rfl⟩ := h.live_iff.mp hi
      obtain ⟨m, hm, rfl⟩ := h.live_iff.mp hj
      simp only [h.entryIno n hn, h.entryIno m hm] at he
      rw [h.ino_inj n hn m hm (by omega)]
    · obtain ⟨n, hn, rfl⟩ := h.fileInumber_iff.mp hk
      exact ⟨L.slot n, h.live_iff.mpr ⟨n, hn, rfl⟩, h.entryIno n hn⟩
  files k hk := by
    obtain ⟨n, hn, rfl⟩ := h.fileInumber_iff.mp hk
    exact h.inoType n hn
  root := ⟨h.inodes_pos, h.rootTaken, h.rootType⟩

end RootOk

/-! ## Writes -/

/-- Bytes written to another block are not the root directory's. -/
theorem RootUntouched.writeAt {i k b n : Nat} {buffer : Mem} (hk : 0 < k) (hne : b ≠ s.rootBlock)
    (hfit : (s.openFileTable.cell i).ofOffset + n ≤ s.blockSize) : RootUntouched s (s.writeAt i k b buffer n) := by
  refine ⟨congrArg Inode.iDataBlock (Table.set_cell_ne _ _ hk.ne), fun x hx hx' => ?_⟩
  have hout := block_disjoint hne hx hx'
  exact Mem.copy_apply_of_not_mem (by omega)

theorem FsInv.tfsWrite_rootUntouched (h : FsInv s L) {fhandle : Int} {buffer : Mem} {n : Nat} {r : Int}
    (he : tfsWrite s fhandle buffer n = .ok (r, s')) : RootUntouched s s' := by
  obtain ⟨res, he', ho⟩ | ⟨he', -⟩ := h.tfsWrite_outcome fhandle buffer n
  swap
  · rw [he] at he'
    cases he'
  rw [he] at he'
  cases he'
  have hpos : ∀ {i k : Nat}, s.IsOpen i → (s.openFileTable.cell i).ofInumber = k → 0 < k ∧ s.InUse k := by
    intro i k hi hk
    obtain ⟨k', hk', hpos, hlt⟩ := h.data.handleIno i hi
    obtain rfl : k' = k := by omega
    exact ⟨hpos, hlt, Or.inr ⟨i, hi, hk⟩⟩
  cases ho with
  | closed hget => exact ⟨rfl, fun _ _ _ => rfl⟩
  | nothing hi hk hn => exact ⟨rfl, fun _ _ _ => rfl⟩
  | noBlock hi hk hn hsize hb => exact ⟨rfl, fun _ _ _ => rfl⟩
  | @fresh i k b m hi hk hn hm hfit hsize hb =>
      obtain ⟨hkpos, -⟩ := hpos hi hk
      have htake := State.takeBlock_rootBlock (s := s) (b := b) hkpos
      have huntouched : RootUntouched (s.takeBlock k b) ((s.takeBlock k b).writeAt i k b buffer m) :=
        .writeAt hkpos (by rw [htake]; exact h.firstFree_ne_rootBlock hb) hfit
      obtain ⟨hroot, hdata⟩ := huntouched
      rw [State.rootPtr, htake] at hdata
      exact ⟨hroot.trans (congrArg Inode.iDataBlock (Table.set_cell_ne _ _ hkpos.ne)), hdata⟩
  | @inPlace i k b m hi hk hn hm hfit hsize hb hlt =>
      obtain ⟨hkpos, hu⟩ := hpos hi hk
      obtain ⟨b', hb', -, hne⟩ := h.data.block k hkpos hu hsize
      obtain rfl : b' = b := by omega
      exact .writeAt hkpos hne hfit

end Mbroker.Fs
