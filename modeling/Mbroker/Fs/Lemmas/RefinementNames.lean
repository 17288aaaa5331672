import Mbroker.Fs.Lemmas.Refinement

/-!
# Truncated, created and removed files

The changes of the tables in which a file loses its contents, or a name comes or goes.
-/

namespace Mbroker.Fs

open Mbroker.Lib

/-! ## The root's block -/

/-- Writing an entry of the root directory leaves every other block as it is. -/
theorem State.createFile_cell {s : State} {i k b x : Nat} {name : CString} (hi : i < s.maxDirEntries)
    (hb : b ≠ s.rootBlock) (hx : b * s.blockSize ≤ x) (hx' : x < b * s.blockSize + s.blockSize) :
    (s.createFile i k name).fsData.cell x = s.fsData.cell x := by
  have hle := State.dirEntry_lt hi
  have hout := block_disjoint hb.symm hx hx'
  have hp : s.rootPtr = s.rootBlock * s.blockSize := rfl
  have hentry : x < s.rootPtr + 44 * i ∨ s.rootPtr + 44 * i + 44 ≤ x := by omega
  exact (State.writeEntry_cell_of_ne hentry).trans rfl

theorem State.removeFile_cell {s : State} {i k b x : Nat} (hi : i < s.maxDirEntries)
    (hb : b ≠ s.rootBlock) (hx : b * s.blockSize ≤ x) (hx' : x < b * s.blockSize + s.blockSize) :
    (s.removeFile i k).fsData.cell x = s.fsData.cell x := by
  have hle := State.dirEntry_lt hi
  have hout := block_disjoint hb.symm hx hx'
  have hp : s.rootPtr = s.rootBlock * s.blockSize := rfl
  have hentry : x < s.rootPtr + 44 * i ∨ s.rootPtr + 44 * i + 44 ≤ x := by omega
  exact (State.wipeEntry_cell_of_ne hentry).trans rfl

namespace Refines

variable {S : Finset (List UInt8)} {s : State} {L : Layout} {a : FileSystem}

theorem size_zero (h : Refines S s L a) {n : List UInt8} (hn : n ∈ L.names) (hnS : n ∉ S) :
    (s.inodeTable.cell (L.ino n)).iSize = 0 := by
  rw [h.size hn, List.length_eq_zero_iff]
  by_contra hc
  exact hnS (h.stored n hn hc)

/-- A change of the data outside the files' blocks. -/
theorem fileBytes_of_data (h : Refines S s L a) {s' : State} {n : List UInt8} (hn : n ∈ L.names)
    (hp : s'.fsParams = s.fsParams) (hc : s'.inodeTable.cell (L.ino n) = s.inodeTable.cell (L.ino n))
    (hd : ∀ b x, b ≠ s.rootBlock → b * s.blockSize ≤ x → x < b * s.blockSize + s.blockSize →
      s'.fsData.cell x = s.fsData.cell x) : s'.fileBytes (L.ino n) = a.content n := by
  refine (State.fileBytes_congr hp hc fun x hx hx' => ?_).trans (h.content n hn)
  by_cases hnS : n ∈ S
  · have hsz := h.inv.data.size_le _ (h.inv.root.ino_pos n hn) (h.inv.inUse_ino hn)
    exact hd _ x (h.block n hnS).2.2 hx (by omega)
  · have hz := h.size_zero hn hnS
    omega

theorem truncateInode (h : Refines S s L a) {n : List UInt8} (hnS : n ∈ S)
    (hsize : 0 < (s.inodeTable.cell (L.ino n)).iSize) (hh : ¬ a.HasHandle n) :
    Refines (S.erase n) (s.truncateInode (L.ino n)) L (a.setContent n []) := by
  have hn := h.owns hnS
  have hpos := h.inv.root.ino_pos n hn
  obtain ⟨s', hs'⟩ : ∃ s', s' = s.truncateInode (L.ino n) := ⟨_, rfl⟩
  have hinv : FsInv s' L := by rw [hs']; exact h.inv.truncateInode hpos (h.inv.inUse_ino hn) hsize
  have hcell : ∀ m ∈ L.names, m ≠ n → s'.inodeTable.cell (L.ino m) = s.inodeTable.cell (L.ino m) := by
    intro m hm hmn
    rw [hs']
    exact Table.set_cell_ne _ _ fun he => hmn (h.inv.root.ino_inj m hm n hn he)
  have hself : (s'.inodeTable.cell (L.ino n)).iSize = 0 := by
    rw [hs']
    exact congrArg Inode.iSize (Table.set_cell_same _ _ _)
  have hroot : s'.rootBlock = s.rootBlock := by
    rw [hs']
    simp only [State.rootBlock, State.truncateInode, Table.set_cell_ne _ _ hpos.ne]
  have hmem : ∀ m ∈ S.erase n, m ≠ n ∧ m ∈ S := fun m hm => Finset.mem_erase.mp hm
  have hblk : ∀ m ∈ S.erase n, s'.blockOf (L.ino m) = s.blockOf (L.ino m) := by
    intro m hm
    obtain ⟨hmn, hmS⟩ := hmem m hm
    simp only [State.blockOf, hcell m (h.owns hmS) hmn]
  have hparams : s'.fsParams = s.fsParams := by rw [hs']; rfl
  have hdata : s'.fsData = s.fsData := by rw [hs']; rfl
  have hfree : s'.freeBlocks = s.freeBlocks.set (s.blockOf (L.ino n)) .free := by rw [hs']; rfl
  have hfile : s'.openFileTable = s.openFileTable := by rw [hs']; rfl
  have hopen : ∀ j, s'.IsOpen j ↔ s.IsOpen j := by
    intro j
    rw [hs']
    exact Iff.rfl
  rw [← hs']
  refine
    { inv := hinv
      names := h.names
      handle_some := fun j m off hj => ?_
      handle_none := fun j hj => by rw [hopen]; exact h.handle_none j hj
      content := fun m hm => ?_
      owns := fun m hm => h.owns (hmem m hm).2
      stored := fun m hm hc => ?_
      block := fun m hm => ?_
      block_inj := fun m hm m' hm' he => ?_
      taken := fun c hc => ?_ }
  · obtain ⟨ho, hm, hentry, hle⟩ := h.handle_some j m off hj
    have hmn : m ≠ n := fun he => hh ⟨j, off, he ▸ hj⟩
    rw [hopen, hfile, FileSystem.setContent_ne hmn]
    exact ⟨ho, hm, hentry, hle⟩
  · by_cases hmn : m = n
    · subst hmn
      rw [FileSystem.setContent_same, ← List.length_eq_zero_iff, State.length_fileBytes]
      exact hself
    · rw [FileSystem.setContent_ne hmn]
      exact (State.fileBytes_congr hparams (hcell m hm hmn) fun _ _ _ => by rw [hdata]).trans (h.content m hm)
  · by_cases hmn : m = n
    · subst hmn
      exact absurd FileSystem.setContent_same hc
    · rw [FileSystem.setContent_ne hmn] at hc
      exact Finset.mem_erase.mpr ⟨hmn, h.stored m hm hc⟩
  · obtain ⟨hmn, hmS⟩ := hmem m hm
    rw [hblk m hm, hroot, hcell m (h.owns hmS) hmn]
    simpa only [State.dataBlocks, hparams] using h.block m hmS
  · rw [hblk m hm, hblk m' hm'] at he
    exact h.block_inj m (hmem m hm).2 m' (hmem m' hm').2 he
  · have hc' : c < s.dataBlocks := by simpa only [State.dataBlocks, hparams] using hc
    obtain ⟨-, -, hne⟩ := h.block n hnS
    rw [hfree, Table.set_cell, hroot]
    by_cases hcb : c = s.blockOf (L.ino n)
    · rw [if_pos hcb]
      refine ⟨fun hfree => ?_, ?_⟩
      · cases hfree
      rintro (hr | ⟨m, hm, hmc⟩)
      · exact absurd (hcb.symm.trans hr) hne
      · rw [hblk m hm, hcb] at hmc
        exact absurd (h.block_inj m (hmem m hm).2 n hnS hmc) (hmem m hm).1
    · rw [if_neg hcb, h.taken c hc']
      refine or_congr_right ⟨?_, ?_⟩
      · rintro ⟨m, hm, rfl⟩
        have hmn : m ≠ n := by rintro rfl; exact hcb rfl
        have hm' := Finset.mem_erase.mpr ⟨hmn, hm⟩
        exact ⟨m, hm', hblk m hm'⟩
      · rintro ⟨m, hm, hmc⟩
        exact ⟨m, (hmem m hm).2, (hblk m hm).symm.trans hmc⟩

theorem createFile (h : Refines S s L a) {i k : Nat} {name : CString}
    (hk : firstFree s.freeinodeTs s.inodeTableSize = some k)
    (hi : firstIndex (fun i => (s.dirEntry s.rootPtr i).dInumber = -1) s.maxDirEntries = some i)
    (hnew : name.chars ∉ L.names) (hok : NameOk name.chars) :
    Refines S (s.createFile i k name) (L.insert name.chars i k)
      { a.setContent name.chars [] with names := insert name.chars a.names } := by
  obtain ⟨hfree, hklt, -⟩ := firstFree_eq_some.mp hk
  have hpos := h.inv.firstFree_pos hk
  obtain ⟨s', hs'⟩ : ∃ s', s' = s.createFile i k name := ⟨_, rfl⟩
  have hinv : FsInv s' (L.insert name.chars i k) := by rw [hs']; exact h.inv.createFile hk hi hnew hok
  have hold : ∀ n ∈ L.names, n ≠ name.chars := fun n hn he => hnew (he ▸ hn)
  have hne : ∀ n ∈ L.names, L.ino n ≠ k := by
    rintro n hn rfl
    rw [(h.inv.root.taken _ hklt).mpr (Or.inr ⟨n, hn, rfl⟩)] at hfree
    cases hfree
  have hino : ∀ n ∈ L.names, (L.insert name.chars i k).ino n = L.ino n :=
    fun n hn => Layout.insert_ino_ne (hold n hn)
  have hcell : ∀ n ∈ L.names, s'.inodeTable.cell (L.ino n) = s.inodeTable.cell (L.ino n) := by
    intro n hn
    rw [hs']
    exact Table.set_cell_ne _ _ (hne n hn)
  have hblk : ∀ n ∈ S, s'.blockOf (L.ino n) = s.blockOf (L.ino n) := by
    intro n hn
    simp only [State.blockOf, hcell n (h.owns hn)]
  have hroot : s'.rootBlock = s.rootBlock := by
    rw [hs']
    exact congrArg (fun inode : Inode => inode.iDataBlock.toNat) (Table.set_cell_ne s.inodeTable newFile hpos.ne)
  have hparams : s'.fsParams = s.fsParams := by rw [hs']; rfl
  have hfile : s'.openFileTable = s.openFileTable := by rw [hs']; rfl
  have hblocks : s'.freeBlocks = s.freeBlocks := by rw [hs']; rfl
  have hopen : ∀ j, s'.IsOpen j ↔ s.IsOpen j := by
    intro j
    rw [hs']
    exact Iff.rfl
  rw [← hs']
  refine
    { inv := hinv
      names := by simp only [h.names, Layout.insert]
      handle_some := fun j m off hj => ?_
      handle_none := fun j hj => by rw [hopen]; exact h.handle_none j hj
      content := fun m hm => ?_
      owns := fun m hm => Layout.mem_insert.mpr (Or.inr (h.owns hm))
      stored := fun m hm hc => ?_
      block := fun m hm => ?_
      block_inj := fun m hm m' hm' he => ?_
      taken := fun c hc => ?_ }
  · obtain ⟨ho, hm, hentry, hle⟩ := h.handle_some j m off hj
    rw [hopen, hfile, hino m hm]
    refine ⟨ho, Layout.mem_insert.mpr (Or.inr hm), hentry, ?_⟩
    exact hle.trans_eq (congrArg List.length (FileSystem.setContent_ne (hold m hm)).symm)
  · change s'.fileBytes _ = (a.setContent name.chars []).content m
    rcases Layout.mem_insert.mp hm with rfl | hm
    · rw [FileSystem.setContent_same, ← List.length_eq_zero_iff, State.length_fileBytes,
        Layout.insert_ino_same, hs']
      exact congrArg Inode.iSize (Table.set_cell_same s.inodeTable k newFile)
    · rw [FileSystem.setContent_ne (hold m hm), hino m hm]
      refine h.fileBytes_of_data hm hparams (hcell m hm) fun b x hb hx hx' => ?_
      rw [hs']
      exact State.createFile_cell (firstIndex_eq_some.mp hi).2.1 hb hx hx'
  · have hc : (a.setContent name.chars []).content m ≠ [] := hc
    rcases Layout.mem_insert.mp hm with rfl | hm
    · exact absurd FileSystem.setContent_same hc
    · rw [FileSystem.setContent_ne (hold m hm)] at hc
      exact h.stored m hm hc
  · have hmL := h.owns hm
    rw [hino m hmL, hblk m hm, hroot, hcell m hmL]
    simpa only [State.dataBlocks, hparams] using h.block m hm
  · rw [hino m (h.owns hm), hino m' (h.owns hm'), hblk m hm, hblk m' hm'] at he
    exact h.block_inj m hm m' hm' he
  · have hc' : c < s.dataBlocks := by simpa only [State.dataBlocks, hparams] using hc
    rw [hblocks, hroot]
    refine (h.taken c hc').trans (or_congr_right (exists_congr fun m => and_congr_right fun hm => ?_))
    rw [hino m (h.owns hm), hblk m hm]

theorem removeFile (h : Refines a.stored s L a) {n : List UInt8} (hn : n ∈ L.names) (hh : ¬ a.HasHandle n) :
    Refines (a.stored.erase n) (s.removeFile (L.slot n) (L.ino n)) (L.erase n)
      { a with names := a.names.erase n } := by
  have hpos := h.inv.root.ino_pos n hn
  obtain ⟨s', hs'⟩ : ∃ s', s' = s.removeFile (L.slot n) (L.ino n) := ⟨_, rfl⟩
  have hinv : FsInv s' (L.erase n) := by rw [hs']; exact h.inv.removeFile hn
  have hcell : s'.inodeTable = s.inodeTable := by rw [hs']; rfl
  have hblk : ∀ k, s'.blockOf k = s.blockOf k := by
    intro k
    simp only [State.blockOf, hcell]
  have hroot : s'.rootBlock = s.rootBlock := by simp only [State.rootBlock, hcell]
  have hparams : s'.fsParams = s.fsParams := by rw [hs']; rfl
  have hfile : s'.openFileTable = s.openFileTable := by rw [hs']; rfl
  have hblocks : s'.freeBlocks = if 0 < (s.inodeTable.cell (L.ino n)).iSize
      then s.freeBlocks.set (s.blockOf (L.ino n)) .free else s.freeBlocks := by rw [hs']; rfl
  have hopen : ∀ j, s'.IsOpen j ↔ s.IsOpen j := by
    intro j
    rw [hs']
    exact Iff.rfl
  have hmem : ∀ m ∈ a.stored.erase n, m ≠ n ∧ m ∈ a.stored := fun m hm => Finset.mem_erase.mp hm
  rw [← hs']
  refine
    { inv := hinv
      names := by simp only [h.names, Layout.erase]
      handle_some := fun j m off hj => ?_
      handle_none := fun j hj => by rw [hopen]; exact h.handle_none j hj
      content := fun m hm => ?_
      owns := fun m hm => Layout.mem_erase.mpr ⟨(hmem m hm).1, h.owns (hmem m hm).2⟩
      stored := fun m hm hc => ?_
      block := fun m hm => ?_
      block_inj := fun m hm m' hm' he => ?_
      taken := fun c hc => ?_ }
  · obtain ⟨ho, hm, hentry, hle⟩ := h.handle_some j m off hj
    have hmn : m ≠ n := fun he => hh ⟨j, off, he ▸ hj⟩
    rw [hopen, hfile]
    exact ⟨ho, Layout.mem_erase.mpr ⟨hmn, hm⟩, hentry, hle⟩
  · refine h.fileBytes_of_data (Layout.mem_erase.mp hm).2 hparams (by rw [hcell]) fun b x hb hx hx' => ?_
    rw [hs']
    exact State.removeFile_cell (h.inv.root.slot_lt n hn) hb hx hx'
  · obtain ⟨hmn, hm⟩ := Layout.mem_erase.mp hm
    exact Finset.mem_erase.mpr ⟨hmn, h.stored m hm hc⟩
  · rw [hblk, hroot, hcell]
    simpa only [State.dataBlocks, hparams, Layout.erase] using h.block m (hmem m hm).2
  · rw [hblk, hblk] at he
    exact h.block_inj m (hmem m hm).2 m' (hmem m' hm').2 he
  · have hc' : c < s.dataBlocks := by simpa only [State.dataBlocks, hparams] using hc
    rw [hblocks, hroot]
    by_cases hsize : 0 < (s.inodeTable.cell (L.ino n)).iSize
    · have hnS : n ∈ a.stored := by
        refine h.stored n hn fun hnil => ?_
        rw [h.size hn, hnil] at hsize
        exact Nat.lt_irrefl 0 hsize
      rw [if_pos hsize, Table.set_cell]
      by_cases hcb : c = s.blockOf (L.ino n)
      · rw [if_pos hcb]
        refine ⟨fun hfree => ?_, ?_⟩
        · cases hfree
        rintro (hr | ⟨m, hm, hmc⟩)
        · exact absurd (hcb.symm.trans hr) (h.block n hnS).2.2
        · rw [hcb] at hmc
          exact absurd (h.block_inj m (hmem m hm).2 n hnS ((hblk _).symm.trans hmc)) (hmem m hm).1
      · rw [if_neg hcb, h.taken c hc']
        refine or_congr_right ⟨?_, ?_⟩
        · rintro ⟨m, hm, rfl⟩
          have hmn : m ≠ n := by rintro rfl; exact hcb rfl
          exact ⟨m, Finset.mem_erase.mpr ⟨hmn, hm⟩, hblk _⟩
        · rintro ⟨m, hm, hmc⟩
          exact ⟨m, (hmem m hm).2, (hblk _).symm.trans hmc⟩
    · have hnS : n ∉ a.stored := by
        intro hnS
        have hnil := (FileSystem.mem_stored.mp hnS).2
        rw [h.size hn] at hsize
        exact hsize (List.length_pos_of_ne_nil hnil)
      rw [if_neg hsize, Finset.erase_eq_of_notMem hnS]
      refine (h.taken c hc').trans (or_congr_right (exists_congr fun m => and_congr_right fun _ => ?_))
      exact (congrArg (· = c) (hblk _).symm).to_iff

end Refines

end Mbroker.Fs
