import Mbroker.Fs.Lemmas.Invariant

/-!
# The invariant when a name comes or goes

A created file adds its name to the layout, `tfs_unlink` takes it out.
-/

namespace Mbroker.Fs

open Mbroker.Lib

namespace Layout

def insert (L : Layout) (n : List UInt8) (i k : Nat) : Layout where
  names := Insert.insert n L.names
  slot := Function.update L.slot n i
  ino := Function.update L.ino n k

def erase (L : Layout) (n : List UInt8) : Layout := { L with names := L.names.erase n }

variable {L : Layout} {n m : List UInt8} {i k : Nat}

@[simp] theorem mem_insert : m ∈ (L.insert n i k).names ↔ m = n ∨ m ∈ L.names := Finset.mem_insert

@[simp] theorem insert_slot_same : (L.insert n i k).slot n = i := Function.update_self _ _ _

@[simp] theorem insert_ino_same : (L.insert n i k).ino n = k := Function.update_self _ _ _

theorem insert_slot_ne (h : m ≠ n) : (L.insert n i k).slot m = L.slot m := Function.update_of_ne h _ _

theorem insert_ino_ne (h : m ≠ n) : (L.insert n i k).ino m = L.ino m := Function.update_of_ne h _ _

/-- What holds of the new file and of those that were there holds of all. -/
theorem forall_insert {P : List UInt8 → Nat → Nat → Prop} (hnew : n ∉ L.names) (h₀ : P n i k)
    (h : ∀ m ∈ L.names, P m (L.slot m) (L.ino m)) :
    ∀ m ∈ (L.insert n i k).names, P m ((L.insert n i k).slot m) ((L.insert n i k).ino m) := by
  intro m hm
  obtain rfl | hm := mem_insert.mp hm
  · rw [insert_slot_same, insert_ino_same]
    exact h₀
  · have hne : m ≠ n := fun he => hnew (he ▸ hm)
    rw [insert_slot_ne hne, insert_ino_ne hne]
    exact h m hm

/-- A new name gets what no other one has. -/
theorem update_inj {f : List UInt8 → Nat} (hnew : n ∉ L.names) (hfree : ∀ m ∈ L.names, f m ≠ i)
    (hinj : ∀ m ∈ L.names, ∀ m' ∈ L.names, f m = f m' → m = m') :
    ∀ m ∈ Insert.insert n L.names, ∀ m' ∈ Insert.insert n L.names,
      Function.update f n i m = Function.update f n i m' → m = m' := by
  have hold : ∀ m ∈ L.names, Function.update f n i m = f m := fun m hm =>
    Function.update_of_ne (fun he : m = n => hnew (he ▸ hm)) _ _
  intro m hm m' hm' he
  obtain rfl | hmem := Finset.mem_insert.mp hm
  · obtain rfl | hmem' := Finset.mem_insert.mp hm'
    · rfl
    · rw [Function.update_self, hold m' hmem'] at he
      exact absurd he.symm (hfree m' hmem')
  · obtain rfl | hmem' := Finset.mem_insert.mp hm'
    · rw [Function.update_self, hold m hmem] at he
      exact absurd he (hfree m hmem)
    · rw [hold m hmem, hold m' hmem'] at he
      exact hinj m hmem m' hmem' he

@[simp] theorem mem_erase : m ∈ (L.erase n).names ↔ m ≠ n ∧ m ∈ L.names := Finset.mem_erase

end Layout

variable {s : State} {L : Layout}

/-! ## A new file -/

namespace State

theorem createFile_rootPtr {i k : Nat} {name : CString} (hk : 0 < k) :
    (s.createFile i k name).rootPtr = s.rootPtr :=
  have hsame : SameDir s (s.createInode k) := ⟨rfl, Table.set_cell_ne _ _ hk.ne, rfl⟩
  hsame.rootPtr

theorem createFile_entry_ne {i j k : Nat} (name : CString) (hk : 0 < k) (h : j ≠ i) :
    ((s.createFile i k name).rootEntry j).dInumber = (s.rootEntry j).dInumber ∧
      ∀ x < maxFileName, ((s.createFile i k name).rootEntry j).dName x = (s.rootEntry j).dName x := by
  simp only [rootEntry, createFile_rootPtr hk]
  refine dirEntry_congr fun x h₁ h₂ => ?_
  have hx : x < s.rootPtr + 44 * i ∨ s.rootPtr + 44 * i + 44 ≤ x := by omega
  exact writeEntry_cell_of_ne hx

theorem createFile_entry {i k : Nat} (name : CString) (hk : 0 < k) (hlt : k < 2 ^ 31)
    (hlen : name.strlen < maxFileName) :
    ((s.createFile i k name).rootEntry i).dInumber = k ∧
      ((s.createFile i k name).rootEntry i).dName.IsStr name.chars := by
  simp only [rootEntry, createFile_rootPtr hk]
  exact ⟨writeEntry_dInumber (by omega) (by omega), writeEntry_dName hlen⟩

theorem removeFile_entry_ne {i j k : Nat} (h : j ≠ i) :
    ((s.removeFile i k).rootEntry j).dInumber = (s.rootEntry j).dInumber ∧
      ∀ x < maxFileName, ((s.removeFile i k).rootEntry j).dName x = (s.rootEntry j).dName x := by
  refine dirEntry_congr fun x h₁ h₂ => ?_
  have hx : x < s.rootPtr + 44 * i ∨ s.rootPtr + 44 * i + 44 ≤ x := by
    have hptr : (s.removeFile i k).rootPtr = s.rootPtr := rfl
    omega
  exact wipeEntry_cell_of_ne hx

theorem removeFile_entry {i k : Nat} :
    ((s.removeFile i k).rootEntry i).dInumber = -1 ∧ ((s.removeFile i k).rootEntry i).dName 0 = 0 :=
  ⟨wipeEntry_dInumber, wipeEntry_dName (by decide)⟩

end State

section Created

variable {i k : Nat} {name : CString}

/-- No file has the free entry or the free inode. -/
theorem RootOk.unassigned (h : RootOk s L) (hk : firstFree s.freeinodeTs s.inodeTableSize = some k)
    (hi : firstIndex (fun i => (s.dirEntry s.rootPtr i).dInumber = -1) s.maxDirEntries = some i) :
    0 < k ∧ (∀ n ∈ L.names, L.slot n ≠ i) ∧ ∀ n ∈ L.names, L.ino n ≠ k := by
  obtain ⟨hfree, hklt, -⟩ := firstFree_eq_some.mp hk
  obtain ⟨hdead, -, -⟩ := firstIndex_eq_some.mp hi
  rw [decide_eq_true_eq] at hdead
  refine ⟨Nat.pos_of_ne_zero ?_, ?_, ?_⟩
  · rintro rfl
    cases hfree.symm.trans h.rootTaken
  · rintro n hn rfl
    have hino := h.entryIno n hn
    rw [State.rootEntry, hdead] at hino
    omega
  · rintro n hn rfl
    cases hfree.symm.trans ((h.taken _ hklt).mpr (Or.inr ⟨n, hn, rfl⟩))

theorem RootOk.createFile_live (h : RootOk s L) (hkpos : 0 < k) (hnew : name.chars ∉ L.names) :
    ∀ j < s.maxDirEntries, ((s.createFile i k name).rootEntry j).dInumber ≠ -1 →
      ∃ n ∈ (L.insert name.chars i k).names, (L.insert name.chars i k).slot n = j := by
  intro j hj hlive
  by_cases hji : j = i
  · exact ⟨name.chars, Layout.mem_insert.mpr (Or.inl rfl), by rw [Layout.insert_slot_same, hji]⟩
  · rw [(State.createFile_entry_ne name hkpos hji).1] at hlive
    obtain ⟨n, hn, rfl⟩ := h.live j hj hlive
    exact ⟨n, Layout.mem_insert.mpr (Or.inr hn), Layout.insert_slot_ne fun he => hnew (he ▸ hn)⟩

theorem RootOk.createFile_used (h : RootOk s L) (hkpos : 0 < k)
    (hino : ((s.createFile i k name).rootEntry i).dInumber = k)
    (hi : firstIndex (fun i => (s.dirEntry s.rootPtr i).dInumber = -1) s.maxDirEntries = some i)
    (hnew : name.chars ∉ L.names) : ∃ u ≤ s.maxDirEntries,
      (∀ n ∈ (L.insert name.chars i k).names, (L.insert name.chars i k).slot n < u) ∧
      ∀ j < u, ((s.createFile i k name).rootEntry j).dInumber = -1 →
        ((s.createFile i k name).rootEntry j).dName 0 = 0 := by
  obtain ⟨-, hilt, hbefore⟩ := firstIndex_eq_some.mp hi
  obtain ⟨u, hu, hslotu, hempty⟩ := h.used
  refine ⟨max u (i + 1), max_le hu hilt, ?_, fun j hj he => ?_⟩
  · exact Layout.forall_insert (P := fun _ slot _ => slot < max u (i + 1)) hnew (by omega)
      fun n hn => lt_of_lt_of_le (hslotu n hn) (le_max_left _ _)
  · have hji : j ≠ i := by
      rintro rfl
      rw [hino] at he
      omega
    obtain ⟨hsame, hname⟩ := State.createFile_entry_ne (s := s) name hkpos hji
    rw [hsame] at he
    rw [hname 0 (by decide)]
    by_cases hju : j < u
    · exact hempty j hju he
    · -- an entry behind the used ones but before `i` would not be free
      have hlive := hbefore j (by omega)
      rw [decide_eq_false_iff_not] at hlive
      exact absurd he hlive

theorem RootOk.createFile_taken (h : RootOk s L) (hnew : name.chars ∉ L.names) :
    ∀ k' < s.inodeTableSize, (s.createFile i k name).freeinodeTs.cell k' = .taken ↔
      k' = 0 ∨ ∃ n ∈ (L.insert name.chars i k).names, (L.insert name.chars i k).ino n = k' := by
  have hold : ∀ n ∈ L.names, n ≠ name.chars := fun n hn he => hnew (he ▸ hn)
  intro k' hk'
  change (s.freeinodeTs.set k .taken).cell k' = .taken ↔ _
  by_cases hkk : k' = k
  · subst hkk
    simp only [Table.set_cell_same, true_iff]
    exact Or.inr ⟨name.chars, Layout.mem_insert.mpr (Or.inl rfl), Layout.insert_ino_same⟩
  · rw [Table.set_cell_ne _ _ hkk, h.taken k' hk']
    refine or_congr_right ⟨?_, ?_⟩
    · rintro ⟨n, hn, hnk⟩
      exact ⟨n, Layout.mem_insert.mpr (Or.inr hn), by rw [Layout.insert_ino_ne (hold n hn), hnk]⟩
    · rintro ⟨n, hn, hnk⟩
      obtain rfl | hn := Layout.mem_insert.mp hn
      · rw [Layout.insert_ino_same] at hnk
        exact absurd hnk.symm hkk
      · rw [Layout.insert_ino_ne (hold n hn)] at hnk
        exact ⟨n, hn, hnk⟩

theorem RootOk.createFile (h : RootOk s L) (hk : firstFree s.freeinodeTs s.inodeTableSize = some k)
    (hi : firstIndex (fun i => (s.dirEntry s.rootPtr i).dInumber = -1) s.maxDirEntries = some i)
    (hnew : name.chars ∉ L.names) (hok : NameOk name.chars) :
    RootOk (s.createFile i k name) (L.insert name.chars i k) := by
  obtain ⟨-, hklt, -⟩ := firstFree_eq_some.mp hk
  obtain ⟨-, hilt, -⟩ := firstIndex_eq_some.mp hi
  obtain ⟨hkpos, hslot, hinoNe⟩ := h.unassigned hk hi
  have hne := fun j => State.createFile_entry_ne (s := s) (i := i) (j := j) name hkpos
  obtain ⟨hino, hstr⟩ := State.createFile_entry (s := s) (i := i) name hkpos
    (lt_trans hklt h.sane.inodes_lt) hok.2.2
  have h0 : (s.createFile i k name).inodeTable.cell 0 = s.inodeTable.cell 0 := Table.set_cell_ne _ _ hkpos.ne
  exact
    { sane := h.sane
      inodes_pos := h.inodes_pos
      rootTaken := (Table.set_cell_ne _ _ hkpos.ne).trans h.rootTaken
      rootType := by rw [h0]; exact h.rootType
      rootSize := by rw [h0]; exact h.rootSize
      rootValid := by rw [h0]; exact h.rootValid
      nameOk := Layout.forall_insert (P := fun n _ _ => NameOk n) hnew hok h.nameOk
      slot_lt := Layout.forall_insert (P := fun _ slot _ => slot < s.maxDirEntries) hnew hilt h.slot_lt
      slot_inj := Layout.update_inj hnew hslot h.slot_inj
      entryName := Layout.forall_insert
        (P := fun n slot _ => ((s.createFile i k name).rootEntry slot).dName.IsStr n) hnew hstr fun n hn =>
          Mem.IsStr.congr (h.entryName n hn) fun x hx =>
            (hne _ (hslot n hn)).2 x (lt_of_le_of_lt hx (h.nameOk n hn).2.2)
      entryIno := Layout.forall_insert
        (P := fun _ slot ino => ((s.createFile i k name).rootEntry slot).dInumber = ino) hnew hino fun n hn =>
          (hne _ (hslot n hn)).1.trans (h.entryIno n hn)
      live := h.createFile_live hkpos hnew
      used := h.createFile_used hkpos hino hi hnew
      ino_pos := Layout.forall_insert (P := fun _ _ ino => 0 < ino) hnew hkpos h.ino_pos
      ino_lt := Layout.forall_insert (P := fun _ _ ino => ino < s.inodeTableSize) hnew hklt h.ino_lt
      ino_inj := Layout.update_inj hnew hinoNe h.ino_inj
      inoType := Layout.forall_insert
        (P := fun _ _ ino => ((s.createFile i k name).inodeTable.cell ino).iNodeType = .file) hnew
        (congrArg Inode.iNodeType (Table.set_cell_same _ _ _)) fun n hn =>
          (congrArg Inode.iNodeType (Table.set_cell_ne _ _ (hinoNe n hn))).trans (h.inoType n hn)
      taken := h.createFile_taken hnew }

end Created

namespace FsInv

theorem inUse_createInode {k k' : Nat} (h : (s.createInode k).InUse k') (hne : k' ≠ k) : s.InUse k' := by
  obtain ⟨hlt, ht | hh⟩ := h
  · exact ⟨hlt, Or.inl ((Table.set_cell_ne s.freeinodeTs _ hne).symm.trans ht)⟩
  · exact ⟨hlt, Or.inr hh⟩

theorem createFile (h : FsInv s L) {i k : Nat} {name : CString}
    (hk : firstFree s.freeinodeTs s.inodeTableSize = some k)
    (hi : firstIndex (fun i => (s.dirEntry s.rootPtr i).dInumber = -1) s.maxDirEntries = some i)
    (hnew : name.chars ∉ L.names) (hok : NameOk name.chars) :
    FsInv (s.createFile i k name) (L.insert name.chars i k) := by
  have hkpos := h.firstFree_pos hk
  refine ⟨h.root.createFile hk hi hnew hok, h.data.of_change rfl rfl (Table.set_cell_ne _ _ hkpos.ne)
    h.data.rootBlockTaken (fun j hj => h.data.handle hj) (fun k' hk' hu => ?_)⟩
  by_cases hkk : k' = k
  · subst hkk
    refine State.inodeOk_of_empty ?_
    exact congrArg Inode.iSize (Table.set_cell_same s.inodeTable k' newFile)
  · have hcell : (s.createFile i k name).inodeTable.cell k' = s.inodeTable.cell k' := Table.set_cell_ne _ _ hkk
    rw [hcell]
    exact h.data.inodeOk hk' (inUse_createInode hu hkk)

end FsInv

/-! ## A file less -/

theorem RootOk.removeFile (h : RootOk s L) {n : List UInt8} (hn : n ∈ L.names) :
    RootOk (s.removeFile (L.slot n) (L.ino n)) (L.erase n) := by
  have hne := fun j => State.removeFile_entry_ne (s := s) (i := L.slot n) (j := j) (k := L.ino n)
  obtain ⟨hino, hempty⟩ := State.removeFile_entry (s := s) (i := L.slot n) (k := L.ino n)
  have hslot : ∀ m ∈ (L.erase n).names, L.slot m ≠ L.slot n := by
    intro m hm he
    obtain ⟨hmn, hm⟩ := Layout.mem_erase.mp hm
    exact hmn (h.slot_inj m hm n hn he)
  have hsub : ∀ m ∈ (L.erase n).names, m ∈ L.names := fun m hm => (Layout.mem_erase.mp hm).2
  refine
    { sane := h.sane
      inodes_pos := h.inodes_pos
      rootTaken := (Table.set_cell_ne _ _ (h.ino_pos n hn).ne).trans h.rootTaken
      rootType := h.rootType
      rootSize := h.rootSize
      rootValid := h.rootValid
      nameOk := fun m hm => h.nameOk m (hsub m hm)
      slot_lt := fun m hm => h.slot_lt m (hsub m hm)
      slot_inj := fun m hm m' hm' => h.slot_inj m (hsub m hm) m' (hsub m' hm')
      entryName := ?_
      entryIno := ?_
      live := ?_
      used := ?_
      ino_pos := fun m hm => h.ino_pos m (hsub m hm)
      ino_lt := fun m hm => h.ino_lt m (hsub m hm)
      ino_inj := fun m hm m' hm' => h.ino_inj m (hsub m hm) m' (hsub m' hm')
      inoType := fun m hm => h.inoType m (hsub m hm)
      taken := ?_ }
  · intro m hm
    refine Mem.IsStr.congr (h.entryName m (hsub m hm)) fun x hx => (hne _ (hslot m hm)).2 x ?_
    exact lt_of_le_of_lt hx (h.nameOk m (hsub m hm)).2.2
  · intro m hm
    exact (hne _ (hslot m hm)).1.trans (h.entryIno m (hsub m hm))
  · intro j hj hlive
    by_cases hjn : j = L.slot n
    · rw [hjn] at hlive
      exact absurd hino hlive
    · rw [(hne j hjn).1] at hlive
      obtain ⟨m, hm, rfl⟩ := h.live j hj hlive
      refine ⟨m, Layout.mem_erase.mpr ⟨?_, hm⟩, rfl⟩
      rintro rfl
      exact hjn rfl
  · obtain ⟨u, hu, hslotu, hdead⟩ := h.used
    refine ⟨u, hu, fun m hm => hslotu m (hsub m hm), fun j hj he => ?_⟩
    by_cases hjn : j = L.slot n
    · rw [hjn]; exact hempty
    · rw [(hne j hjn).1] at he
      rw [(hne j hjn).2 0 (by decide)]
      exact hdead j hj he
  · intro k hk
    change (s.freeinodeTs.set (L.ino n) .free).cell k = .taken ↔ _
    by_cases hkn : k = L.ino n
    · rw [hkn, Table.set_cell_same]
      refine ⟨nofun, ?_⟩
      rintro (h0 | ⟨m, hm, hmk⟩)
      · exact absurd h0 (h.ino_pos n hn).ne'
      · exact absurd (h.ino_inj m (hsub m hm) n hn hmk) (Layout.mem_erase.mp hm).1
    · rw [Table.set_cell_ne _ _ hkn, h.taken k hk]
      refine or_congr_right ⟨?_, ?_⟩
      · rintro ⟨m, hm, rfl⟩
        exact ⟨m, Layout.mem_erase.mpr ⟨fun he => hkn (he ▸ rfl), hm⟩, rfl⟩
      · rintro ⟨m, hm, hmk⟩
        exact ⟨m, hsub m hm, hmk⟩

namespace FsInv

theorem removeFile (h : FsInv s L) {n : List UInt8} (hn : n ∈ L.names) :
    FsInv (s.removeFile (L.slot n) (L.ino n)) (L.erase n) := by
  have hpos := h.root.ino_pos n hn
  refine ⟨h.root.removeFile hn, h.data.of_change rfl rfl rfl ?_ (fun j hj => h.data.handle hj)
    (fun k hk hu => h.data.inodeOk hk ?_)⟩
  · change (if 0 < (s.inodeTable.cell (L.ino n)).iSize then _ else s.freeBlocks).cell s.rootBlock = .taken
    split
    · exact h.freeBlock_rootBlock hpos (h.inUse_ino hn) (by assumption)
    · exact h.data.rootBlockTaken
  · obtain ⟨hlt, ht | hh⟩ := hu
    · refine ⟨hlt, Or.inl ?_⟩
      change (s.freeinodeTs.set (L.ino n) .free).cell k = .taken at ht
      rw [Table.set_cell] at ht
      split at ht
      · cases ht
      · exact ht
    · exact ⟨hlt, Or.inr hh⟩

end FsInv

end Mbroker.Fs
