import Mbroker.Fs.Layout

/-!
# The directory functions

What `find_in_dir`, `add_dir_entry` and `clear_dir_entry` do on a root directory that matches a layout, and
that the layout only depends on the bytes of the root directory's block.
-/

namespace Mbroker.Fs

open Mbroker.Lib

theorem Mem.IsStr.congr {m m' : Mem} {l : List UInt8} (h : m.IsStr l) (he : ∀ i ≤ l.length, m' i = m i) :
    m'.IsStr l := fun i hi => (he i hi).trans (h i hi)

/-! ## Entries and the bytes of the block -/

theorem sizeofDirEntry_eq : sizeofDirEntry = 44 := rfl

/-- An entry depends only on its 44 bytes. -/
theorem State.dirEntry_congr {s s' : State} {p i : Nat}
    (h : ∀ x, p + 44 * i ≤ x → x < p + 44 * i + 44 → s'.fsData.cell x = s.fsData.cell x) :
    (s'.dirEntry p i).dInumber = (s.dirEntry p i).dInumber ∧
      ∀ x < maxFileName, (s'.dirEntry p i).dName x = (s.dirEntry p i).dName x := by
  simp only [State.dirEntry, sizeofDirEntry_eq, maxFileName]
  constructor
  · exact readInt32_congr fun x hx => h _ (by omega) (by omega)
  · intro x hx
    exact h _ (by omega) (by omega)

/-- The state after `add_dir_entry` filled the entry `i`. -/
def State.writeEntry (s : State) (p i : Nat) (name : CString) (inumber : Int) : State :=
  ((s.setDInumber p i inumber).setDName p i name.mem (maxFileName - 1)).poke
    (p + sizeofDirEntry * i + (maxFileName - 1)) (fun _ => 0) 1

/-- The state after `clear_dir_entry` cleared the entry `i`. -/
def State.wipeEntry (s : State) (p i : Nat) : State :=
  (s.setDInumber p i (-1)).setDName p i (fun _ => 0) maxFileName

theorem State.writeEntry_cell_of_ne {s : State} {p i x : Nat} {name : CString} {v : Int}
    (h : x < p + 44 * i ∨ p + 44 * i + 44 ≤ x) : (s.writeEntry p i name v).fsData.cell x = s.fsData.cell x := by
  simp only [State.writeEntry, State.setDName, State.setDInumber, State.poke, sizeofDirEntry_eq, maxFileName]
  rw [Mem.copy_apply_of_not_mem (by omega), Mem.copy_apply_of_not_mem (by omega),
    Mem.copy_apply_of_not_mem (by omega)]

theorem State.wipeEntry_cell_of_ne {s : State} {p i x : Nat}
    (h : x < p + 44 * i ∨ p + 44 * i + 44 ≤ x) : (s.wipeEntry p i).fsData.cell x = s.fsData.cell x := by
  simp only [State.wipeEntry, State.setDName, State.setDInumber, State.poke, sizeofDirEntry_eq, maxFileName]
  rw [Mem.copy_apply_of_not_mem (by omega), Mem.copy_apply_of_not_mem (by omega)]

theorem State.writeEntry_dInumber {s : State} {p i : Nat} {name : CString} {v : Int} (h : -2 ^ 31 ≤ v)
    (h' : v < 2 ^ 31) : ((s.writeEntry p i name v).dirEntry p i).dInumber = v := by
  have hcell : ∀ x < 4, Mem.ptr (s.writeEntry p i name v).fsData.cell
      (p + sizeofDirEntry * i + maxFileName) x = int32Mem v x := by
    intro x hx
    simp only [State.writeEntry, State.setDName, State.setDInumber, State.poke, sizeofDirEntry_eq,
      maxFileName, Mem.ptr_apply]
    rw [Mem.copy_apply_of_not_mem (by omega), Mem.copy_apply_of_not_mem (by omega),
      Mem.copy_apply_of_mem (by omega) (by omega), Nat.add_sub_cancel_left]
  rw [State.dirEntry, readInt32_congr hcell, readInt32_int32Mem h h']

theorem State.wipeEntry_dInumber {s : State} {p i : Nat} :
    ((s.wipeEntry p i).dirEntry p i).dInumber = -1 := by
  have hcell : ∀ x < 4, Mem.ptr (s.wipeEntry p i).fsData.cell
      (p + sizeofDirEntry * i + maxFileName) x = int32Mem (-1) x := by
    intro x hx
    simp only [State.wipeEntry, State.setDName, State.setDInumber, State.poke, sizeofDirEntry_eq,
      maxFileName, Mem.ptr_apply]
    rw [Mem.copy_apply_of_not_mem (by omega), Mem.copy_apply_of_mem (by omega) (by omega),
      Nat.add_sub_cancel_left]
  rw [State.dirEntry, readInt32_congr hcell, readInt32_int32Mem (by omega) (by omega)]

theorem State.writeEntry_dName {s : State} {p i : Nat} {name : CString} {v : Int}
    (h : name.strlen < maxFileName) : ((s.writeEntry p i name v).dirEntry p i).dName.IsStr name.chars := by
  intro x hx
  have hx : x < 40 := lt_of_le_of_lt hx h
  simp only [State.dirEntry, State.writeEntry, State.setDName, State.setDInumber, State.poke,
    sizeofDirEntry_eq, maxFileName, Mem.ptr_apply]
  by_cases hlast : x = 39
  · -- the last byte is written by the forced termination
    rw [Mem.copy_apply_of_mem (by omega) (by omega), List.getD_eq_getElem?_getD, List.getElem?_eq_none]
    · rfl
    · simp only [CString.strlen, maxFileName] at h; omega
  · rw [Mem.copy_apply_of_not_mem (by omega), Mem.copy_apply_of_mem (by omega) (by omega),
      Nat.add_sub_cancel_left]
    rfl

theorem State.wipeEntry_dName {s : State} {p i x : Nat} (h : x < maxFileName) :
    ((s.wipeEntry p i).dirEntry p i).dName x = 0 := by
  simp only [State.dirEntry, State.wipeEntry, State.setDName, State.setDInumber, State.poke,
    sizeofDirEntry_eq, maxFileName, Mem.ptr_apply] at h ⊢
  rw [Mem.copy_apply_of_mem (by omega) (by omega)]

theorem State.dirEntry_lt {s : State} {i : Nat} (h : i < s.maxDirEntries) : 44 * i + 44 ≤ s.blockSize := by
  have := Nat.div_mul_le_self s.blockSize 44
  simp only [State.maxDirEntries, sizeofDirEntry_eq] at h
  omega

/-! ## Frame -/

/-- The layout of the directory depends on nothing but the parameters, the allocation map of the inodes, the
types of the inodes, the root's inode and the bytes of its block. -/
theorem RootOk.frame {s s' : State} {L : Layout} (h : RootOk s L) (hp : s'.fsParams = s.fsParams)
    (hfree : ∀ k < s.inodeTableSize, s'.freeinodeTs.cell k = s.freeinodeTs.cell k)
    (h0 : s'.inodeTable.cell 0 = s.inodeTable.cell 0)
    (htype : ∀ k, 0 < k → s.freeinodeTs.cell k = .taken →
      (s'.inodeTable.cell k).iNodeType = (s.inodeTable.cell k).iNodeType)
    (hdata : ∀ x, s.rootPtr ≤ x → x < s.rootPtr + s.blockSize → s'.fsData.cell x = s.fsData.cell x) :
    RootOk s' L := by
  have hN : s'.inodeTableSize = s.inodeTableSize := by simp only [State.inodeTableSize, hp]
  have hbs : s'.blockSize = s.blockSize := by simp only [State.blockSize, hp]
  have hD : s'.maxDirEntries = s.maxDirEntries := by simp only [State.maxDirEntries, hbs]
  have hptr : s'.rootPtr = s.rootPtr := by simp only [State.rootPtr, State.rootBlock, h0, hbs]
  have hentry : ∀ i < s.maxDirEntries, (s'.rootEntry i).dInumber = (s.rootEntry i).dInumber ∧
      ∀ x < maxFileName, (s'.rootEntry i).dName x = (s.rootEntry i).dName x := by
    intro i hi
    have hle := State.dirEntry_lt hi
    simp only [State.rootEntry, hptr]
    exact State.dirEntry_congr fun x h₁ h₂ => hdata x (by omega) (by omega)
  have hino : ∀ n ∈ L.names, s.freeinodeTs.cell (L.ino n) = .taken := fun n hn =>
    (h.taken _ (h.ino_lt n hn)).mpr (Or.inr ⟨n, hn, rfl⟩)
  refine
    { sane := by rw [hp]; exact h.sane
      inodes_pos := by rw [hN]; exact h.inodes_pos
      rootTaken := by rw [hfree 0 h.inodes_pos]; exact h.rootTaken
      rootType := by rw [h0]; exact h.rootType
      rootSize := by rw [h0, hbs]; exact h.rootSize
      rootValid := by
        obtain ⟨b, hb, hlt⟩ := validBlockNumber_iff.mp h.rootValid
        refine validBlockNumber_iff.mpr ⟨b, by rw [h0, hb], ?_⟩
        simpa only [State.dataBlocks, hp] using hlt
      nameOk := h.nameOk
      slot_lt := by rw [hD]; exact h.slot_lt
      slot_inj := h.slot_inj
      entryName := fun n hn => ?_
      entryIno := fun n hn => by rw [(hentry _ (h.slot_lt n hn)).1]; exact h.entryIno n hn
      live := fun i hi hne => ?_
      used := ?_
      ino_pos := h.ino_pos
      ino_lt := by rw [hN]; exact h.ino_lt
      ino_inj := h.ino_inj
      inoType := fun n hn => by rw [htype _ (h.ino_pos n hn) (hino n hn)]; exact h.inoType n hn
      taken := fun k hk => by rw [hN] at hk; rw [hfree k hk]; exact h.taken k hk }
  · refine Mem.IsStr.congr (h.entryName n hn) fun x hx => (hentry _ (h.slot_lt n hn)).2 x ?_
    exact lt_of_le_of_lt hx (h.nameOk n hn).2.2
  · rw [hD] at hi
    rw [(hentry i hi).1] at hne
    exact h.live i hi hne
  · obtain ⟨u, hu, hslot, hdead⟩ := h.used
    refine ⟨u, by rw [hD]; exact hu, hslot, fun i hi he => ?_⟩
    have hiD : i < s.maxDirEntries := by omega
    rw [(hentry i hiD).1] at he
    rw [(hentry i hiD).2 0 (by decide)]
    exact hdead i hi he

/-- A state between the inode update and the directory update of one call: the directory is still `s`'s. -/
structure SameDir (s s' : State) : Prop where
  params : s'.fsParams = s.fsParams
  root : s'.inodeTable.cell 0 = s.inodeTable.cell 0
  data : s'.fsData = s.fsData

theorem SameDir.dirEntry {s s' : State} (h : SameDir s s') (p i : Nat) : s'.dirEntry p i = s.dirEntry p i := by
  simp only [State.dirEntry, h.data]

theorem SameDir.maxDirEntries {s s' : State} (h : SameDir s s') : s'.maxDirEntries = s.maxDirEntries := by
  simp only [State.maxDirEntries, State.blockSize, h.params]

theorem SameDir.rootPtr {s s' : State} (h : SameDir s s') : s'.rootPtr = s.rootPtr := by
  simp only [State.rootPtr, State.rootBlock, State.blockSize, h.root, h.params]

/-! ## Looking a name up -/

/-- The entry of the root directory at which the loop of `find_in_dir` stops. -/
def State.foundAt (s : State) (subName : CString) : Option Nat :=
  firstIndex (fun i => (s.rootEntry i).dInumber ≠ -1 ∧
    strncmp (s.rootEntry i).dName subName.mem maxFileName = 0) s.maxDirEntries

namespace RootOk

variable {s : State} {L : Layout}

theorem dataBlockGet_sameDir (h : RootOk s L) {s' : State} (hd : SameDir s s') :
    dataBlockGet s' (s'.inodeTable.cell 0).iDataBlock = .ok s.rootPtr := by
  obtain ⟨b, hb, hlt⟩ := validBlockNumber_iff.mp h.rootValid
  have hsane : Sane s'.fsParams := by rw [hd.params]; exact h.sane
  have hlt' : b < s'.dataBlocks := by simpa only [State.dataBlocks, hd.params] using hlt
  rw [← hd.rootPtr, State.rootPtr, State.rootBlock, hd.root, hb, dataBlockGet_natCast hsane hlt',
    Int.toNat_natCast]

theorem dataBlockGet_root (h : RootOk s L) :
    dataBlockGet s (s.inodeTable.cell 0).iDataBlock = .ok s.rootPtr :=
  h.dataBlockGet_sameDir ⟨rfl, rfl, rfl⟩

theorem inodeGet_root (h : RootOk s L) : inodeGet s rootDirInum = .ok 0 :=
  inodeGet_natCast h.inodes_pos

/-- The name of a live entry, compared as `find_in_dir` compares it. -/
theorem strncmp_entry (h : RootOk s L) {n : List UInt8} (hn : n ∈ L.names) (name : CString) :
    strncmp (s.rootEntry (L.slot n)).dName name.mem maxFileName = 0 ↔ name.chars = n := by
  have hstr := h.entryName n hn
  obtain ⟨h0, hpos, hlt⟩ := h.nameOk n hn
  by_cases hlen : name.chars.length < maxFileName
  · rw [CString.mem, strncmp_ofList name.noNul hlen]
    exact ⟨fun hs => hs.unique hstr name.noNul h0, fun he => he ▸ hstr⟩
  · -- a name of more than 39 characters meets the NUL of the entry
    have hnul : (s.rootEntry (L.slot n)).dName n.length = 0 := by
      simpa [List.getD_eq_getElem?_getD] using hstr n.length (Nat.le_refl _)
    have := strncmp_ofList_ne name.noNul (Nat.le_of_not_lt hlen) hlt hnul
    exact ⟨fun he => absurd he this, fun he => absurd (he ▸ hlt) hlen⟩

theorem foundAt_eq (h : RootOk s L) (name : CString) :
    s.foundAt name = if name.chars ∈ L.names then some (L.slot name.chars) else none := by
  cases hf : s.foundAt name with
  | some i =>
      rw [State.foundAt, firstIndex_eq_some, decide_eq_true_eq] at hf
      obtain ⟨⟨hlive, hcmp⟩, hi, -⟩ := hf
      obtain ⟨n, hn, rfl⟩ := h.live i hi hlive
      obtain rfl := (h.strncmp_entry hn name).mp hcmp
      rw [if_pos hn]
  | none =>
      rw [State.foundAt, firstIndex_eq_none] at hf
      rw [if_neg]
      intro hn
      have hno := hf _ (h.slot_lt _ hn)
      have hcmp := (h.strncmp_entry hn name).mpr rfl
      rw [decide_eq_false_iff_not, h.entryIno _ hn] at hno
      exact hno ⟨by omega, hcmp⟩

theorem findInDir_eq (h : RootOk s L) (name : CString) :
    findInDir s 0 name = .ok (if name.chars ∈ L.names then (L.ino name.chars : Int) else -1) := by
  have hfound : firstIndex (fun i => (s.dirEntry s.rootPtr i).dInumber ≠ -1 ∧
      strncmp (s.dirEntry s.rootPtr i).dName name.mem maxFileName = 0) s.maxDirEntries = _ := h.foundAt_eq name
  rw [findInDir, if_neg (not_not.mpr h.rootType), h.dataBlockGet_root, ok_bind, hfound]
  by_cases hn : name.chars ∈ L.names
  · have hino := h.entryIno _ hn
    rw [State.rootEntry] at hino
    simp only [hn, ↓reduceIte, hino, pure_eq_ok]
  · simp only [hn, ↓reduceIte, pure_eq_ok]

/-! ## Adding a name -/

theorem addDirEntry_eq (h : RootOk s L) {s' : State} (hd : SameDir s s') (name : CString) (k : Int) :
    addDirEntry s' 0 name k = .ok (
      if name.strlen = 0 ∨ maxFileName - 1 < name.strlen then (-1, s')
      else match firstIndex (fun i => (s.dirEntry s.rootPtr i).dInumber = -1) s.maxDirEntries with
        | some i => (0, s'.writeEntry s.rootPtr i name k)
        | none => (-1, s')) := by
  by_cases hlen : name.strlen = 0 ∨ maxFileName - 1 < name.strlen
  · simp only [addDirEntry, hlen, ↓reduceIte, pure_eq_ok]
  · simp only [addDirEntry, hlen, ↓reduceIte, hd.root, h.rootType, ne_eq, not_true_eq_false]
    rw [← hd.root, h.dataBlockGet_sameDir hd]
    simp only [ok_bind, hd.dirEntry, hd.maxDirEntries]
    cases firstIndex (fun i => decide ((s.dirEntry s.rootPtr i).dInumber = -1)) s.maxDirEntries <;> rfl

theorem dir_full_iff (h : RootOk s L) :
    firstIndex (fun i => (s.dirEntry s.rootPtr i).dInumber = -1) s.maxDirEntries = none ↔
      L.names.card = s.maxDirEntries := by
  rw [firstIndex_eq_none, ← full_iff_card h.slot_lt h.slot_inj]
  refine forall₂_congr fun i hi => ?_
  rw [decide_eq_false_iff_not]
  change ¬ (s.rootEntry i).dInumber = -1 ↔ _
  constructor
  · exact h.live i hi
  · rintro ⟨n, hn, rfl⟩
    rw [h.entryIno n hn]
    omega

theorem inodes_full_iff (h : RootOk s L) :
    firstFree s.freeinodeTs s.inodeTableSize = none ↔ L.names.card + 1 = s.inodeTableSize := by
  rw [firstFree_eq_none,
    ← full_iff_card_succ h.inodes_pos h.ino_lt (fun n hn => (h.ino_pos n hn).ne') h.ino_inj]
  exact forall₂_congr fun k hk => h.taken k hk

/-! ## Removing a name -/

theorem clearDirEntry_eq (h : RootOk s L) {s' : State} (hd : SameDir s s') {name : CString}
    (hn : name.chars ∈ L.names) :
    clearDirEntry s' 0 name = .ok (0, s'.wipeEntry s.rootPtr (L.slot name.chars)) := by
  have hfirst : firstIndex (fun i => decide (strcmp (s.dirEntry s.rootPtr i).dName name = 0))
      s.maxDirEntries = some (L.slot name.chars) := by
    rw [firstIndex_eq_some, decide_eq_true_eq, strcmp_eq_zero]
    refine ⟨h.entryName _ hn, h.slot_lt _ hn, fun j hj => ?_⟩
    rw [decide_eq_false_iff_not, strcmp_eq_zero]
    intro hstr
    obtain ⟨u, hu, hslot, hdead⟩ := h.used
    have hjD : j < s.maxDirEntries := lt_trans hj (h.slot_lt _ hn)
    by_cases hlive : (s.rootEntry j).dInumber = -1
    · -- an entry before it that is not live was cleared, so its name is empty
      have hempty := hdead j (lt_trans hj (hslot _ hn)) hlive
      have hpos := (h.nameOk _ hn).2.1
      have hchar := hstr 0 (Nat.zero_le _)
      rw [State.rootEntry] at hempty
      rw [hempty, List.getD_eq_getElem?_getD, List.getElem?_eq_getElem hpos, Option.getD_some] at hchar
      exact name.noNul (hchar ▸ List.getElem_mem hpos)
    · obtain ⟨n, hn', rfl⟩ := h.live j hjD hlive
      have := hstr.unique (h.entryName n hn') name.noNul (h.nameOk n hn').1
      rw [this] at hj
      exact lt_irrefl _ hj
  simp only [clearDirEntry, hd.root, h.rootType, ne_eq, not_true_eq_false, ↓reduceIte]
  rw [← hd.root, h.dataBlockGet_sameDir hd]
  simp only [ok_bind, hd.dirEntry, hd.maxDirEntries, hfirst, pure_eq_ok]
  rfl

end RootOk

end Mbroker.Fs
