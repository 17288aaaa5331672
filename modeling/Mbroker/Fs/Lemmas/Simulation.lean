import Mbroker.Fs.Lemmas.RefinementNames

/-!
# TecnicoFS answers like the abstract file system

One lemma for each operation, put together for `exec`.
-/

namespace Mbroker.Fs

open Mbroker.Lib

/-- The simulation relation: the files with contents are those that own a block. -/
def Simulates (params : TfsParams) (s : State) (a : FileSystem) : Prop :=
  s.fsParams = params ∧ ∃ L, Refines a.stored s L a

theorem Initialised.refines {s : State} {params : TfsParams} (h : Initialised s params) :
    Refines FileSystem.empty.stored s Layout.empty FileSystem.empty where
  inv := h.inv
  names := rfl
  handle_some := nofun
  handle_none := fun i _ => h.noHandle i
  content := by simp [Layout.empty]
  owns := by simp [FileSystem.stored, FileSystem.empty]
  stored := by simp [Layout.empty]
  block := by simp [FileSystem.stored, FileSystem.empty]
  block_inj := by simp [FileSystem.stored, FileSystem.empty]
  taken := fun b hb => ⟨fun ht => Or.inl (h.blocks b hb ht), by
    rintro (rfl | ⟨n, hn, -⟩)
    · exact h.inv.data.rootBlockTaken
    · simp [FileSystem.stored, FileSystem.empty] at hn⟩

theorem Initialised.simulates {s : State} {params : TfsParams} (h : Initialised s params) :
    Simulates params s FileSystem.empty := ⟨h.params, Layout.empty, h.refines⟩

namespace FileSystem

variable {a : FileSystem} {params : TfsParams} {n : List UInt8}

@[simp] theorem stored_setHandle {i : Nat} {x : Option (List UInt8 × Nat)} : (a.setHandle i x).stored = a.stored := rfl

@[simp] theorem stored_addHandle {off : Nat} : (a.addHandle params n off).2.stored = a.stored := by
  rw [addHandle]
  split <;> rfl

theorem stored_truncated : (a.setContent n []).stored = a.stored.erase n := by
  ext m
  rw [Finset.mem_erase, mem_stored, mem_stored]
  by_cases hm : m = n
  · subst hm
    simp
  · rw [setContent_ne hm]
    simp [hm, setContent]

theorem stored_created (hn : n ∉ a.names) :
    ({ a.setContent n [] with names := insert n a.names } : FileSystem).stored = a.stored := by
  ext m
  rw [mem_stored, mem_stored]
  change m ∈ insert n a.names ∧ (a.setContent n []).content m ≠ [] ↔ _
  by_cases hm : m = n
  · subst hm
    simp [hn]
  · rw [setContent_ne hm, Finset.mem_insert]
    simp [hm]

theorem stored_written {l : List UInt8} (hn : n ∈ a.names) (hl : l ≠ []) :
    (a.setContent n l).stored = insert n a.stored := by
  ext m
  rw [Finset.mem_insert, mem_stored, mem_stored]
  by_cases hm : m = n
  · subst hm
    simp [hl, setContent, hn]
  · rw [setContent_ne hm]
    simp [hm, setContent]

theorem stored_removed : ({ a with names := a.names.erase n } : FileSystem).stored = a.stored.erase n := by
  ext m
  rw [Finset.mem_erase, mem_stored, mem_stored]
  exact (and_congr_left' Finset.mem_erase).trans and_assoc

end FileSystem

namespace Refines

variable {s : State} {L : Layout} {a : FileSystem}

/-! ## tfs_open and tfs_unlink -/

theorem canCreate_iff {S : Finset (List UInt8)} (h : Refines S s L a) {n : List UInt8} :
    a.CanCreate s.fsParams n ↔ n.length < maxFileName ∧
      firstFree s.freeinodeTs s.inodeTableSize ≠ none ∧
      firstIndex (fun i => (s.dirEntry s.rootPtr i).dInumber = -1) s.maxDirEntries ≠ none := by
  rw [FileSystem.CanCreate, h.names, Ne, Ne, Ne, Ne, h.inv.root.inodes_full_iff, h.inv.root.dir_full_iff]
  rfl

theorem addToOpenFileTable_params (s : State) (v : Int) (off : Nat) :
    (Fs.addToOpenFileTable s v off).2.fsParams = s.fsParams := by
  rw [addToOpenFileTable_eq]
  split <;> rfl

theorem openFile_new {p : CString} {mode : Nat} (h : Refines a.stored s L a) (hp : validPathname p = true)
    (hn : p.tail.chars ∉ L.names) :
    a.openFile s.fsParams (some p) mode =
      if hasFlag mode tfsOCreat ∧ a.CanCreate s.fsParams p.tail.chars then
        FileSystem.addHandle s.fsParams
          { a.setContent p.tail.chars [] with names := insert p.tail.chars a.names } p.tail.chars 0
      else (-1, a) := by
  rw [← h.names] at hn
  simp [FileSystem.openFile, hp, hn]

theorem tfsOpen (h : Refines a.stored s L a) (name : Option CString) (mode : Nat)
    (hok : a.Allowed (.open name mode)) :
    ∃ s' L', Fs.tfsOpen s name mode = .ok ((a.openFile s.fsParams name mode).1, s') ∧
      s'.fsParams = s.fsParams ∧
      Refines (a.openFile s.fsParams name mode).2.stored s' L' (a.openFile s.fsParams name mode).2 := by
  obtain ⟨res, he, ho⟩ := h.inv.tfsOpen_outcome name mode
  cases ho with
  | null => exact ⟨s, L, he, rfl, h⟩
  | invalid hp =>
      rename_i p
      have hop : a.openFile s.fsParams (some p) mode = (-1, a) := by simp [FileSystem.openFile, hp]
      rw [hop]
      exact ⟨s, L, he, rfl, h⟩
  | absent hp hn hc =>
      rw [h.openFile_new hp hn, if_neg (by simp [hc])]
      exact ⟨s, L, he, rfl, h⟩
  | noInode hp hn hc hk =>
      rw [h.openFile_new hp hn, if_neg (by simp [h.canCreate_iff, hk])]
      exact ⟨s, L, he, rfl, h⟩
  | noEntry hp hn hc hk hfull =>
      rename_i p k
      have hcan : ¬ a.CanCreate s.fsParams p.tail.chars := by
        rw [h.canCreate_iff]
        rintro ⟨hlen, -, hroom⟩
        rcases hfull with hlong | hfull
        · simp only [CString.strlen, maxFileName] at hlong hlen
          omega
        · exact hroom hfull
      rw [h.openFile_new hp hn, if_neg (fun hand => hcan hand.2)]
      exact ⟨_, L, he, rfl, h.resetInode hk⟩
  | existing hp hn ht =>
      rename_i p
      have hsame : (if hasFlag mode tfsOTrunc then a.setContent p.tail.chars [] else a) = a := by
        split
        · rename_i hf
          have hz := ht.resolve_left (by simp [hf])
          rw [h.size hn, List.length_eq_zero_iff] at hz
          exact FileSystem.setContent_nil hz
        · rfl
      have hop : a.openFile s.fsParams (some p) mode = a.addHandle s.fsParams p.tail.chars
          (if hasFlag mode tfsOAppend then (a.content p.tail.chars).length else 0) := by
        rw [← h.names] at hn
        simp only [FileSystem.openFile, hp, hn, hsame, Bool.not_true, Bool.false_eq_true, ↓reduceIte]
      rw [h.size hn] at he
      obtain ⟨hr, href⟩ := h.addToOpenFileTable hn (show (if hasFlag mode tfsOAppend
        then (a.content p.tail.chars).length else 0) ≤ _ by split <;> omega)
      rw [hop, FileSystem.stored_addHandle, ← hr]
      exact ⟨_, L, he, addToOpenFileTable_params _ _ _, href⟩
  | truncated hp hn hf hsize =>
      rename_i p
      have hnS : p.tail.chars ∈ a.stored := by
        rw [FileSystem.mem_stored, h.names]
        refine ⟨hn, fun hnil => ?_⟩
        rw [h.size hn, hnil] at hsize
        exact Nat.lt_irrefl 0 hsize
      have htr := h.truncateInode hnS hsize (hok hf)
      have hop : a.openFile s.fsParams (some p) mode =
          (a.setContent p.tail.chars []).addHandle s.fsParams p.tail.chars 0 := by
        rw [← h.names] at hn
        simp [FileSystem.openFile, hp, hn, hf]
      obtain ⟨hr, href⟩ := htr.addToOpenFileTable hn (Nat.zero_le _)
      rw [hop, FileSystem.stored_addHandle, FileSystem.stored_truncated]
      refine ⟨_, L, he.trans ?_, ?_, href⟩
      · exact congrArg Except.ok (Prod.ext hr rfl)
      · exact addToOpenFileTable_params _ _ _
  | created hp hn hc hk hlen hi =>
      rename_i p k i
      have hcan : a.CanCreate s.fsParams p.tail.chars := by
        rw [h.canCreate_iff, hk, hi]
        exact ⟨hlen, Option.some_ne_none k, Option.some_ne_none i⟩
      have hcr := h.createFile hk hi hn ⟨p.tail.noNul, tail_ne_nil hp, hlen⟩
      have hmem : p.tail.chars ∈ (L.insert p.tail.chars i k).names := Layout.mem_insert.mpr (Or.inl rfl)
      obtain ⟨hr, href⟩ := hcr.addToOpenFileTable hmem (Nat.zero_le _)
      rw [Layout.insert_ino_same] at hr href
      have hnew : p.tail.chars ∉ a.names := by rw [h.names]; exact hn
      rw [h.openFile_new hp hn, if_pos ⟨hc, hcan⟩, FileSystem.stored_addHandle, FileSystem.stored_created hnew]
      refine ⟨_, _, he.trans ?_, ?_, href⟩
      · exact congrArg Except.ok (Prod.ext hr rfl)
      · exact addToOpenFileTable_params _ _ _

theorem tfsUnlink (h : Refines a.stored s L a) (target : Option CString) (hok : a.Allowed (.unlink target)) :
    ∃ s' L', Fs.tfsUnlink s target = .ok ((a.unlinkFile target).1, s') ∧ s'.fsParams = s.fsParams ∧
      Refines (a.unlinkFile target).2.stored s' L' (a.unlinkFile target).2 := by
  obtain ⟨res, he, ho⟩ := h.inv.tfsUnlink_outcome target
  cases ho with
  | null => exact ⟨s, L, he, rfl, h⟩
  | invalid hp =>
      rename_i p
      have hop : a.unlinkFile (some p) = (-1, a) := by simp [FileSystem.unlinkFile, hp]
      rw [hop]
      exact ⟨s, L, he, rfl, h⟩
  | absent hp hn =>
      rename_i p
      have hop : a.unlinkFile (some p) = (-1, a) := by simp [FileSystem.unlinkFile, h.names, hn]
      rw [hop]
      exact ⟨s, L, he, rfl, h⟩
  | removed hp hn =>
      rename_i p
      have hop : a.unlinkFile (some p) = (0, { a with names := a.names.erase p.tail.chars }) := by
        simp [FileSystem.unlinkFile, h.names, hp, hn]
      rw [hop, FileSystem.stored_removed]
      exact ⟨_, _, he, rfl, h.removeFile hn hok⟩

/-! ## tfs_close, tfs_read and tfs_write -/

theorem tfsClose (h : Refines a.stored s L a) (fh : Int) :
    ∃ s', Fs.tfsClose s fh = .ok ((a.closeFile fh).1, s') ∧ s'.fsParams = s.fsParams ∧
      Refines (a.closeFile fh).2.stored s' L (a.closeFile fh).2 := by
  rw [tfsClose_eq]
  cases hget : getOpenFileEntry s fh with
  | none =>
      have hop : a.closeFile fh = (-1, a) := by simp only [FileSystem.closeFile, h.getOpenFileEntry_none hget]
      rw [hop]
      exact ⟨s, rfl, rfl, h⟩
  | some i =>
      obtain ⟨rfl, ho⟩ := getOpenFileEntry_eq_some.mp hget
      obtain ⟨n, off, hi, -⟩ := h.of_isOpen ho
      have hop : a.closeFile (i : Int) = (0, a.setHandle i none) := by
        simp only [FileSystem.closeFile, FileSystem.handle_eq_some.mpr ⟨rfl, hi⟩]
      rw [hop]
      exact ⟨_, rfl, rfl, h.closeAt i⟩

/-- A read that returns gives the bytes of the abstract file, and moves the offset behind them. -/
theorem of_read (h : Refines a.stored s L a) {fh : Int} {len : Nat} {res : Int × List UInt8 × State}
    (ho : ReadOutcome s len fh res) : res.1 = (a.readFile fh len).1.value ∧ res.2.1 = (a.readFile fh len).1.data ∧
      Refines (a.readFile fh len).2.stored res.2.2 L (a.readFile fh len).2 := by
  -- what both sides say of an open handle
  have hfile : ∀ {i : Nat}, s.IsOpen i → ∃ n off, a.handles i = some (n, off) ∧ n ∈ L.names ∧
      s.openFileTable.cell i = ⟨L.ino n, off⟩ ∧ off ≤ (a.content n).length ∧ (a.content n).length < 2 ^ 64 := by
    intro i hi
    obtain ⟨n, off, hh, hn, hentry, hle⟩ := h.of_isOpen hi
    have hsz := h.inv.data.size_le _ (h.inv.root.ino_pos n hn) (h.inv.inUse_ino hn)
    have hbs := h.inv.root.sane.blockSize_lt'
    rw [h.size hn] at hsz
    exact ⟨n, off, hh, hn, hentry, hle, by omega⟩
  cases ho with
  | closed hget =>
      have hop : a.readFile fh len = (⟨-1, []⟩, a) := by
        simp only [FileSystem.readFile, h.getOpenFileEntry_none hget]
      rw [hop]
      exact ⟨rfl, rfl, h⟩
  | @nothing i k hi hk hn =>
      obtain ⟨n, off, hh, hnL, hentry, hle, hlt⟩ := hfile hi
      rw [hentry] at hk hn
      obtain rfl : L.ino n = k := Int.ofNat_inj.mp hk
      rw [h.size hnL, readLen_of_le hle hlt] at hn
      have hdata : ((a.content n).drop off).take len = [] := by
        rw [← List.length_eq_zero_iff, List.length_take, List.length_drop]
        exact hn
      have hop : a.readFile (i : Int) len = (⟨0, []⟩, a) := by
        simp only [FileSystem.readFile, FileSystem.handle_eq_some.mpr ⟨rfl, hh⟩, hdata, List.length_nil, Nat.add_zero,
          ← hh, FileSystem.setHandle, Function.update_eq_self]
        rfl
      rw [hop]
      exact ⟨rfl, rfl, h⟩
  | @data i k b m hi hk hm hpos hb hlt hin =>
      obtain ⟨n, off, hh, hnL, hentry, hle, hmax⟩ := hfile hi
      rw [hentry] at hk hm ⊢
      obtain rfl : L.ino n = k := Int.ofNat_inj.mp hk
      rw [h.size hnL, readLen_of_le hle hmax] at hm
      have hlen : (((a.content n).drop off).take len).length = m := by
        rw [List.length_take, List.length_drop, hm]
      have hop : a.readFile (i : Int) len =
          (⟨m, ((a.content n).drop off).take len⟩, a.setHandle i (some (n, off + m))) := by
        simp only [FileSystem.readFile, FileSystem.handle_eq_some.mpr ⟨rfl, hh⟩, hlen]
      have hblk : s.blockOf (L.ino n) = b := by simp only [State.blockOf, hb, Int.toNat_natCast]
      have hend : off + m ≤ (s.inodeTable.cell (L.ino n)).iSize := by
        rw [h.size hnL, hm]
        omega
      rw [hop]
      refine ⟨rfl, ?_, h.seek (off + m) hh (by omega)⟩
      -- the bytes at the offset are those of the contents behind it
      have htake := Mem.take_drop_bytes (m := s.fsData.cell) (p := s.blockOf (L.ino n) * s.blockSize) hend
      rw [show (Mem.ptr s.fsData.cell _).bytes _ = a.content n from h.content n hnL, hblk] at htake
      refine htake.symm.trans ?_
      change _ = ((a.content n).drop off).take len
      rw [← hlen, List.length_take, ← List.take_eq_take_min]

theorem tfsRead (h : Refines a.stored s L a) (fh : Int) (len : Nat) :
    ∃ s', Fs.tfsRead s fh len = .ok ((a.readFile fh len).1.value, (a.readFile fh len).1.data, s') ∧
      s'.fsParams = s.fsParams ∧ Refines (a.readFile fh len).2.stored s' L (a.readFile fh len).2 := by
  obtain ⟨res, he⟩ : ∃ res, Fs.tfsRead s fh len = .ok res := by
    cases hget : getOpenFileEntry s fh with
    | none => exact ⟨(-1, [], s), by simp only [Fs.tfsRead, hget, pure_eq_ok]⟩
    | some i =>
        obtain ⟨rfl, ho⟩ := getOpenFileEntry_eq_some.mp hget
        obtain ⟨n, off, -, hn, hentry, hle⟩ := h.of_isOpen ho
        exact h.inv.tfsRead_ok (k := L.ino n) ho (by rw [hentry]) (by rw [hentry, h.size hn]; exact hle) len
  have ho := h.inv.tfsRead_outcome he
  obtain ⟨hr, hd, href⟩ := h.of_read ho
  refine ⟨res.2.2, ?_, ?_, href⟩
  · rw [he, ← hr, ← hd]
  · cases ho <;> rfl

/-- Without overflow, what does not fit the block is cut off. -/
theorem writeLen_of_le {bs off n : Nat} (hbs : bs < 2 ^ 31) (h : off ≤ bs) (hsum : n + off < 2 ^ 64) :
    writeLen bs off n = min n (bs - off) := by
  unfold writeLen
  rw [toSize_of_lt hsum, sizeSub_of_le h (by omega)]
  split <;> omega

/-- The blocks are all taken when every block but the root's has a file. -/
theorem blocks_full_iff (h : Refines a.stored s L a) :
    firstFree s.freeBlocks s.dataBlocks = none ↔ a.stored.card + 1 = s.dataBlocks := by
  obtain ⟨r, hr, hrlt⟩ := validBlockNumber_iff.mp h.inv.root.rootValid
  have hroot : s.rootBlock < s.dataBlocks := by rw [State.rootBlock, hr]; simpa using hrlt
  rw [firstFree_eq_none, ← full_iff_card_succ hroot (fun n hn => (h.block n hn).2.1)
    (fun n hn => (h.block n hn).2.2) h.block_inj]
  exact forall₂_congr h.taken

/-- A write that returns does to the tables what it does to the abstract file. -/
theorem of_write (h : Refines a.stored s L a) {fh : Int} {buffer : Mem} {toWrite : Nat} {res : Int × State}
    (hok : a.Allowed (.write fh buffer toWrite)) (hw : WriteOutcome s buffer toWrite fh res) :
    res.1 = (a.writeFile s.fsParams fh buffer toWrite).1 ∧
      Refines (a.writeFile s.fsParams fh buffer toWrite).2.stored res.2 L
        (a.writeFile s.fsParams fh buffer toWrite).2 := by
  cases hh : a.handle fh with
  | none =>
      have hop : a.writeFile s.fsParams fh buffer toWrite = (-1, a) := by simp only [FileSystem.writeFile, hh]
      have hclosed : ∀ i : Nat, fh = i → ¬ s.IsOpen i := by
        rintro i rfl ho
        obtain ⟨n, off, hi, -⟩ := h.of_isOpen ho
        rw [FileSystem.handle_eq_some.mpr ⟨rfl, hi⟩] at hh
        cases hh
      rw [hop]
      cases hw with
      | closed hget => exact ⟨rfl, h⟩
      | nothing hi => exact absurd hi (hclosed _ rfl)
      | noBlock hi => exact absurd hi (hclosed _ rfl)
      | fresh hi => exact absurd hi (hclosed _ rfl)
      | inPlace hi => exact absurd hi (hclosed _ rfl)
  | some x =>
      obtain ⟨i, n, off⟩ := x
      have hsum := hok i n off hh
      obtain ⟨rfl, hi⟩ := FileSystem.handle_eq_some.mp hh
      obtain ⟨ho, hn, hentry, hle⟩ := h.handle_some i n off hi
      have hoff : (s.openFileTable.cell i).ofOffset = off := by rw [hentry]
      have hino : (s.openFileTable.cell i).ofInumber = L.ino n := by rw [hentry]
      have hbs := h.inv.root.sane.blockSize_lt'
      have hwf := h.wellFormed.content n (by rw [h.names]; exact hn)
      obtain ⟨m, hm⟩ : ∃ m, m = min toWrite (s.blockSize - off) := ⟨_, rfl⟩
      have hwl : writeLen s.blockSize (s.openFileTable.cell i).ofOffset toWrite = m := by
        rw [hoff, writeLen_of_le hbs (hle.trans hwf) hsum, hm]
      have hop : a.writeFile s.fsParams (i : Int) buffer toWrite =
          if m = 0 then (0, a)
          else if a.content n = [] ∧ a.stored.card + 1 = s.dataBlocks then (-1, a)
          else ((m : Int),
            (a.setContent n (overwrite (a.content n) off (buffer.bytes m))).setHandle i (some (n, off + m))) := by
        simp only [FileSystem.writeFile, hh, hm]
        rfl
      rw [hop]
      -- a file with contents is written in its block, an empty one in a new block
      have hwrite : ∀ {S : Finset (List UInt8)} {t : State}, Refines S t L a → n ∈ S → t.fsParams = s.fsParams →
          0 < m → insert n a.stored = S → Refines
            ((a.setContent n (overwrite (a.content n) off (buffer.bytes m))).setHandle i (some (n, off + m))).stored
            (t.writeAt i (L.ino n) (t.blockOf (L.ino n)) buffer m) L
            ((a.setContent n (overwrite (a.content n) off (buffer.bytes m))).setHandle i (some (n, off + m))) := by
        intro S t ht hnS hp hpos hS
        have hne : overwrite (a.content n) off (buffer.bytes m) ≠ [] := by
          rw [Ne, ← List.length_eq_zero_iff, length_overwrite hle, Mem.length_bytes]
          omega
        rw [FileSystem.stored_setHandle, FileSystem.stored_written (by rw [h.names]; exact hn) hne, hS]
        refine ht.writeAt hi hnS ?_
        rw [State.blockSize, hp]
        change off + m ≤ s.blockSize
        omega
      cases hw with
      | closed hget =>
          rw [getOpenFileEntry_natCast ho] at hget
          cases hget
      | nothing hi' hk hz =>
          rename_i k
          rw [hwl] at hz
          rw [if_pos hz]
          exact ⟨rfl, h⟩
      | noBlock hi' hk hpos hsize hb =>
          rename_i k
          rw [hwl] at hpos
          obtain rfl : k = L.ino n := by omega
          rw [h.size hn, List.length_eq_zero_iff] at hsize
          rw [if_neg hpos.ne', if_pos ⟨hsize, h.blocks_full_iff.mp hb⟩]
          exact ⟨rfl, h⟩
      | fresh hi' hk hm' hpos hfit hsize hb =>
          rename_i k b m'
          obtain rfl : m' = m := hm'.trans hwl
          obtain rfl : k = L.ino n := by omega
          rw [h.size hn, List.length_eq_zero_iff] at hsize
          have hroom : a.stored.card + 1 ≠ s.dataBlocks := by
            rw [Ne, ← h.blocks_full_iff, hb]
            exact Option.some_ne_none b
          rw [if_neg hpos.ne', if_neg (fun hand => hroom hand.2)]
          have hnS : n ∉ a.stored := fun hnS => (FileSystem.mem_stored.mp hnS).2 hsize
          have htake := h.takeBlock hn hnS hb
          have href := hwrite htake (Finset.mem_insert_self _ _) rfl hpos rfl
          rw [State.takeBlock_blockOf] at href
          exact ⟨rfl, href⟩
      | inPlace hi' hk hm' hpos hfit hsize hb hlt =>
          rename_i k b m'
          obtain rfl : m' = m := hm'.trans hwl
          obtain rfl : k = L.ino n := by omega
          have hnil : a.content n ≠ [] := by
            intro hnil
            rw [h.size hn, hnil] at hsize
            exact Nat.lt_irrefl 0 hsize
          rw [if_neg hpos.ne', if_neg (fun hand => hnil hand.1)]
          have hnS : n ∈ a.stored := FileSystem.mem_stored.mpr ⟨by rw [h.names]; exact hn, hnil⟩
          have hblk : s.blockOf (L.ino n) = b := by simp only [State.blockOf, hb, Int.toNat_natCast]
          have href := hwrite h hnS rfl hpos (Finset.insert_eq_of_mem hnS)
          rw [hblk] at href
          exact ⟨rfl, href⟩

theorem tfsWrite (h : Refines a.stored s L a) (fh : Int) (buffer : Mem) (toWrite : Nat)
    (hok : a.Allowed (.write fh buffer toWrite)) :
    ∃ s', Fs.tfsWrite s fh buffer toWrite = .ok ((a.writeFile s.fsParams fh buffer toWrite).1, s') ∧
      s'.fsParams = s.fsParams ∧
      Refines (a.writeFile s.fsParams fh buffer toWrite).2.stored s' L
        (a.writeFile s.fsParams fh buffer toWrite).2 := by
  rcases h.inv.tfsWrite_outcome fh buffer toWrite with ⟨res, he, hw⟩ | ⟨-, i, rfl, ho, hfar⟩
  · obtain ⟨hr, href⟩ := h.of_write hok hw
    refine ⟨res.2, ?_, ?_, href⟩
    · rw [he, ← hr]
    · cases hw <;> rfl
  · -- the copy stays within the block
    obtain ⟨n, off, hi, hn, hentry, hle⟩ := h.of_isOpen ho
    have hsum := hok i n off (FileSystem.handle_eq_some.mpr ⟨rfl, hi⟩)
    have hbs := h.inv.root.sane.blockSize_lt'
    have hwf := h.wellFormed.content n (by rw [h.names]; exact hn)
    rw [hentry, writeLen_of_le hbs (hle.trans hwf) hsum] at hfar
    have hoff : off ≤ s.blockSize := hle.trans hwf
    simp only at hfar
    omega

end Refines

/-- The step lemma of the refinement: an allowed call gets the answer of the abstract file system. -/
theorem Simulates.exec {params : TfsParams} {s : State} {a : FileSystem} (h : Simulates params s a) {c : Call}
    (hok : a.Allowed c) :
    ∃ s', Fs.exec s c = .ok ((a.call params c).1, s') ∧ Simulates params s' (a.call params c).2 := by
  obtain ⟨rfl, L, h⟩ := h
  cases c with
  | «open» name mode =>
      obtain ⟨s', L', he, hp, h'⟩ := h.tfsOpen name mode hok
      exact ⟨s', by simp only [Fs.exec, he, ok_bind, pure_eq_ok, FileSystem.call], hp, L', h'⟩
  | close fhandle =>
      obtain ⟨s', he, hp, h'⟩ := h.tfsClose fhandle
      exact ⟨s', by simp only [Fs.exec, he, ok_bind, pure_eq_ok, FileSystem.call], hp, L, h'⟩
  | read fhandle len =>
      obtain ⟨s', he, hp, h'⟩ := h.tfsRead fhandle len
      exact ⟨s', by simp only [Fs.exec, he, ok_bind, pure_eq_ok, FileSystem.call], hp, L, h'⟩
  | write fhandle buffer n =>
      obtain ⟨s', he, hp, h'⟩ := h.tfsWrite fhandle buffer n hok
      exact ⟨s', by simp only [Fs.exec, he, ok_bind, pure_eq_ok, FileSystem.call], hp, L, h'⟩
  | unlink target =>
      obtain ⟨s', L', he, hp, h'⟩ := h.tfsUnlink target hok
      exact ⟨s', by simp only [Fs.exec, he, ok_bind, pure_eq_ok, FileSystem.call], hp, L', h'⟩

end Mbroker.Fs
