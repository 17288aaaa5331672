import Mbroker.Fs.Lemmas.OpenUnlink

/-!
# What tfs_write and tfs_read can do

A call that returns is one of the outcomes; the calls that do not return copy behind the allocated data, or
reach for the block of an inode that has none.
-/

namespace Mbroker.Fs

open Mbroker.Lib

namespace State

/-- The block `b` becomes the block of the inode `k`. -/
def takeBlock (s : State) (k b : Nat) : State :=
  { s with
    freeBlocks := s.freeBlocks.set b .taken
    inodeTable := s.inodeTable.set k { s.inodeTable.cell k with iDataBlock := b } }

/-- The offset of the handle `h` becomes `off`. -/
def seek (s : State) (h off : Nat) : State :=
  { s with openFileTable := s.openFileTable.set h { s.openFileTable.cell h with ofOffset := off } }

/-- `n` bytes of `buffer` go to the block `b` of the inode `k` at the offset of the handle `h`. -/
def writeAt (s : State) (h k b : Nat) (buffer : Mem) (n : Nat) : State :=
  { (s.poke (b * s.blockSize + (s.openFileTable.cell h).ofOffset) buffer n).seek h
      ((s.openFileTable.cell h).ofOffset + n) with
    inodeTable := s.inodeTable.set k
      { s.inodeTable.cell k with
        iSize := max (s.inodeTable.cell k).iSize ((s.openFileTable.cell h).ofOffset + n) } }

end State

/-! ## tfs_write -/

/-- Either the bytes end within a block, or the sum of offset and length does not fit `size_t`. -/
theorem writeLen_cases {bs off n : Nat} (hbs : bs < 2 ^ 31) (hoff : off < 2 ^ 64) :
    off + writeLen bs off n ≤ bs ∨ 2 ^ 64 ≤ off + writeLen bs off n := by
  unfold writeLen
  split
  · by_cases hle : off ≤ bs
    · rw [sizeSub_of_le hle (by omega)]
      omega
    · rw [sizeSub_of_lt (by omega) hoff]
      omega
  · rename_i hlt
    by_cases hsum : n + off < 2 ^ 64
    · rw [toSize_of_lt hsum] at hlt
      omega
    · omega

inductive WriteOutcome (s : State) (buffer : Mem) (toWrite : Nat) : Int → Int × State → Prop
  | closed {fh} : getOpenFileEntry s fh = none → WriteOutcome s buffer toWrite fh (-1, s)
  | nothing {h k : Nat} : s.IsOpen h → (s.openFileTable.cell h).ofInumber = k →
      writeLen s.blockSize (s.openFileTable.cell h).ofOffset toWrite = 0 →
      WriteOutcome s buffer toWrite h (0, s)
  | noBlock {h k : Nat} : s.IsOpen h → (s.openFileTable.cell h).ofInumber = k →
      0 < writeLen s.blockSize (s.openFileTable.cell h).ofOffset toWrite →
      (s.inodeTable.cell k).iSize = 0 → firstFree s.freeBlocks s.dataBlocks = none →
      WriteOutcome s buffer toWrite h (-1, s)
  | fresh {h k b n : Nat} : s.IsOpen h → (s.openFileTable.cell h).ofInumber = k →
      n = writeLen s.blockSize (s.openFileTable.cell h).ofOffset toWrite → 0 < n →
      (s.openFileTable.cell h).ofOffset + n ≤ s.blockSize →
      (s.inodeTable.cell k).iSize = 0 → firstFree s.freeBlocks s.dataBlocks = some b →
      WriteOutcome s buffer toWrite h (n, (s.takeBlock k b).writeAt h k b buffer n)
  | inPlace {h k b n : Nat} : s.IsOpen h → (s.openFileTable.cell h).ofInumber = k →
      n = writeLen s.blockSize (s.openFileTable.cell h).ofOffset toWrite → 0 < n →
      (s.openFileTable.cell h).ofOffset + n ≤ s.blockSize →
      0 < (s.inodeTable.cell k).iSize → (s.inodeTable.cell k).iDataBlock = b → b < s.dataBlocks →
      WriteOutcome s buffer toWrite h (n, s.writeAt h k b buffer n)

/-- The copy of `tfs_write` when its end lies within the block. -/
theorem writeData_eq {s : State} {h k b n : Nat} {buffer : Mem} (hs : Sane s.fsParams)
    (hbytes : s.fsData.bytes = some (s.dataBlocks * s.blockSize))
    (hb : (s.inodeTable.cell k).iDataBlock = b) (hlt : b < s.dataBlocks)
    (hfit : (s.openFileTable.cell h).ofOffset + n ≤ s.blockSize) :
    writeData s h k buffer n = .ok ((n : Int), s.writeAt h k b buffer n) := by
  have hbs := hs.blockSize_lt'
  have hin : s.inData (b * s.blockSize + (s.openFileTable.cell h).ofOffset) n = true := by
    have := (hs.block_lt hlt).1
    rw [State.inData_eq hbytes, decide_eq_true_eq]
    omega
  have hsz : toSize ((s.openFileTable.cell h).ofOffset + n) = (s.openFileTable.cell h).ofOffset + n :=
    toSize_of_lt (by omega)
  simp only [writeData, hb, dataBlockGet_natCast hs hlt, ok_bind, hin, Bool.not_true, Bool.false_eq_true,
    ↓reduceIte, hsz, toSsize_of_lt (show n < 2 ^ 63 by omega), pure_eq_ok]
  by_cases hgrow : (s.inodeTable.cell k).iSize < (s.openFileTable.cell h).ofOffset + n
  · simp [State.poke, hgrow, State.setInode, State.writeAt, State.seek, max_eq_right hgrow.le]
  · have hmax := max_eq_left (Nat.le_of_not_lt hgrow)
    simp only [State.poke, hgrow, ↓reduceIte, State.writeAt, State.seek, hmax, Table.set,
      Function.update_eq_self]

/-- A copy that does not end within the block leaves the allocated data. -/
theorem writeData_outOfBounds {s : State} {h k b n : Nat} {buffer : Mem} (hs : Sane s.fsParams)
    (hbytes : s.fsData.bytes = some (s.dataBlocks * s.blockSize))
    (hb : (s.inodeTable.cell k).iDataBlock = b) (hlt : b < s.dataBlocks)
    (hfar : 2 ^ 64 ≤ (s.openFileTable.cell h).ofOffset + n) :
    writeData s h k buffer n = .error .outOfBounds := by
  have hin : s.inData (b * s.blockSize + (s.openFileTable.cell h).ofOffset) n = false := by
    have := (hs.block_lt hlt).2
    rw [State.inData_eq hbytes, decide_eq_false_iff_not]
    omega
  simp only [writeData, hb, dataBlockGet_natCast hs hlt, ok_bind, hin, Bool.not_false, ↓reduceIte,
    throw_eq_error, error_bind]

namespace FsInv

variable {s : State} {L : Layout}

/-- `tfs_write` returns as one of its outcomes, or its copy leaves the allocated data. -/
theorem tfsWrite_outcome (h : FsInv s L) (fh : Int) (buffer : Mem) (toWrite : Nat) :
    (∃ res, tfsWrite s fh buffer toWrite = .ok res ∧ WriteOutcome s buffer toWrite fh res) ∨
      tfsWrite s fh buffer toWrite = .error .outOfBounds ∧ ∃ i : Nat, fh = i ∧ s.IsOpen i ∧
        2 ^ 64 ≤ (s.openFileTable.cell i).ofOffset +
          writeLen s.blockSize (s.openFileTable.cell i).ofOffset toWrite := by
  cases hget : getOpenFileEntry s fh with
  | none => exact Or.inl ⟨_, by simp [tfsWrite, hget, pure_eq_ok], .closed hget⟩
  | some i =>
      obtain ⟨rfl, ho⟩ := getOpenFileEntry_eq_some.mp hget
      obtain ⟨k, hk, hkpos, hklt⟩ := h.data.handleIno i ho
      have hino := inodeGet_natCast hklt
      have hu : s.InUse k := ⟨hklt, Or.inr ⟨i, ho, hk⟩⟩
      by_cases hn : writeLen s.blockSize (s.openFileTable.cell i).ofOffset toWrite = 0
      · exact Or.inl ⟨_, by simp [tfsWrite, hget, hk, hino, hn, pure_eq_ok], .nothing ho hk hn⟩
      have hcases := writeLen_cases (n := toWrite) h.root.sane.blockSize_lt' (h.data.handleOff i ho)
      by_cases hsize : (s.inodeTable.cell k).iSize = 0
      · cases hb : firstFree s.freeBlocks s.dataBlocks with
        | none =>
            refine Or.inl ⟨_, ?_, .noBlock ho hk (Nat.pos_of_ne_zero hn) hsize hb⟩
            simp [tfsWrite, hget, hk, hino, hn, hsize, dataBlockAlloc_eq h.root.sane, hb, pure_eq_ok]
        | some b =>
            have hne : ((b : Int) = -1) = False := eq_false (by omega)
            obtain ⟨-, hlt, -⟩ := firstFree_eq_some.mp hb
            have htake : tfsWrite s i buffer toWrite = writeData (s.takeBlock k b) i k buffer
                (writeLen s.blockSize (s.openFileTable.cell i).ofOffset toWrite) := by
              simp [tfsWrite, hget, hk, hino, hn, hsize, dataBlockAlloc_eq h.root.sane, hb, hne,
                State.setInode, State.takeBlock]
            have hblk : ((s.takeBlock k b).inodeTable.cell k).iDataBlock = b := by
              simp [State.takeBlock]
            rcases hcases with hfit | hfar
            · refine Or.inl ⟨_, ?_, .fresh ho hk rfl (Nat.pos_of_ne_zero hn) hfit hsize hb⟩
              rw [htake, writeData_eq (by exact h.root.sane) (by exact h.data.bytes) hblk hlt (by exact hfit)]
            · refine Or.inr ⟨?_, i, rfl, ho, hfar⟩
              rw [htake, writeData_outOfBounds (by exact h.root.sane) (by exact h.data.bytes) hblk hlt
                (by exact hfar)]
      · obtain ⟨b, hb, hlt, -⟩ := h.data.block k hkpos hu (Nat.pos_of_ne_zero hsize)
        have hstep : tfsWrite s i buffer toWrite = writeData s i k buffer
            (writeLen s.blockSize (s.openFileTable.cell i).ofOffset toWrite) := by
          simp [tfsWrite, hget, hk, hino, hn, hsize]
        rcases hcases with hfit | hfar
        · refine Or.inl ⟨_, ?_, .inPlace ho hk rfl (Nat.pos_of_ne_zero hn) hfit (Nat.pos_of_ne_zero hsize) hb
            hlt⟩
          rw [hstep, writeData_eq h.root.sane h.data.bytes hb hlt hfit]
        · refine Or.inr ⟨?_, i, rfl, ho, hfar⟩
          rw [hstep, writeData_outOfBounds h.root.sane h.data.bytes hb hlt hfar]

end FsInv

/-! ## tfs_read -/

inductive ReadOutcome (s : State) (len : Nat) : Int → Int × List UInt8 × State → Prop
  | closed {fh} : getOpenFileEntry s fh = none → ReadOutcome s len fh (-1, [], s)
  | nothing {h k : Nat} : s.IsOpen h → (s.openFileTable.cell h).ofInumber = k →
      readLen (s.inodeTable.cell k).iSize (s.openFileTable.cell h).ofOffset len = 0 →
      ReadOutcome s len h (0, [], s)
  | data {h k b n : Nat} : s.IsOpen h → (s.openFileTable.cell h).ofInumber = k →
      n = readLen (s.inodeTable.cell k).iSize (s.openFileTable.cell h).ofOffset len → 0 < n →
      (s.inodeTable.cell k).iDataBlock = b → b < s.dataBlocks →
      b * s.blockSize + (s.openFileTable.cell h).ofOffset + n ≤ s.dataBlocks * s.blockSize →
      ReadOutcome s len h (n, (Mem.ptr s.fsData.cell
        (b * s.blockSize + (s.openFileTable.cell h).ofOffset)).bytes n,
        s.seek h ((s.openFileTable.cell h).ofOffset + n))

/-- Without a wrap, `tfs_read` copies what lies between the offset and the size, at most `len` bytes. -/
theorem readLen_of_le {size off : Nat} (h : off ≤ size) (hs : size < 2 ^ 64) (len : Nat) :
    readLen size off len = min len (size - off) := by
  unfold readLen
  rw [sizeSub_of_le h hs]
  split <;> omega

namespace FsInv

variable {s : State} {L : Layout}

theorem tfsRead_nothing {i k len : Nat} (ho : s.IsOpen i) (hk : (s.openFileTable.cell i).ofInumber = k)
    (hklt : k < s.inodeTableSize)
    (hn : readLen (s.inodeTable.cell k).iSize (s.openFileTable.cell i).ofOffset len = 0) :
    tfsRead s i len = .ok (0, [], s) := by
  have hino : inodeGet s (s.openFileTable.cell i).ofInumber = .ok k := by rw [hk, inodeGet_natCast hklt]
  simp only [tfsRead, getOpenFileEntry_natCast ho, hino, ok_bind, hn, ↓reduceIte, pure_eq_ok]

/-- `tfs_read` when what it copies lies within the allocated data. -/
theorem tfsRead_data (h : FsInv s L) {i k b len n : Nat} (ho : s.IsOpen i)
    (hk : (s.openFileTable.cell i).ofInumber = k) (hklt : k < s.inodeTableSize)
    (hn : n = readLen (s.inodeTable.cell k).iSize (s.openFileTable.cell i).ofOffset len) (hpos : 0 < n)
    (hb : (s.inodeTable.cell k).iDataBlock = b) (hlt : b < s.dataBlocks)
    (hle : b * s.blockSize + (s.openFileTable.cell i).ofOffset + n ≤ s.dataBlocks * s.blockSize) :
    tfsRead s i len = .ok ((n : Int), (Mem.ptr s.fsData.cell
      (b * s.blockSize + (s.openFileTable.cell i).ofOffset)).bytes n,
      s.seek i ((s.openFileTable.cell i).ofOffset + n)) := by
  have hino : inodeGet s (s.openFileTable.cell i).ofInumber = .ok k := by rw [hk, inodeGet_natCast hklt]
  have hin : s.inData (b * s.blockSize + (s.openFileTable.cell i).ofOffset) n = true := by
    rw [State.inData_eq h.data.bytes, decide_eq_true_eq]
    exact hle
  have hmax := (h.root.sane.block_lt hlt).2
  have hsz : toSize ((s.openFileTable.cell i).ofOffset + n) = (s.openFileTable.cell i).ofOffset + n :=
    toSize_of_lt (by omega)
  simp only [tfsRead, getOpenFileEntry_natCast ho, hino, ok_bind, ← hn, hpos.ne', ↓reduceIte, hb,
    dataBlockGet_natCast h.root.sane hlt, hin, Bool.not_true, Bool.false_eq_true, pure_eq_ok, hsz,
    toSsize_of_lt (show n < 2 ^ 63 by omega), State.seek]

/-- Every `tfs_read` that returns is one of its outcomes. -/
theorem tfsRead_outcome (h : FsInv s L) {fh : Int} {len : Nat} {res : Int × List UInt8 × State}
    (hr : tfsRead s fh len = .ok res) : ReadOutcome s len fh res := by
  cases hget : getOpenFileEntry s fh with
  | none =>
      have he : tfsRead s fh len = .ok (-1, [], s) := by simp only [tfsRead, hget, pure_eq_ok]
      rw [he] at hr
      cases hr
      exact .closed hget
  | some i =>
      obtain ⟨rfl, ho⟩ := getOpenFileEntry_eq_some.mp hget
      obtain ⟨k, hk, hkpos, hklt⟩ := h.data.handleIno i ho
      have hino : inodeGet s (s.openFileTable.cell i).ofInumber = .ok k := by
        rw [hk, inodeGet_natCast hklt]
      obtain ⟨n, hn⟩ : ∃ n, n = readLen (s.inodeTable.cell k).iSize (s.openFileTable.cell i).ofOffset len :=
        ⟨_, rfl⟩
      rcases Nat.eq_zero_or_pos n with h0 | hpos
      · rw [tfsRead_nothing ho hk hklt (by rw [← hn, h0])] at hr
        cases hr
        exact .nothing ho hk (by rw [← hn, h0])
      by_cases hv : s.validBlockNumber (s.inodeTable.cell k).iDataBlock = true
      · obtain ⟨b, hb, hlt⟩ := validBlockNumber_iff.mp hv
        by_cases hle : b * s.blockSize + (s.openFileTable.cell i).ofOffset + n ≤ s.dataBlocks * s.blockSize
        · rw [tfsRead_data h ho hk hklt hn hpos hb hlt hle] at hr
          cases hr
          exact .data ho hk hn hpos hb hlt hle
        · have hin : s.inData (b * s.blockSize + (s.openFileTable.cell i).ofOffset) n = false := by
            rw [State.inData_eq h.data.bytes, decide_eq_false_iff_not]
            exact hle
          simp only [tfsRead, hget, hino, ok_bind, ← hn, hpos.ne', ↓reduceIte, hb,
            dataBlockGet_natCast h.root.sane hlt, hin, Bool.not_false, throw_eq_error, error_bind,
            reduceCtorEq] at hr
      · have hpan : ∃ e, dataBlockGet s (s.inodeTable.cell k).iDataBlock = .error e :=
          ⟨.panic "data_block_get: invalid block number", by
            simp only [dataBlockGet, alwaysAssert, hv, Bool.false_eq_true, ↓reduceIte, error_bind]⟩
        obtain ⟨e, he⟩ := hpan
        simp only [tfsRead, hget, hino, ok_bind, ← hn, hpos.ne', ↓reduceIte, he, error_bind,
          reduceCtorEq] at hr

/-- A read through a handle whose offset is at most the size of its inode returns. -/
theorem tfsRead_ok (h : FsInv s L) {i k : Nat} (ho : s.IsOpen i)
    (hk : (s.openFileTable.cell i).ofInumber = k)
    (hoff : (s.openFileTable.cell i).ofOffset ≤ (s.inodeTable.cell k).iSize) (len : Nat) :
    ∃ res, tfsRead s i len = .ok res := by
  obtain ⟨k', hk', hkpos, hklt⟩ := h.data.handleIno i ho
  obtain rfl : k' = k := by rw [hk] at hk'; omega
  have hu : s.InUse k' := ⟨hklt, Or.inr ⟨i, ho, hk⟩⟩
  have hsize := h.data.size_le k' hkpos hu
  have hbs := h.root.sane.blockSize_lt'
  have hlen := readLen_of_le hoff (by omega) len
  rcases Nat.eq_zero_or_pos (min len ((s.inodeTable.cell k').iSize - (s.openFileTable.cell i).ofOffset)) with
    hn | hn
  · exact ⟨_, tfsRead_nothing ho hk hklt (by rw [hlen, hn])⟩
  · obtain ⟨b, hb, hlt, -⟩ := h.data.block k' hkpos hu (by omega)
    have hblk := (h.root.sane.block_lt hlt).1
    exact ⟨_, tfsRead_data h ho hk hklt hlen.symm hn hb hlt (by omega)⟩

end FsInv

end Mbroker.Fs
