import Mbroker.Fs.Lemmas.Preservation

/-!
# Reads and the end of the file

`tfs_read` subtracts the offset of the handle from the size of the inode. The subtraction is right as long as no
handle is behind the end of its inode; a call that empties the inode of a handle with a positive offset breaks
this.
-/

namespace Mbroker.Fs

open Mbroker.Lib

variable {s s' : State} {L : Layout}

/-- No `ALWAYS_ASSERT` fails in the call. -/
def NoPanic (s : State) (c : Call) : Prop := ∀ msg, exec s c ≠ .error (.panic msg)

/-- A read through an open handle copies what lies between the offset and the size, at most `len` bytes, and
the subtraction does not wrap. -/
def ReadInside (s : State) (fhandle : Int) (len : Nat) : Prop :=
  ∀ i k : Nat, getOpenFileEntry s fhandle = some i → (s.openFileTable.cell i).ofInumber = k →
    (s.openFileTable.cell i).ofOffset ≤ (s.inodeTable.cell k).iSize ∧
    ∃ (n : Nat) (data : List UInt8) (s' : State), tfsRead s fhandle len = .ok (n, data, s') ∧ data.length = n ∧
      n = min len ((s.inodeTable.cell k).iSize - (s.openFileTable.cell i).ofOffset)

/-- Opening `p` empties the inode: it truncates a file that has contents, or gives the inode to a new file. -/
def OpenEmpties (s : State) (p : CString) (mode : Nat) (inumber : Int) : Prop :=
  tfsLookup s p 0 = .ok inumber ∧ hasFlag mode tfsOTrunc ∧ 0 < (s.inodeTable.cell inumber.toNat).iSize ∨
  validPathname p ∧ tfsLookup s p 0 = .ok (-1) ∧ hasFlag mode tfsOCreat ∧
    firstFree s.freeinodeTs s.inodeTableSize = some inumber.toNat

instance (s : State) (p : CString) (mode : Nat) (inumber : Int) : Decidable (OpenEmpties s p mode inumber) := by
  unfold OpenEmpties; infer_instance

/-- The call does not empty the inode of a handle with a positive offset. -/
def KeepsOffsets (s : State) : Call → Prop
  | .open (some p) mode => ∀ i < s.maxOpenFiles, s.IsOpen i → 0 < (s.openFileTable.cell i).ofOffset →
      ¬ OpenEmpties s p mode (s.openFileTable.cell i).ofInumber
  | _ => True

instance (s : State) : DecidablePred (KeepsOffsets s)
  | .open (some p) mode => inferInstanceAs (Decidable (∀ i < s.maxOpenFiles, s.IsOpen i →
      0 < (s.openFileTable.cell i).ofOffset → ¬ OpenEmpties s p mode (s.openFileTable.cell i).ofInumber))
  | .open none _ => .isTrue trivial
  | .close _ => .isTrue trivial
  | .read _ _ => .isTrue trivial
  | .write _ _ _ => .isTrue trivial
  | .unlink _ => .isTrue trivial

/-- No handle is behind the end of its inode. -/
def OffsetsInside (s : State) : Prop :=
  ∀ i k : Nat, s.IsOpen i → (s.openFileTable.cell i).ofInumber = k →
    (s.openFileTable.cell i).ofOffset ≤ (s.inodeTable.cell k).iSize

namespace OffsetsInside

theorem addToOpenFileTable (h : OffsetsInside s) {k off : Nat} (hoff : off ≤ (s.inodeTable.cell k).iSize) :
    OffsetsInside (addToOpenFileTable s k off).2 := by
  rw [addToOpenFileTable_eq]
  cases firstFree s.freeOpenFileEntries s.maxOpenFiles with
  | none => exact h
  | some i =>
      intro j k' ho hk
      obtain ⟨hlt, hj⟩ := State.isOpen_openAt.mp ho
      by_cases hji : j = i
      · simp only [State.openAt, hji, Table.set_cell_same] at hk ⊢
        obtain rfl : k' = k := by omega
        exact hoff
      · simp only [State.openAt, Table.set_cell_ne _ _ hji] at hk ⊢
        exact h j k' ⟨hlt, hj.resolve_left hji⟩ hk

theorem emptied (h : OffsetsInside s) {k₀ : Nat} (hopen : ∀ i, s'.IsOpen i ↔ s.IsOpen i)
    (hfile : s'.openFileTable = s.openFileTable)
    (hcell : ∀ k, k ≠ k₀ → s'.inodeTable.cell k = s.inodeTable.cell k)
    (hzero : ∀ i, s.IsOpen i → (s.openFileTable.cell i).ofInumber = k₀ → (s.openFileTable.cell i).ofOffset = 0) :
    OffsetsInside s' := by
  intro i k ho hk
  rw [hopen] at ho
  rw [hfile] at hk ⊢
  by_cases hkk : k = k₀
  · rw [hzero i ho (by rw [hk, hkk])]
    exact Nat.zero_le _
  · rw [hcell k hkk]
    exact h i k ho hk

theorem seek (h : OffsetsInside s) {i k off : Nat} (hk : (s.openFileTable.cell i).ofInumber = k)
    (hoff : off ≤ (s.inodeTable.cell k).iSize) : OffsetsInside (s.seek i off) := by
  intro j k' ho hk'
  rw [State.seek_ofInumber] at hk'
  rw [State.seek_ofOffset]
  split
  · rename_i hji
    subst hji
    obtain rfl : k' = k := by omega
    exact hoff
  · exact h j k' ho hk'

/-- A write moves the handle to the end of what it wrote, and an inode never shrinks by it. -/
theorem writeAt (h : OffsetsInside s) {i k b n : Nat} {buffer : Mem}
    (hk : (s.openFileTable.cell i).ofInumber = k) : OffsetsInside (s.writeAt i k b buffer n) := by
  have hsize : ∀ k', (s.inodeTable.cell k').iSize ≤ ((s.writeAt i k b buffer n).inodeTable.cell k').iSize := by
    intro k'
    by_cases hkk : k' = k
    · rw [hkk, State.writeAt_inode]
      exact le_max_left _ _
    · rw [State.writeAt_inode_ne hkk]
  intro j k' ho hk'
  rw [State.writeAt_ofInumber] at hk'
  rw [State.writeAt_ofOffset]
  split
  · rename_i hji
    subst hji
    obtain rfl : k' = k := by omega
    rw [State.writeAt_inode]
    exact le_max_right _ _
  · exact (h j k' ho hk').trans (hsize k')

theorem takeBlock (h : OffsetsInside s) (k b : Nat) : OffsetsInside (s.takeBlock k b) := by
  have hsize : ∀ k', ((s.takeBlock k b).inodeTable.cell k').iSize = (s.inodeTable.cell k').iSize := by
    intro k'
    by_cases hkk : k' = k
    · rw [hkk, State.takeBlock_inode]
    · rw [State.takeBlock_inode_ne hkk]
  intro i k' ho hk'
  rw [hsize]
  exact h i k' ho hk'

theorem step (h : OffsetsInside s) (hinv : FsInv s L) {c : Call} (hg : KeepsOffsets s c) (hs : Step s c s') :
    OffsetsInside s' := by
  obtain ⟨r, hr⟩ := hs
  cases hinv.exec_outcome hr with
  | «open» ho =>
      cases ho with
      | null => exact h
      | invalid hp => exact h
      | absent hp hn hc => exact h
      | noInode hp hn hc hk => exact h
      | noEntry hp hn hc hk hfull =>
          rename_i p k
          refine h.emptied (fun _ => Iff.rfl) rfl (fun k' hkk => Table.set_cell_ne _ _ hkk) fun i ho hik => ?_
          by_contra hpos
          refine hg i ho.1 ho (Nat.pos_of_ne_zero hpos) (Or.inr ⟨hp, ?_, hc, by rw [hk, hik, Int.toNat_natCast]⟩)
          rw [tfsLookup_eq hinv.root hp, if_neg hn]
      | existing hp hn ht =>
          refine h.addToOpenFileTable ?_
          split
          · exact Nat.le_refl _
          · exact Nat.zero_le _
      | truncated hp hn hf hsize =>
          rename_i p
          have htr : OffsetsInside (s.truncateInode (L.ino p.tail.chars)) := by
            refine h.emptied (fun _ => Iff.rfl) rfl (fun k' hkk => Table.set_cell_ne _ _ hkk) fun i ho hik => ?_
            by_contra hpos
            refine hg i ho.1 ho (Nat.pos_of_ne_zero hpos)
              (Or.inl ⟨?_, hf, by rw [hik, Int.toNat_natCast]; exact hsize⟩)
            rw [tfsLookup_eq hinv.root hp, if_pos hn, hik]
          exact htr.addToOpenFileTable (Nat.zero_le _)
      | created hp hn hc hk hlen hi =>
          rename_i p k i
          have hcr : OffsetsInside (s.createFile i k p.tail) := by
            refine h.emptied (fun _ => Iff.rfl) rfl (fun k' hkk => Table.set_cell_ne _ _ hkk) fun j ho hjk => ?_
            by_contra hpos
            refine hg j ho.1 ho (Nat.pos_of_ne_zero hpos)
              (Or.inr ⟨hp, ?_, hc, by rw [hk, hjk, Int.toNat_natCast]⟩)
            rw [tfsLookup_eq hinv.root hp, if_neg hn]
          exact hcr.addToOpenFileTable (Nat.zero_le _)
  | notOpen hget => exact h
  | close hget => exact fun j k ho hk => h j k (State.isOpen_closeAt.mp ho).2 hk
  | read ho =>
      cases ho with
      | closed hget => exact h
      | nothing hi hk hn => exact h
      | data hi hk hn hpos hb hlt hle =>
          rename_i i k b n
          have hoff := h i k hi hk
          obtain ⟨k', hk', hkpos, hklt⟩ := hinv.data.handleIno i hi
          obtain rfl : k' = k := by omega
          have hsz := hinv.data.size_le k' hkpos ⟨hklt, Or.inr ⟨i, hi, hk⟩⟩
          have hbs := hinv.root.sane.blockSize_lt'
          rw [readLen_of_le hoff (by omega)] at hn
          exact h.seek hk (by omega)
  | write ho =>
      cases ho with
      | closed hget => exact h
      | nothing hi hk hn => exact h
      | noBlock hi hk hn hsize hb => exact h
      | fresh hi hk hn hpos hfit hsize hb => exact (h.takeBlock _ _).writeAt hk
      | inPlace hi hk hn hpos hfit hsize hb hlt => exact h.writeAt hk
  | unlink ho =>
      cases ho with
      | null => exact h
      | invalid hp => exact h
      | absent hp hn => exact h
      | removed hp hn => exact fun i k ho hk => h i k ho hk

theorem steps {cs : List Call} (hrun : Steps (Guarded KeepsOffsets Step) s cs s') (hinv : FsInv s L)
    (h : OffsetsInside s) : OffsetsInside s' ∧ ∃ L', FsInv s' L' :=
  hrun.invariant (I := fun s => OffsetsInside s ∧ ∃ L, FsInv s L)
    (fun _ _ _ ⟨hoff, _, hI⟩ ⟨hg, hs⟩ => ⟨hoff.step hI hg hs, hI.step hs⟩) ⟨h, L, hinv⟩

end OffsetsInside

namespace FsInv

/-- Only a read can fail an assertion. -/
theorem noPanic (h : FsInv s L) {c : Call} (hread : ∀ fhandle len, c ≠ .read fhandle len) : NoPanic s c := by
  intro msg he
  cases c with
  | «open» name mode =>
      obtain ⟨res, hres, -⟩ := h.tfsOpen_outcome name mode
      rw [exec, hres, ok_bind] at he
      cases he
  | close fhandle =>
      rw [exec, tfsClose_eq, ok_bind] at he
      cases he
  | read fhandle len => exact hread fhandle len rfl
  | write fhandle buffer n =>
      rcases h.tfsWrite_outcome fhandle buffer n with ⟨res, hres, -⟩ | ⟨hres, -⟩
      · rw [exec, hres, ok_bind] at he
        cases he
      · rw [exec, hres, error_bind] at he
        cases he
  | unlink target =>
      obtain ⟨res, hres, -⟩ := h.tfsUnlink_outcome target
      rw [exec, hres, ok_bind] at he
      cases he

theorem readInside (h : FsInv s L) (hoff : OffsetsInside s) (fhandle : Int) (len : Nat) :
    ReadInside s fhandle len := by
  intro i k hget hk
  obtain ⟨rfl, ho⟩ := getOpenFileEntry_eq_some.mp hget
  have hle := hoff i k ho hk
  obtain ⟨res, hres⟩ := h.tfsRead_ok ho hk hle len
  obtain ⟨k', hk', hkpos, hklt⟩ := h.data.handleIno i ho
  obtain rfl : k' = k := by omega
  have hsz := h.data.size_le k' hkpos ⟨hklt, Or.inr ⟨i, ho, hk⟩⟩
  have hbs := h.root.sane.blockSize_lt'
  have hlen := readLen_of_le hle (by omega) len
  refine ⟨hle, ?_⟩
  cases h.tfsRead_outcome hres with
  | closed hget' =>
      rw [getOpenFileEntry_natCast ho] at hget'
      cases hget'
  | nothing hi hk₁ hn =>
      rename_i k₁
      obtain rfl : k₁ = k' := by omega
      exact ⟨0, [], s, hres, rfl, by rw [← hlen, hn]⟩
  | data hi hk₁ hn hpos hb hlt hend =>
      rename_i k₁ b n
      obtain rfl : k₁ = k' := by omega
      exact ⟨n, _, _, hres, Mem.length_bytes _ _, by rw [hn, hlen]⟩

theorem noPanic_of_offsets (h : FsInv s L) (hoff : OffsetsInside s) (c : Call) : NoPanic s c := by
  by_cases hread : ∃ fhandle len, c = .read fhandle len
  · obtain ⟨fh, len, rfl⟩ := hread
    intro msg he
    cases hget : getOpenFileEntry s fh with
    | none =>
        have hres : tfsRead s fh len = .ok (-1, [], s) := by simp only [tfsRead, hget, pure_eq_ok]
        rw [exec, hres, ok_bind] at he
        cases he
    | some i =>
        obtain ⟨rfl, ho⟩ := getOpenFileEntry_eq_some.mp hget
        obtain ⟨k, hk, -⟩ := h.data.handleIno i ho
        obtain ⟨-, n, data, s', hres, -⟩ := h.readInside hoff i len i k hget hk
        rw [exec, hres, ok_bind] at he
        cases he
  · exact h.noPanic fun fhandle len he => hread ⟨fhandle, len, he⟩

end FsInv

end Mbroker.Fs
