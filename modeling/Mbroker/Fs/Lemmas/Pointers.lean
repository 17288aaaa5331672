import Mbroker.Fs.Lemmas.Basic

/-!
# The parameters and the pointers

`fs_params` and the pointers to the tables are assigned by `state_init` only: every other function keeps them, in
any state.
-/

namespace Mbroker.Fs

open Mbroker.Lib

variable {s s' : State} {r : Int}

namespace State

/-- `fs_params` and the pointers to the six tables. -/
def pointers (s : State) : TfsParams × List (Option Nat) :=
  (s.fsParams, [s.inodeTable.bytes, s.freeinodeTs.bytes, s.fsData.bytes, s.freeBlocks.bytes, s.openFileTable.bytes,
    s.freeOpenFileEntries.bytes])

theorem pointers_inodeTable (h : s'.pointers = s.pointers) : s'.inodeTable.bytes = s.inodeTable.bytes := by
  simp only [pointers, Prod.mk.injEq, List.cons.injEq] at h
  exact h.2.1

theorem clearDirEntries_pointers (s : State) (p n : Nat) : (clearDirEntries s p n).pointers = s.pointers := by
  induction n with
  | zero => rfl
  | succ n ih =>
      simp only [clearDirEntries, List.range_succ, List.foldl_append, List.foldl_cons, List.foldl_nil]
      exact ih

end State

/-! ## Blocks and inodes -/

theorem dataBlockAlloc_pointers (h : dataBlockAlloc s = .ok (r, s')) : s'.pointers = s.pointers := by
  obtain ⟨o, -, h⟩ := bind_eq_ok h
  cases o with
  | none =>
      cases h
      rfl
  | some i =>
      have hs : _ = s' := congrArg Prod.snd (Except.ok.inj h)
      rw [← hs]
      rfl

theorem dataBlockFree_pointers {b : Int} (h : dataBlockFree s b = .ok s') : s'.pointers = s.pointers := by
  obtain ⟨_, -, h⟩ := bind_eq_ok h
  cases h
  rfl

theorem inodeAlloc_pointers (h : inodeAlloc s = .ok (r, s')) : s'.pointers = s.pointers := by
  obtain ⟨o, -, h⟩ := bind_eq_ok h
  cases o with
  | none =>
      cases h
      rfl
  | some i =>
      have hs : _ = s' := congrArg Prod.snd (Except.ok.inj h)
      rw [← hs]
      rfl

theorem inodeDelete_pointers {k : Int} (h : inodeDelete s k = .ok s') : s'.pointers = s.pointers := by
  obtain ⟨_, -, h⟩ := bind_eq_ok h
  obtain ⟨_, -, h⟩ := bind_eq_ok h
  dsimp only at h
  split at h
  · obtain ⟨s₁, h₁, h⟩ := bind_eq_ok h
    have hs₁ := dataBlockFree_pointers h₁
    cases h
    exact hs₁
  · cases h
    rfl

theorem inodeCreate_pointers {iType : InodeType} (h : inodeCreate s iType = .ok (r, s')) :
    s'.pointers = s.pointers := by
  obtain ⟨⟨k, s₁⟩, h₁, h⟩ := bind_eq_ok h
  have hs₁ := inodeAlloc_pointers h₁
  dsimp only at h
  split at h
  · cases h
    exact hs₁
  obtain ⟨i, -, h⟩ := bind_eq_ok h
  cases iType with
  | file =>
      cases h
      exact hs₁
  | directory =>
      obtain ⟨⟨b, s₂⟩, h₂, h⟩ := bind_eq_ok h
      have hs₂ := (dataBlockAlloc_pointers h₂).trans hs₁
      dsimp only at h
      split at h
      · obtain ⟨s₃, h₃, h⟩ := bind_eq_ok h
        cases h
        exact (inodeDelete_pointers h₃).trans hs₂
      · obtain ⟨p, -, h⟩ := bind_eq_ok h
        cases h
        exact (State.clearDirEntries_pointers _ _ _).trans hs₂

/-! ## The directory and the handles -/

theorem clearDirEntry_pointers {inode : Nat} {name : CString} (h : clearDirEntry s inode name = .ok (r, s')) :
    s'.pointers = s.pointers := by
  unfold clearDirEntry at h
  split at h
  · cases h
    rfl
  · obtain ⟨p, -, h⟩ := bind_eq_ok h
    split at h <;> cases h <;> rfl

theorem addDirEntry_pointers {inode : Nat} {name : CString} {k : Int}
    (h : addDirEntry s inode name k = .ok (r, s')) : s'.pointers = s.pointers := by
  unfold addDirEntry at h
  split at h
  · cases h
    rfl
  split at h
  · cases h
    rfl
  · obtain ⟨p, -, h⟩ := bind_eq_ok h
    dsimp only at h
    split at h <;> cases h <;> rfl

theorem addToOpenFileTable_pointers (s : State) (k : Int) (off : Nat) :
    (addToOpenFileTable s k off).2.pointers = s.pointers := by
  unfold addToOpenFileTable
  split <;> rfl

/-! ## The operations -/

theorem truncate_pointers {i mode : Nat} (h : truncate s i mode = .ok s') : s'.pointers = s.pointers := by
  unfold truncate at h
  split at h
  · obtain ⟨s₁, h₁, h⟩ := bind_eq_ok h
    have hs₁ := dataBlockFree_pointers h₁
    rw [← Except.ok.inj h]
    exact hs₁
  · cases h
    rfl

theorem tfsOpen_pointers {name : Option CString} {mode : Nat} (h : tfsOpen s name mode = .ok (r, s')) :
    s'.pointers = s.pointers := by
  cases name with
  | none =>
      cases h
      rfl
  | some p =>
      unfold tfsOpen at h
      dsimp only at h
      split at h
      · cases h
        rfl
      obtain ⟨root, -, h⟩ := bind_eq_ok h
      obtain ⟨inum, -, h⟩ := bind_eq_ok h
      split at h
      · obtain ⟨i, -, h⟩ := bind_eq_ok h
        obtain ⟨s₁, h₁, h⟩ := bind_eq_ok h
        have hs : _ = s' := congrArg Prod.snd (Except.ok.inj h)
        rw [← hs, addToOpenFileTable_pointers]
        exact truncate_pointers h₁
      split at h
      swap
      · cases h
        rfl
      obtain ⟨⟨k, s₁⟩, h₁, h⟩ := bind_eq_ok h
      have hs₁ := inodeCreate_pointers h₁
      dsimp only at h
      split at h
      · cases h
        exact hs₁
      obtain ⟨⟨r', s₂⟩, h₂, h⟩ := bind_eq_ok h
      have hs₂ := (addDirEntry_pointers h₂).trans hs₁
      dsimp only at h
      split at h
      · obtain ⟨s₃, h₃, h⟩ := bind_eq_ok h
        cases h
        exact (inodeDelete_pointers h₃).trans hs₂
      · have hs : _ = s' := congrArg Prod.snd (Except.ok.inj h)
        rw [← hs, addToOpenFileTable_pointers]
        exact hs₂

theorem writeData_pointers {i k n : Nat} {buffer : Mem} (h : writeData s i k buffer n = .ok (r, s')) :
    s'.pointers = s.pointers := by
  obtain ⟨block, -, h⟩ := bind_eq_ok h
  dsimp only at h
  split at h
  · cases h
  split at h
  · have hs : _ = s' := congrArg Prod.snd (Except.ok.inj h)
    rw [← hs]
    rfl
  · have hs : _ = s' := congrArg Prod.snd (Except.ok.inj h)
    rw [← hs]
    rfl

theorem tfsWrite_pointers {fhandle : Int} {buffer : Mem} {n : Nat}
    (h : tfsWrite s fhandle buffer n = .ok (r, s')) : s'.pointers = s.pointers := by
  unfold tfsWrite at h
  cases hget : getOpenFileEntry s fhandle with
  | none =>
      rw [hget] at h
      cases h
      rfl
  | some i =>
      rw [hget] at h
      obtain ⟨k, -, h⟩ := bind_eq_ok h
      dsimp only at h
      split at h
      · cases h
        rfl
      split at h
      · obtain ⟨⟨b, s₁⟩, h₁, h⟩ := bind_eq_ok h
        have hs₁ := dataBlockAlloc_pointers h₁
        dsimp only at h
        split at h
        · cases h
          exact hs₁
        · exact (writeData_pointers h).trans hs₁
      · exact writeData_pointers h

theorem tfsRead_pointers {fhandle : Int} {len : Nat} {data : List UInt8}
    (h : tfsRead s fhandle len = .ok (r, data, s')) : s'.pointers = s.pointers := by
  unfold tfsRead at h
  cases hget : getOpenFileEntry s fhandle with
  | none =>
      rw [hget] at h
      cases h
      rfl
  | some i =>
      rw [hget] at h
      obtain ⟨k, -, h⟩ := bind_eq_ok h
      dsimp only at h
      split at h
      · cases h
        rfl
      obtain ⟨b, -, h⟩ := bind_eq_ok h
      split at h
      · cases h
      · have hs : _ = s' := congrArg (fun x => x.2.2) (Except.ok.inj h)
        rw [← hs]
        rfl

theorem tfsUnlink_pointers {target : Option CString} (h : tfsUnlink s target = .ok (r, s')) :
    s'.pointers = s.pointers := by
  cases target with
  | none =>
      cases h
      rfl
  | some p =>
      unfold tfsUnlink at h
      dsimp only at h
      split at h
      · cases h
        rfl
      obtain ⟨root, -, h⟩ := bind_eq_ok h
      obtain ⟨inum, -, h⟩ := bind_eq_ok h
      split at h
      · cases h
        rfl
      obtain ⟨s₁, h₁, h⟩ := bind_eq_ok h
      obtain ⟨⟨r', s₂⟩, h₂, h⟩ := bind_eq_ok h
      have hs₂ := (clearDirEntry_pointers h₂).trans (inodeDelete_pointers h₁)
      split at h <;> cases h <;> exact hs₂

/-- No call assigns `fs_params` or a pointer to a table. -/
theorem Step.pointers {c : Call} (hs : Step s c s') : s'.pointers = s.pointers := by
  obtain ⟨ret, h⟩ := hs
  cases c with
  | «open» name mode =>
      obtain ⟨⟨r, s₁⟩, h₁, h⟩ := bind_eq_ok h
      cases h
      exact tfsOpen_pointers h₁
  | close fhandle =>
      rw [exec, tfsClose_eq, ok_bind] at h
      cases hget : getOpenFileEntry s fhandle with
      | none =>
          rw [hget] at h
          cases h
          rfl
      | some i =>
          rw [hget] at h
          cases h
          rfl
  | read fhandle len =>
      obtain ⟨⟨r, data, s₁⟩, h₁, h⟩ := bind_eq_ok h
      cases h
      exact tfsRead_pointers h₁
  | write fhandle buffer n =>
      obtain ⟨⟨r, s₁⟩, h₁, h⟩ := bind_eq_ok h
      cases h
      exact tfsWrite_pointers h₁
  | unlink target =>
      obtain ⟨⟨r, s₁⟩, h₁, h⟩ := bind_eq_ok h
      cases h
      exact tfsUnlink_pointers h₁

theorem Step.fsParams {c : Call} (hs : Step s c s') : s'.fsParams = s.fsParams :=
  congrArg Prod.fst hs.pointers

end Mbroker.Fs
