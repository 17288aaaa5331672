import Mbroker.Fs.Lemmas.Pointers

/-!
# A start-up that fails

What `tfs_init` leaves when it returns -1, before the tables were allocated and after.
-/

namespace Mbroker.Fs

open Mbroker.Lib

variable {m : Malloc} {s s' : State} {params : TfsParams} {p : Option TfsParams}

/-! ## States -/

/-- Every pointer is NULL. -/
def State.Uninitialised (s : State) : Prop := ∀ b ∈ s.pointers.2, b = none

/-- `tfs_init` returned 0, and operations ran since. -/
def State.Running (s : State) : Prop :=
  ∃ m s₀ p s₁ cs, tfsInit m s₀ p = .ok (0, s₁) ∧ Steps Step s₁ cs s

/-- The condition under which a `tfs_init` that fails leaves the state as it was: the parameters are those in force,
and the tables are already there or no `malloc` succeeded. -/
def KeepsState (m : Malloc) (s : State) (params : TfsParams) : Prop :=
  params = s.fsParams ∧ (s.inodeTable.isNull = false ∨ m.inodeTable = none ∧ m.freeinodeTs = none ∧ m.fsData = none ∧
    m.freeBlocks = none ∧ m.openFileTable = none ∧ m.freeOpenFileEntries = none)

theorem State.uninitialised_static : State.static.Uninitialised := by simp [Uninitialised, pointers, static]

/-! ## state_init -/

theorem Table.bytes_malloc {α : Type} (n : Nat) (t : Table α) (c : Option (Nat → α)) :
    (t.malloc n c).bytes = c.map fun _ => n := by
  cases c <;> rfl

theorem Table.malloc_none {α : Type} {t : Table α} (h : t.bytes = none) (n : Nat) : t.malloc n none = t := by
  cases t
  cases h
  rfl

/-- The tables are there, so that nothing but `fs_params` is assigned. -/
theorem stateInit_of_not_null (h : s.inodeTable.isNull = false) :
    stateInit m s params = (-1, { s with fsParams := params }) := by
  simp [stateInit, h]

/-- Whether it returns 0 or -1, `state_init` assigns every pointer. -/
theorem stateInit_pointers (h : s.inodeTable.isNull = true) : (stateInit m s params).2.pointers =
    (params, [m.inodeTable.map fun _ => toSize (params.maxInodeCount * sizeofInode),
      m.freeinodeTs.map fun _ => toSize (params.maxInodeCount * sizeofAllocationState),
      m.fsData.map fun _ => toSize (params.maxBlockCount * params.blockSize),
      m.freeBlocks.map fun _ => toSize (params.maxBlockCount * sizeofAllocationState),
      m.openFileTable.map fun _ => toSize (params.maxOpenFilesCount * sizeofOpenFileEntry),
      m.freeOpenFileEntries.map fun _ => toSize (params.maxOpenFilesCount * sizeofAllocationState)]) := by
  simp only [stateInit, h, ↓reduceIte]
  split <;> simp only [State.pointers, Table.fill, Table.bytes_malloc] <;> rfl

theorem stateInit_zero (h : stateInit m s params = (0, s')) : s'.inodeTable.isNull = false := by
  unfold stateInit at h
  dsimp only at h
  split at h
  · split at h
    · cases h
    · rename_i hnull
      cases h
      simp only [Bool.or_eq_true, not_or] at hnull
      exact Bool.eq_false_iff.mpr hnull.1.1.1.1.1
  · cases h

/-! ## tfs_init -/

/-- What `state_init` leaves is changed by the creation of the root directory only. -/
theorem tfsInit_cases {r : Int} (he : tfsInit m s p = .ok (r, s')) :
    r = -1 ∧ (stateInit m s (p.getD tfsDefaultParams)).1 ≠ 0 ∧ s' = (stateInit m s (p.getD tfsDefaultParams)).2 ∨
    (stateInit m s (p.getD tfsDefaultParams)).1 = 0 ∧
      ∃ root, inodeCreate (stateInit m s (p.getD tfsDefaultParams)).2 .directory = .ok (root, s') := by
  unfold tfsInit at he
  dsimp only at he
  split at he
  · rename_i hr
    cases he
    exact Or.inl ⟨rfl, hr, rfl⟩
  · rename_i hr
    obtain ⟨⟨root, s₁⟩, hroot, he⟩ := bind_eq_ok he
    refine Or.inr ⟨not_not.mp hr, root, ?_⟩
    dsimp only at he
    split at he <;> cases he <;> exact hroot

theorem tfsInit_pointers {r : Int} (he : tfsInit m s p = .ok (r, s')) :
    s'.pointers = (stateInit m s (p.getD tfsDefaultParams)).2.pointers := by
  obtain ⟨-, -, rfl⟩ | ⟨-, root, hroot⟩ := tfsInit_cases he
  · rfl
  · exact inodeCreate_pointers hroot

theorem State.Running.not_null (h : s.Running) : s.inodeTable.isNull = false := by
  obtain ⟨m, s₀, p, s₁, cs, hinit, hrun⟩ := h
  have hsame := hrun.invariant (I := fun s => s.pointers = s₁.pointers) (fun _ _ _ hI hs => hs.pointers.trans hI) rfl
  obtain ⟨hr, -, -⟩ | ⟨hr, -⟩ := tfsInit_cases hinit
  · cases hr
  · rw [Table.isNull, State.pointers_inodeTable (hsame.trans (tfsInit_pointers hinit))]
    exact stateInit_zero (Prod.ext hr rfl)

/-- Of an initialised TecnicoFS only `fs_params` changes. -/
theorem tfsInit_of_not_null (h : s.inodeTable.isNull = false) :
    tfsInit m s p = .ok (-1, { s with fsParams := p.getD tfsDefaultParams }) := by
  simp only [tfsInit, stateInit_of_not_null h]
  rfl

/-- Without memory the state is the one before, but for `fs_params`. -/
theorem State.Uninitialised.tfsInit_eq (h : s.Uninitialised) (hm : m.inodeTable = none ∧ m.freeinodeTs = none ∧
    m.fsData = none ∧ m.freeBlocks = none ∧ m.openFileTable = none ∧ m.freeOpenFileEntries = none) :
    tfsInit m s p = .ok (-1, { s with fsParams := p.getD tfsDefaultParams }) := by
  obtain ⟨hit, hft, hfd, hfb, hot, hof⟩ := hm
  simp only [Uninitialised, pointers, List.mem_cons, List.not_mem_nil, or_false, forall_eq_or_imp, forall_eq] at h
  obtain ⟨hit', hft', hfd', hfb', hot', hof'⟩ := h
  have hnull : s.inodeTable.isNull = true := by rw [Table.isNull, hit', Option.isNone_none]
  have hfail : stateInit m s (p.getD tfsDefaultParams) = (-1, { s with fsParams := p.getD tfsDefaultParams }) := by
    simp only [stateInit, hit, hft, hfd, hfb, hot, hof, Table.malloc_none hit', Table.malloc_none hft',
      Table.malloc_none hfd', Table.malloc_none hfb', Table.malloc_none hot', Table.malloc_none hof', hnull, ↓reduceIte,
      Bool.true_or]
  rw [tfsInit, hfail]
  rfl

theorem State.Uninitialised.tfsInit_unchanged (h : s.Uninitialised) (he : tfsInit m s p = .ok (-1, s')) :
    s' = s ↔ KeepsState m s (p.getD tfsDefaultParams) := by
  have hnull : s.inodeTable.isNull = true := by
    rw [Table.isNull, h s.inodeTable.bytes (List.mem_cons_self ..), Option.isNone_none]
  constructor
  · intro hsame
    have hptr := tfsInit_pointers he
    rw [hsame, stateInit_pointers hnull] at hptr
    rw [State.Uninitialised, hptr] at h
    simp only [List.mem_cons, List.not_mem_nil, or_false, forall_eq_or_imp, forall_eq, Option.map_eq_none_iff] at h
    exact ⟨(congrArg Prod.fst hptr).symm, Or.inr h⟩
  · rintro ⟨hp, hthere | hm⟩
    · rw [hthere] at hnull
      cases hnull
    · rw [h.tfsInit_eq hm] at he
      cases he
      rw [hp]

theorem State.Running.tfsInit_unchanged (h : s.Running) (he : tfsInit m s p = .ok (-1, s')) :
    s' = s ↔ KeepsState m s (p.getD tfsDefaultParams) := by
  rw [tfsInit_of_not_null h.not_null] at he
  cases he
  constructor
  · intro hsame
    exact ⟨congrArg State.fsParams hsame, Or.inl h.not_null⟩
  · rintro ⟨hp, -⟩
    rw [hp]

end Mbroker.Fs
