import Mbroker.Fs.Lemmas.Handles
import Mbroker.Fs.Lemmas.Pointers

/-!
# Who has which block

An inode in use with contents owns its block. What a call does to the owners and to `free_blocks` is one of four
things; that no block has two owners, and when one is left without an owner, follows from these.
-/

namespace Mbroker.Fs

open Mbroker.Lib

variable {s s' : State} {L : Layout} {c : Call}

/-! ## Owners -/

/-- The inode `k` is in use, and has contents in the block `b`. -/
def State.Owns (s : State) (k b : Nat) : Prop :=
  k < s.inodeTableSize ∧ s.freeinodeTs.cell k = .taken ∧ 0 < (s.inodeTable.cell k).iSize ∧
    (s.inodeTable.cell k).iDataBlock = b

instance (s : State) (k b : Nat) : Decidable (s.Owns k b) := by unfold State.Owns; infer_instance

/-- Every TAKEN block is the root directory's, or has an owner. -/
def NoLeak (s : State) : Prop :=
  ∀ b < s.dataBlocks, s.freeBlocks.cell b = .taken → b = s.rootBlock ∨ ∃ k, s.Owns k b

/-- Once no file is left, only the root directory's block is TAKEN. -/
def RootAlone (s : State) : Prop :=
  (∀ i < s.maxDirEntries, (s.rootEntry i).dInumber = -1) →
    ∀ b < s.dataBlocks, s.freeBlocks.cell b = .taken → b = s.rootBlock

/-- The inodes in use that have contents have blocks of their own, in range and TAKEN. -/
structure BlocksOwned (s : State) : Prop where
  valid : ∀ k < s.inodeTableSize, s.freeinodeTs.cell k = .taken → 0 < (s.inodeTable.cell k).iSize →
    ∃ b : Nat, (s.inodeTable.cell k).iDataBlock = b ∧ b < s.dataBlocks ∧ s.freeBlocks.cell b = .taken
  apart : ∀ k < s.inodeTableSize, ∀ k' < s.inodeTableSize, s.freeinodeTs.cell k = .taken →
    s.freeinodeTs.cell k' = .taken → 0 < (s.inodeTable.cell k).iSize → 0 < (s.inodeTable.cell k').iSize →
    (s.inodeTable.cell k).iDataBlock = (s.inodeTable.cell k').iDataBlock → k = k'

/-- The call stores the first bytes of a freed inode. -/
def LosesBlock (s : State) : Call → Prop
  | .write fhandle _ n => ∃ i ∈ getOpenFileEntry s fhandle,
      s.freeinodeTs.cell (s.openFileTable.cell i).ofInumber.toNat = .free ∧
        (s.inodeTable.cell (s.openFileTable.cell i).ofInumber.toNat).iSize = 0 ∧
        0 < writeLen s.blockSize (s.openFileTable.cell i).ofOffset n ∧
        firstFree s.freeBlocks s.dataBlocks ≠ none
  | _ => False

instance (s : State) : DecidablePred (LosesBlock s) := by
  intro c
  induction c using Call.casesOn with
  | write fhandle data n => dsimp only [LosesBlock]; infer_instance
  | _ => exact isFalse id

namespace State

theorem owns_congr {k b : Nat} (hp : s'.fsParams = s.fsParams)
    (ht : s'.freeinodeTs.cell k = s.freeinodeTs.cell k) (hi : s'.inodeTable.cell k = s.inodeTable.cell k) :
    s'.Owns k b ↔ s.Owns k b := by
  simp only [Owns, inodeTableSize, hp, ht, hi]

theorem not_owns_of_empty {k b : Nat} (h : (s.inodeTable.cell k).iSize = 0) : ¬ s.Owns k b := by
  rintro ⟨-, -, hsize, -⟩
  omega

theorem not_owns_of_free {k b : Nat} (h : s.freeinodeTs.cell k = .free) : ¬ s.Owns k b := by
  rintro ⟨-, ht, -⟩
  rw [h] at ht
  cases ht

theorem Owns.block_eq {k b b' : Nat} (h : s.Owns k b) (h' : s.Owns k b') : b = b' := by
  have he := h.2.2.2.symm.trans h'.2.2.2
  omega

end State

namespace FsInv

theorem owns_root (h : FsInv s L) : s.Owns 0 s.rootBlock := by
  obtain ⟨b, hb, -⟩ := validBlockNumber_iff.mp h.root.rootValid
  refine ⟨h.root.inodes_pos, h.root.rootTaken, ?_, ?_⟩
  · rw [h.root.rootSize]
    exact h.root.sane.blockSize_pos
  · rw [State.rootBlock, hb, Int.toNat_natCast]

theorem owns_lt (h : FsInv s L) {k b : Nat} (ho : s.Owns k b) : b < s.dataBlocks := by
  obtain ⟨hlt, ht, hsize, hb⟩ := ho
  rcases Nat.eq_zero_or_pos k with rfl | hk
  · obtain ⟨b', hb', hlt'⟩ := validBlockNumber_iff.mp h.root.rootValid
    omega
  · obtain ⟨b', hb', hlt', -⟩ := h.data.block k hk ⟨hlt, Or.inl ht⟩ hsize
    omega

theorem owns_of_taken (h : FsInv s L) {k : Nat} (hlt : k < s.inodeTableSize) (ht : s.freeinodeTs.cell k = .taken)
    (hsize : 0 < (s.inodeTable.cell k).iSize) : ∃ b, s.Owns k b := by
  rcases Nat.eq_zero_or_pos k with rfl | hk
  · exact ⟨_, h.owns_root⟩
  · obtain ⟨b, hb, -, -⟩ := h.data.block k hk ⟨hlt, Or.inl ht⟩ hsize
    exact ⟨b, hlt, ht, hsize, hb⟩

end FsInv

/-! ## What a call does -/

inductive BlockEffect (s s' : State) : Prop
  | same : (∀ k b, s'.Owns k b ↔ s.Owns k b) → s'.freeBlocks = s.freeBlocks → BlockEffect s s'
  | freed {k b : Nat} : s.Owns k b → (∀ k' b', s'.Owns k' b' ↔ k' ≠ k ∧ s.Owns k' b') →
      s'.freeBlocks = s.freeBlocks.set b .free → BlockEffect s s'
  | taken {k b : Nat} : firstFree s.freeBlocks s.dataBlocks = some b → (∀ b', ¬ s.Owns k b') →
      (∀ k' b', s'.Owns k' b' ↔ k' = k ∧ b' = b ∨ s.Owns k' b') → s'.freeBlocks = s.freeBlocks.set b .taken →
      BlockEffect s s'

/-- A block is taken that no inode in use gets. -/
def LostBlock (s s' : State) : Prop :=
  ∃ b, firstFree s.freeBlocks s.dataBlocks = some b ∧ (∀ k b', s'.Owns k b' ↔ s.Owns k b') ∧
    s'.freeBlocks = s.freeBlocks.set b .taken

namespace State

theorem addToOpenFileTable_owns (s : State) (v : Int) (off : Nat) :
    (∀ k b, (addToOpenFileTable s v off).2.Owns k b ↔ s.Owns k b) ∧
      (addToOpenFileTable s v off).2.freeBlocks = s.freeBlocks := by
  rw [addToOpenFileTable_eq]
  split <;> exact ⟨fun _ _ => Iff.rfl, rfl⟩

theorem setInode_owns {k : Nat} (h : s.freeinodeTs.cell k = .free) (inode : Inode) (k' b : Nat) :
    (s.setInode k inode).Owns k' b ↔ s.Owns k' b := by
  by_cases hk : k' = k
  · subst hk
    exact iff_of_false (not_owns_of_free h) (not_owns_of_free h)
  · exact owns_congr rfl rfl (Table.set_cell_ne _ _ hk)

theorem truncateInode_owns {k : Nat} (k' b : Nat) : (s.truncateInode k).Owns k' b ↔ k' ≠ k ∧ s.Owns k' b := by
  by_cases hk : k' = k
  · subst hk
    have hempty : ((s.truncateInode k').inodeTable.cell k').iSize = 0 :=
      congrArg Inode.iSize (Table.set_cell_same _ _ _)
    exact iff_of_false (not_owns_of_empty hempty) (fun h => h.1 rfl)
  · have hother : (s.truncateInode k).Owns k' b ↔ s.Owns k' b := owns_congr rfl rfl (Table.set_cell_ne _ _ hk)
    simp [hother, hk]

theorem createFile_owns {i k : Nat} {name : CString} (h : s.freeinodeTs.cell k = .free) (k' b : Nat) :
    (s.createFile i k name).Owns k' b ↔ s.Owns k' b := by
  by_cases hk : k' = k
  · subst hk
    have hempty : ((s.createFile i k' name).inodeTable.cell k').iSize = 0 :=
      congrArg Inode.iSize (Table.set_cell_same s.inodeTable k' newFile)
    exact iff_of_false (not_owns_of_empty hempty) (not_owns_of_free h)
  · exact owns_congr rfl (Table.set_cell_ne _ _ hk) (Table.set_cell_ne _ _ hk)

theorem removeFile_owns {i k : Nat} (k' b : Nat) : (s.removeFile i k).Owns k' b ↔ k' ≠ k ∧ s.Owns k' b := by
  by_cases hk : k' = k
  · subst hk
    have hfree : (s.removeFile i k').freeinodeTs.cell k' = .free := Table.set_cell_same _ _ _
    exact iff_of_false (not_owns_of_free hfree) (fun h => h.1 rfl)
  · have hother : (s.removeFile i k).Owns k' b ↔ s.Owns k' b := owns_congr rfl (Table.set_cell_ne _ _ hk) rfl
    simp [hother, hk]

end State

/-- A file with contents loses its block, and one without has none to lose. -/
theorem BlockEffect.of_delete {k : Nat} (hlt : k < s.inodeTableSize) (ht : s.freeinodeTs.cell k = .taken)
    (hb : 0 < (s.inodeTable.cell k).iSize → ∃ b : Nat, (s.inodeTable.cell k).iDataBlock = b)
    (howns : ∀ k' b, s'.Owns k' b ↔ k' ≠ k ∧ s.Owns k' b)
    (hfree : s'.freeBlocks = if 0 < (s.inodeTable.cell k).iSize
      then s.freeBlocks.set (s.inodeTable.cell k).iDataBlock.toNat .free else s.freeBlocks) : BlockEffect s s' := by
  by_cases hsize : 0 < (s.inodeTable.cell k).iSize
  · obtain ⟨b, hb⟩ := hb hsize
    rw [if_pos hsize, hb, Int.toNat_natCast] at hfree
    exact .freed ⟨hlt, ht, hsize, hb⟩ howns hfree
  · rw [if_neg hsize] at hfree
    refine .same (fun k' b => (howns k' b).trans (and_iff_right_of_imp ?_)) hfree
    rintro ho rfl
    exact hsize ho.2.2.1

namespace FsInv

theorem open_blocks (h : FsInv s L) {mode : Nat} {name : Option CString} {res : Int × State}
    (ho : OpenOutcome s L mode name res) : BlockEffect s res.2 := by
  have hadd : ∀ {t : State} {v : Int} {off : Nat}, BlockEffect s t →
      BlockEffect s (Fs.addToOpenFileTable t v off).2 := by
    intro t v off ht
    obtain ⟨howns, hfree⟩ := State.addToOpenFileTable_owns t v off
    cases ht with
    | same hs hf => exact .same (fun k b => (howns k b).trans (hs k b)) (hfree.trans hf)
    | freed hk hs hf => exact .freed hk (fun k b => (howns k b).trans (hs k b)) (hfree.trans hf)
    | taken hb hk hs hf => exact .taken hb hk (fun k b => (howns k b).trans (hs k b)) (hfree.trans hf)
  have hnothing : BlockEffect s s := .same (fun _ _ => Iff.rfl) rfl
  cases ho with
  | null => exact hnothing
  | invalid hp => exact hnothing
  | absent hp hn hc => exact hnothing
  | noInode hp hn hc hk => exact hnothing
  | noEntry hp hn hc hk hfull => exact .same (State.setInode_owns (firstFree_eq_some.mp hk).1 _) rfl
  | existing hp hn ht => exact hadd hnothing
  | @truncated p hp hn ht hsize =>
      refine hadd ?_
      have hu := h.inUse_ino hn
      obtain ⟨b, hb, -⟩ := h.data.block _ (h.root.ino_pos _ hn) hu hsize
      refine .of_delete hu.1 ((h.root.taken _ hu.1).mpr (Or.inr ⟨_, hn, rfl⟩)) (fun _ => ⟨b, hb⟩)
        State.truncateInode_owns ?_
      rw [if_pos hsize]
      rfl
  | created hp hn hc hk hlen hi => exact hadd (.same (State.createFile_owns (firstFree_eq_some.mp hk).1) rfl)

theorem unlink_blocks (h : FsInv s L) {target : Option CString} {res : Int × State}
    (ho : UnlinkOutcome s L target res) : BlockEffect s res.2 := by
  have hnothing : BlockEffect s s := .same (fun _ _ => Iff.rfl) rfl
  cases ho with
  | null => exact hnothing
  | invalid hp => exact hnothing
  | absent hp hn => exact hnothing
  | removed hp hn =>
      have hu := h.inUse_ino hn
      refine .of_delete hu.1 ((h.root.taken _ hu.1).mpr (Or.inr ⟨_, hn, rfl⟩)) (fun hsize => ?_)
        State.removeFile_owns rfl
      obtain ⟨b, hb, -⟩ := h.data.block _ (h.root.ino_pos _ hn) hu hsize
      exact ⟨b, hb⟩

/-- A write to an empty inode takes a block, and the block is lost exactly if the inode is not in use. -/
theorem write_blocks (h : FsInv s L) {fh : Int} {buffer : Mem} {n : Nat} {res : Int × State}
    (ho : WriteOutcome s buffer n fh res) :
    ¬ LosesBlock s (.write fh buffer n) ∧ BlockEffect s res.2 ∨
      LosesBlock s (.write fh buffer n) ∧ LostBlock s res.2 := by
  have hnothing : BlockEffect s s := .same (fun _ _ => Iff.rfl) rfl
  have hentry : ∀ {i : Nat}, s.IsOpen i → ∀ {j : Nat}, j ∈ getOpenFileEntry s i → j = i := by
    intro i hi j hj
    rw [getOpenFileEntry_natCast hi] at hj
    exact (Option.mem_some_iff.mp hj).symm
  cases ho with
  | closed hget =>
      refine Or.inl ⟨?_, hnothing⟩
      rintro ⟨i, hi, -⟩
      rw [hget] at hi
      cases hi
  | nothing hi hk hn =>
      refine Or.inl ⟨?_, hnothing⟩
      rintro ⟨j, hj, -, -, hpos, -⟩
      rw [hentry hi hj] at hpos
      omega
  | noBlock hi hk hn hsize hb =>
      refine Or.inl ⟨?_, hnothing⟩
      rintro ⟨j, hj, -, -, -, hroom⟩
      exact hroom hb
  | @fresh i k b m hi hk hn hpos hfit hsize hb =>
      obtain ⟨k', hk', hkpos, hklt⟩ := h.data.handleIno i hi
      obtain rfl : k' = k := by omega
      have hother : ∀ j c, j ≠ k' → (((s.takeBlock k' b).writeAt i k' b buffer m).Owns j c ↔ s.Owns j c) := by
        intro j c hj
        refine State.owns_congr rfl rfl ?_
        rw [State.writeAt_inode_ne hj, State.takeBlock_inode_ne hj]
      have hself : ((s.takeBlock k' b).writeAt i k' b buffer m).inodeTable.cell k' =
          { s.inodeTable.cell k' with
            iSize := max (s.inodeTable.cell k').iSize ((s.openFileTable.cell i).ofOffset + m), iDataBlock := b } := by
        rw [State.writeAt_inode, State.takeBlock_inode]
        rfl
      cases ht : s.freeinodeTs.cell k' with
      | free =>
          refine Or.inr ⟨⟨i, getOpenFileEntry_natCast hi, ?_⟩, b, hb, fun j c => ?_, rfl⟩
          · simp only [hk, Int.toNat_natCast, ht, hsize, hb, true_and]
            exact ⟨by omega, Option.some_ne_none b⟩
          · by_cases hj : j = k'
            · subst hj
              exact iff_of_false (State.not_owns_of_free ht) (State.not_owns_of_free ht)
            · exact hother j c hj
      | taken =>
          refine Or.inl ⟨?_, .taken hb (fun b' => State.not_owns_of_empty (k := k') hsize) (fun j c => ?_) rfl⟩
          · rintro ⟨j, hj, hfree, -⟩
            rw [hentry hi hj, hk, Int.toNat_natCast, ht] at hfree
            cases hfree
          · by_cases hj : j = k'
            · subst hj
              simp only [true_and, State.not_owns_of_empty hsize, or_false]
              simp only [State.Owns, hself]
              constructor
              · rintro ⟨-, -, -, hc⟩
                omega
              · rintro rfl
                exact ⟨hklt, ht, by omega, rfl⟩
            · rw [hother j c hj]
              simp [hj]
  | @inPlace i k b m hi hk hn hpos hfit hsize hb hlt =>
      refine Or.inl ⟨?_, .same (fun j c => ?_) rfl⟩
      · rintro ⟨j, hj, -, hempty, -⟩
        rw [hentry hi hj, hk, Int.toNat_natCast] at hempty
        omega
      · by_cases hj : j = k
        · subst hj
          have hpos' : 0 < max (s.inodeTable.cell j).iSize ((s.openFileTable.cell i).ofOffset + m) :=
            lt_of_lt_of_le hsize (le_max_left _ _)
          simp only [State.Owns, State.writeAt_inode, hsize, hpos', true_and]
          rfl
        · exact State.owns_congr rfl rfl (State.writeAt_inode_ne hj)

theorem step_blocks (h : FsInv s L) (hs : Step s c s') :
    ¬ LosesBlock s c ∧ BlockEffect s s' ∨ LosesBlock s c ∧ LostBlock s s' := by
  obtain ⟨r, hr⟩ := hs
  have hnothing : ∀ {t : State}, t.freeBlocks = s.freeBlocks → t.freeinodeTs = s.freeinodeTs →
      t.inodeTable = s.inodeTable → t.fsParams = s.fsParams → BlockEffect s t := by
    intro t hf ht hi hp
    exact .same (fun k b => State.owns_congr hp (by rw [ht]) (by rw [hi])) hf
  cases h.exec_outcome hr with
  | «open» ho => exact Or.inl ⟨id, h.open_blocks ho⟩
  | notOpen hget => exact Or.inl ⟨id, hnothing rfl rfl rfl rfl⟩
  | close hget => exact Or.inl ⟨id, hnothing rfl rfl rfl rfl⟩
  | read ho =>
      refine Or.inl ⟨id, ?_⟩
      cases ho <;> exact hnothing rfl rfl rfl rfl
  | write ho => exact h.write_blocks ho
  | unlink ho => exact Or.inl ⟨id, h.unlink_blocks ho⟩

end FsInv

/-! ## No block has two owners -/

structure OwnersApart (s : State) : Prop where
  taken : ∀ k b, s.Owns k b → s.freeBlocks.cell b = .taken
  inj : ∀ k k' b, s.Owns k b → s.Owns k' b → k = k'

namespace OwnersApart

theorem ne_of_free (h : OwnersApart s) {k b b' : Nat} (ho : s.Owns k b)
    (hb : s.freeBlocks.cell b' = .free) : b ≠ b' := by
  rintro rfl
  rw [h.taken k b ho] at hb
  cases hb

theorem effect (h : OwnersApart s) (he : BlockEffect s s') : OwnersApart s' := by
  cases he with
  | same howns hfree =>
      refine ⟨fun k b ho => ?_, fun k k' b ho ho' => ?_⟩
      · rw [hfree]
        exact h.taken k b ((howns k b).mp ho)
      · exact h.inj k k' b ((howns k b).mp ho) ((howns k' b).mp ho')
  | freed hk howns hfree =>
      refine ⟨fun k' b' ho => ?_, fun k' k'' b' ho ho' => ?_⟩
      · obtain ⟨hne, ho⟩ := (howns k' b').mp ho
        rw [hfree, Table.set_cell_ne]
        · exact h.taken k' b' ho
        · rintro rfl
          exact hne (h.inj _ _ _ ho hk)
      · exact h.inj k' k'' b' ((howns k' b').mp ho).2 ((howns k'' b').mp ho').2
  | taken hb hk howns hfree =>
      have hbfree := (firstFree_eq_some.mp hb).1
      refine ⟨fun k' b' ho => ?_, fun k' k'' b' ho ho' => ?_⟩
      · obtain ⟨rfl, rfl⟩ | ho := (howns k' b').mp ho
        · rw [hfree, Table.set_cell_same]
        · rw [hfree, Table.set_cell_ne _ _ (h.ne_of_free ho hbfree)]
          exact h.taken k' b' ho
      · obtain ⟨rfl, rfl⟩ | ho := (howns k' b').mp ho
        · obtain ⟨rfl, -⟩ | ho' := (howns k'' b').mp ho'
          · rfl
          · exact absurd rfl (h.ne_of_free ho' hbfree)
        · obtain ⟨rfl, rfl⟩ | ho' := (howns k'' b').mp ho'
          · exact absurd rfl (h.ne_of_free ho hbfree)
          · exact h.inj k' k'' b' ho ho'

theorem lost (h : OwnersApart s) (he : LostBlock s s') : OwnersApart s' := by
  obtain ⟨b, hb, howns, hfree⟩ := he
  refine ⟨fun k b' ho => ?_, fun k k' b' ho ho' => ?_⟩
  · have ho := (howns k b').mp ho
    rw [hfree, Table.set_cell_ne _ _ (h.ne_of_free ho (firstFree_eq_some.mp hb).1)]
    exact h.taken k b' ho
  · exact h.inj k k' b' ((howns k b').mp ho) ((howns k' b').mp ho')

theorem step (h : OwnersApart s) (hinv : FsInv s L) (hs : Step s c s') : OwnersApart s' := by
  obtain ⟨-, he⟩ | ⟨-, he⟩ := hinv.step_blocks hs
  · exact h.effect he
  · exact h.lost he

theorem blocksOwned (h : OwnersApart s) (hinv : FsInv s L) : BlocksOwned s := by
  refine ⟨fun k hlt ht hsize => ?_, fun k hlt k' hlt' ht ht' hsize hsize' he => ?_⟩
  · obtain ⟨b, ho⟩ := hinv.owns_of_taken hlt ht hsize
    exact ⟨b, ho.2.2.2, hinv.owns_lt ho, h.taken k b ho⟩
  · obtain ⟨b, ho⟩ := hinv.owns_of_taken hlt ht hsize
    exact h.inj k k' b ho ⟨hlt', ht', hsize', he.symm.trans ho.2.2.2⟩

end OwnersApart

theorem Initialised.ownersApart {params : TfsParams} (h : Initialised s params) : OwnersApart s := by
  have hroot : ∀ k b, s.Owns k b → k = 0 := by
    rintro k b ⟨hlt, ht, -⟩
    obtain hk | ⟨n, hn, -⟩ := (h.inv.root.taken k hlt).mp ht
    · exact hk
    · simp [Layout.empty] at hn
  refine ⟨fun k b ho => ?_, fun k k' b ho ho' => by rw [hroot k b ho, hroot k' b ho']⟩
  obtain rfl := hroot k b ho
  rw [ho.block_eq h.inv.owns_root]
  exact h.inv.data.rootBlockTaken

/-! ## Blocks without an owner -/

/-- A TAKEN block has no owner. -/
def Leaked (s : State) : Prop := ∃ b < s.dataBlocks, s.freeBlocks.cell b = .taken ∧ ∀ k, ¬ s.Owns k b

namespace Leaked

theorem not_noLeak (h : Leaked s) (hinv : FsInv s L) : ¬ NoLeak s := by
  obtain ⟨b, hlt, ht, howner⟩ := h
  intro hn
  obtain rfl | ⟨k, ho⟩ := hn b hlt ht
  · exact howner 0 hinv.owns_root
  · exact howner k ho

/-- Nothing gives the block back, and nobody gets it. -/
theorem effect (h : Leaked s) (hp : s'.fsParams = s.fsParams) (he : BlockEffect s s') : Leaked s' := by
  obtain ⟨b, hlt, ht, howner⟩ := h
  refine ⟨b, by rwa [State.dataBlocks, hp], ?_⟩
  cases he with
  | same howns hfree =>
      rw [hfree]
      exact ⟨ht, fun k ho => howner k ((howns k b).mp ho)⟩
  | freed hk howns hfree =>
      rw [hfree, Table.set_cell_ne]
      · exact ⟨ht, fun k ho => howner k ((howns k b).mp ho).2⟩
      · rintro rfl
        exact howner _ hk
  | taken hb hk howns hfree =>
      have hne : b ≠ _ := fun he => by
        rw [he, (firstFree_eq_some.mp hb).1] at ht
        cases ht
      rw [hfree, Table.set_cell_ne _ _ hne]
      refine ⟨ht, fun k ho => ?_⟩
      obtain ⟨-, he⟩ | ho := (howns k b).mp ho
      · exact hne he
      · exact howner k ho

theorem lost (h : Leaked s) (hp : s'.fsParams = s.fsParams) (he : LostBlock s s') : Leaked s' := by
  obtain ⟨b, hlt, ht, howner⟩ := h
  obtain ⟨b', hb', howns, hfree⟩ := he
  refine ⟨b, by rwa [State.dataBlocks, hp], ?_, fun k ho => howner k ((howns k b).mp ho)⟩
  rw [hfree, Table.set_cell]
  split
  · rfl
  · exact ht

theorem step (h : Leaked s) (hinv : FsInv s L) (hs : Step s c s') : Leaked s' := by
  obtain ⟨-, he⟩ | ⟨-, he⟩ := hinv.step_blocks hs
  · exact h.effect hs.fsParams he
  · exact h.lost hs.fsParams he

end Leaked

/-- The block that is lost is one without an owner. -/
theorem LostBlock.leaked (he : LostBlock s s') (h : OwnersApart s) (hp : s'.fsParams = s.fsParams) : Leaked s' := by
  obtain ⟨b, hb, howns, hfree⟩ := he
  obtain ⟨hbfree, hlt, -⟩ := firstFree_eq_some.mp hb
  refine ⟨b, by rwa [State.dataBlocks, hp], by rw [hfree, Table.set_cell_same], fun k ho => ?_⟩
  exact h.ne_of_free ((howns k b).mp ho) hbfree rfl

namespace NoLeak

theorem owner (h : NoLeak s) (hinv : FsInv s L) {b : Nat} (hlt : b < s.dataBlocks)
    (ht : s.freeBlocks.cell b = .taken) : ∃ k, s.Owns k b := by
  obtain rfl | ho := h b hlt ht
  · exact ⟨0, hinv.owns_root⟩
  · exact ho

theorem effect (h : NoLeak s) (hinv : FsInv s L) (hp : s'.fsParams = s.fsParams)
    (he : BlockEffect s s') : NoLeak s' := by
  intro b hlt ht
  rw [State.dataBlocks, hp] at hlt
  right
  cases he with
  | same howns hfree =>
      rw [hfree] at ht
      obtain ⟨k, ho⟩ := h.owner hinv hlt ht
      exact ⟨k, (howns k b).mpr ho⟩
  | @freed k b' hk howns hfree =>
      rw [hfree, Table.set_cell] at ht
      split at ht
      · cases ht
      · rename_i hne
        obtain ⟨k', ho⟩ := h.owner hinv hlt ht
        refine ⟨k', (howns k' b).mpr ⟨?_, ho⟩⟩
        rintro rfl
        exact hne (ho.block_eq hk)
  | @taken k b' hb hk howns hfree =>
      rw [hfree, Table.set_cell] at ht
      split at ht
      · rename_i he
        exact ⟨k, (howns k b).mpr (Or.inl ⟨rfl, he⟩)⟩
      · obtain ⟨k', ho⟩ := h.owner hinv hlt ht
        exact ⟨k', (howns k' b).mpr (Or.inr ho)⟩

/-- Without files, the root directory's inode is the only owner. -/
theorem rootAlone (h : NoLeak s) (hinv : FsInv s L) : RootAlone s := by
  intro hdead b hlt ht
  obtain ⟨k, ho⟩ := h.owner hinv hlt ht
  obtain rfl | ⟨n, hn, -⟩ := (hinv.root.taken k ho.1).mp ho.2.1
  · exact ho.block_eq hinv.owns_root
  · have hino := hinv.root.entryIno n hn
    rw [hdead _ (hinv.root.slot_lt n hn)] at hino
    omega

end NoLeak

/-- Along a run no block is leaked exactly if no call loses one. -/
theorem noLeak_run {cs : List Call} (hrun : Steps Step s cs s') (hinv : FsInv s L) (ha : OwnersApart s)
    (h : NoLeak s) : (NoLeak s' ∧ RootAlone s') ↔ Steps (Guarded (fun s c => ¬ LosesBlock s c) Step) s cs s' := by
  refine hrun.iff_guarded (I := fun s => ∃ L, FsInv s L ∧ OwnersApart s ∧ NoLeak s)
    (T := fun s => ∃ L, FsInv s L ∧ Leaked s) (P := fun s => NoLeak s ∧ RootAlone s) ?_ ?_ ?_ ?_ ?_ ⟨L, hinv, ha, h⟩
  · rintro s c s' ⟨L, hinv, ha, h⟩ hg hs
    obtain ⟨-, he⟩ | ⟨hlost, -⟩ := hinv.step_blocks hs
    · obtain ⟨L', hinv'⟩ := hinv.step hs
      exact ⟨L', hinv', ha.effect he, h.effect hinv hs.fsParams he⟩
    · exact absurd hlost hg
  · rintro s c s' ⟨L, hinv, ha, h⟩ hg hs
    obtain ⟨hkept, -⟩ | ⟨-, he⟩ := hinv.step_blocks hs
    · exact absurd hkept hg
    · obtain ⟨L', hinv'⟩ := hinv.step hs
      exact ⟨L', hinv', he.leaked ha hs.fsParams⟩
  · rintro s c s' ⟨L, hinv, h⟩ hs
    obtain ⟨L', hinv'⟩ := hinv.step hs
    exact ⟨L', hinv', h.step hinv hs⟩
  · rintro s ⟨L, hinv, -, h⟩
    exact ⟨h, h.rootAlone hinv⟩
  · rintro s ⟨L, hinv, h⟩ ⟨hn, -⟩
    exact h.not_noLeak hinv hn

theorem Initialised.noLeak {params : TfsParams} (h : Initialised s params) : NoLeak s :=
  fun b hlt ht => Or.inl (h.blocks b hlt ht)

/-! ## The calls of data_block_free -/

/-- The call that `inode_delete` makes: the inode it deletes, and the block number. -/
def inodeDeleteFrees (s : State) (inumber : Int) : List (Int × Int) :=
  if 0 < (s.inodeTable.cell inumber.toNat).iSize then [(inumber, (s.inodeTable.cell inumber.toNat).iDataBlock)]
  else []

/-- The calls that `tfs_open` makes: its own, and that of the `inode_delete` after a failed creation. -/
def tfsOpenFrees (s : State) (name : Option CString) (mode : Nat) : Except Fault (List (Int × Int)) := do
  let some name := name | return []
  if !validPathname name then return []
  let root ← inodeGet s rootDirInum
  let inum ← tfsLookup s name root
  if 0 ≤ inum then
    let i ← inodeGet s inum
    return if hasFlag mode tfsOTrunc ∧ 0 < (s.inodeTable.cell i).iSize then [(inum, (s.inodeTable.cell i).iDataBlock)]
      else []
  else if hasFlag mode tfsOCreat then
    let (inum, s) ← inodeCreate s .file
    if inum = -1 then return []
    let (r, s) ← addDirEntry s root name.tail inum
    return if r = -1 then inodeDeleteFrees s inum else []
  else return []

def tfsUnlinkFrees (s : State) (target : Option CString) : Except Fault (List (Int × Int)) := do
  let some target := target | return []
  if !validPathname target then return []
  let root ← inodeGet s rootDirInum
  let inum ← tfsLookup s target root
  return if inum = -1 then [] else inodeDeleteFrees s inum

/-- The calls of `data_block_free` in a call: the inode that is deleted or truncated, and the block number. -/
def blockFrees (s : State) : Call → Except Fault (List (Int × Int))
  | .open name mode => tfsOpenFrees s name mode
  | .unlink target => tfsUnlinkFrees s target
  | _ => .ok []

/-- Only TAKEN blocks are given back, each by the inode that owns it. -/
def FreesOwn (s : State) (c : Call) : Prop :=
  ∃ fs, blockFrees s c = .ok fs ∧
    ∀ f ∈ fs, ∃ k b : Nat, f = ((k : Int), (b : Int)) ∧ s.Owns k b ∧ b < s.dataBlocks ∧ s.freeBlocks.cell b = .taken

namespace FsInv

/-- A new inode has no block to give back. -/
theorem tfsOpenFrees_eq (h : FsInv s L) {p : CString} (hp : validPathname p = true) (mode : Nat) :
    tfsOpenFrees s (some p) mode = .ok (
      if p.tail.chars ∈ L.names ∧ hasFlag mode tfsOTrunc = true ∧
          0 < (s.inodeTable.cell (L.ino p.tail.chars)).iSize then
        [((L.ino p.tail.chars : Int), (s.inodeTable.cell (L.ino p.tail.chars)).iDataBlock)] else []) := by
  have hneg : ¬ (0 : Int) ≤ -1 := by omega
  by_cases hn : p.tail.chars ∈ L.names
  · have hpos : (0 : Int) ≤ L.ino p.tail.chars := by omega
    simp [tfsOpenFrees, hp, h.root.inodeGet_root, tfsLookup_eq h.root hp, hn, hpos,
      inodeGet_natCast (h.root.ino_lt _ hn), pure_eq_ok]
  · by_cases hc : hasFlag mode tfsOCreat = true
    swap
    · simp [tfsOpenFrees, hp, h.root.inodeGet_root, tfsLookup_eq h.root hp, hn, hc, pure_eq_ok]
    cases hk : firstFree s.freeinodeTs s.inodeTableSize with
    | none =>
        simp [tfsOpenFrees, hp, h.root.inodeGet_root, tfsLookup_eq h.root hp, hn, hc,
          inodeCreate_file h.root.sane, hk, pure_eq_ok]
    | some k =>
        have hne : ((k : Int) = -1) = False := eq_false (by omega)
        have hadd := h.root.addDirEntry_eq (h.sameDir_createInode hk) p.tail k
        have hempty : inodeDeleteFrees (s.createInode k) k = [] := by
          simp [inodeDeleteFrees, State.createInode, newFile]
        simp only [tfsOpenFrees, hp, h.root.inodeGet_root, tfsLookup_eq h.root hp, hn, hc,
          inodeCreate_file h.root.sane, hk, hne, hadd, ok_bind, pure_eq_ok, ↓reduceIte, hneg, false_and,
          Bool.not_true, Bool.false_eq_true]
        split
        · simp [hempty]
        · cases firstIndex (fun i => decide ((s.dirEntry s.rootPtr i).dInumber = -1)) s.maxDirEntries with
          | none => simp [hempty]
          | some i => simp

theorem tfsUnlinkFrees_eq (h : FsInv s L) {p : CString} (hp : validPathname p = true) :
    tfsUnlinkFrees s (some p) = .ok (
      if p.tail.chars ∈ L.names ∧ 0 < (s.inodeTable.cell (L.ino p.tail.chars)).iSize then
        [((L.ino p.tail.chars : Int), (s.inodeTable.cell (L.ino p.tail.chars)).iDataBlock)] else []) := by
  by_cases hn : p.tail.chars ∈ L.names
  · have hne : ((L.ino p.tail.chars : Int) = -1) = False := eq_false (by omega)
    simp [tfsUnlinkFrees, hp, h.root.inodeGet_root, tfsLookup_eq h.root hp, hn, hne, inodeDeleteFrees, pure_eq_ok]
  · simp [tfsUnlinkFrees, hp, h.root.inodeGet_root, tfsLookup_eq h.root hp, hn, pure_eq_ok]

/-- A block is given back by nothing but these calls. -/
theorem blockFrees_of_step (h : FsInv s L) (hs : Step s c s') {b : Nat} (ht : s.freeBlocks.cell b = .taken)
    (hfree : s'.freeBlocks.cell b = .free) : ∃ fs, blockFrees s c = .ok fs ∧ ∃ f ∈ fs, f.2.toNat = b := by
  have hkept : s'.freeBlocks ≠ s.freeBlocks := by
    intro he
    rw [he, ht] at hfree
    cases hfree
  have hset : ∀ {d : Int}, s'.freeBlocks = s.freeBlocks.set d.toNat .free → d.toNat = b := by
    intro d hd
    rw [hd, Table.set_cell] at hfree
    split at hfree
    · rename_i he
      exact he.symm
    · rw [ht] at hfree
      cases hfree
  have htaken : ∀ d, s'.freeBlocks ≠ s.freeBlocks.set d .taken := by
    intro d hd
    rw [hd, Table.set_cell, ht, ite_self] at hfree
    cases hfree
  obtain ⟨r, hr⟩ := hs
  cases h.exec_outcome hr with
  | @«open» name mode res ho =>
      cases ho with
      | existing hp hn hc => exact absurd (State.addToOpenFileTable_owns _ _ _).2 hkept
      | @truncated p hp hn hc hsize =>
          refine ⟨_, h.tfsOpenFrees_eq hp mode, ((L.ino p.tail.chars : Int), _), ?_,
            hset (State.addToOpenFileTable_owns _ _ _).2⟩
          rw [if_pos ⟨hn, hc, hsize⟩]
          exact List.mem_singleton_self _
      | created hp hn hc hk hlen hi => exact absurd (State.addToOpenFileTable_owns _ _ _).2 hkept
      | _ => exact absurd rfl hkept
  | unlink ho =>
      cases ho with
      | @removed p hp hn =>
          by_cases hsize : 0 < (s.inodeTable.cell (L.ino p.tail.chars)).iSize
          · refine ⟨_, h.tfsUnlinkFrees_eq hp, ((L.ino p.tail.chars : Int), _), ?_, hset (if_pos hsize)⟩
            rw [if_pos ⟨hn, hsize⟩]
            exact List.mem_singleton_self _
          · exact absurd (if_neg hsize) hkept
      | _ => exact absurd rfl hkept
  | notOpen hget => exact absurd rfl hkept
  | close hget => exact absurd rfl hkept
  | read ho => cases ho <;> exact absurd rfl hkept
  | write ho =>
      cases ho with
      | fresh hi hk hn hpos hfit hsize hb => exact absurd rfl (htaken _)
      | _ => exact absurd rfl hkept

/-- The block of a file with contents is TAKEN, and the file's. -/
theorem owns_file (h : FsInv s L) (ha : OwnersApart s) {n : List UInt8} (hn : n ∈ L.names)
    (hsize : 0 < (s.inodeTable.cell (L.ino n)).iSize) :
    ∃ b : Nat, (s.inodeTable.cell (L.ino n)).iDataBlock = b ∧ s.Owns (L.ino n) b ∧ b < s.dataBlocks ∧
      s.freeBlocks.cell b = .taken := by
  have hlt := h.root.ino_lt n hn
  obtain ⟨b, ho⟩ := h.owns_of_taken hlt ((h.root.taken _ hlt).mpr (Or.inr ⟨n, hn, rfl⟩)) hsize
  exact ⟨b, ho.2.2.2, ho, h.owns_lt ho, ha.taken _ _ ho⟩

end FsInv

theorem OwnersApart.freesOwn (h : OwnersApart s) (hinv : FsInv s L) (c : Call) : FreesOwn s c := by
  have hnone : ∀ {x : Except Fault (List (Int × Int))}, x = .ok [] → ∃ fs, x = .ok fs ∧ ∀ f ∈ fs, ∃ k b : Nat,
      f = ((k : Int), (b : Int)) ∧ s.Owns k b ∧ b < s.dataBlocks ∧ s.freeBlocks.cell b = .taken :=
    fun hx => ⟨[], hx, nofun⟩
  cases c with
  | «open» name mode =>
      cases name with
      | none => exact hnone rfl
      | some p =>
          cases hp : validPathname p with
          | false => exact hnone (by simp [blockFrees, tfsOpenFrees, hp, pure_eq_ok])
          | true =>
              refine ⟨_, hinv.tfsOpenFrees_eq hp mode, fun f hf => ?_⟩
              split at hf
              · rename_i hc
                obtain ⟨b, hb, ho⟩ := hinv.owns_file h hc.1 hc.2.2
                rw [List.mem_singleton, hb] at hf
                exact ⟨_, b, hf, ho⟩
              · cases hf
  | unlink target =>
      cases target with
      | none => exact hnone rfl
      | some p =>
          cases hp : validPathname p with
          | false => exact hnone (by simp [blockFrees, tfsUnlinkFrees, hp, pure_eq_ok])
          | true =>
              refine ⟨_, hinv.tfsUnlinkFrees_eq hp, fun f hf => ?_⟩
              split at hf
              · rename_i hc
                obtain ⟨b, hb, ho⟩ := hinv.owns_file h hc.1 hc.2
                rw [List.mem_singleton, hb] at hf
                exact ⟨_, b, hf, ho⟩
              · cases hf
  | close fhandle => exact hnone rfl
  | read fhandle len => exact hnone rfl
  | write fhandle buffer n => exact hnone rfl

end Mbroker.Fs
