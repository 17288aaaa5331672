import Mbroker.Fs.Lemmas.Simulation
import Mbroker.Fs.Reads
import Mbroker.Fs.Isolation
import Mbroker.Fs.Blocks
import Mbroker.Fs.RootDirectory
import Mbroker.Fs.DirectoryCalls
import Mbroker.Fs.Failures
import Mbroker.Fs.Bounds

/-!
# Runs of TecnicoFS

What holds from `tfs_init` on: TecnicoFS answers like the abstract file system, where its reads end, and which
files a handle reaches. Last, what a `tfs_init` that fails leaves, and with which parameters it is safe.
-/

namespace Mbroker.Fs

open Mbroker.Lib

variable {m : Malloc} {p : Option TfsParams} {s₀ s s' : State}

/-! ## Refinement -/

/-- Every run of allowed calls gets the answers of the abstract file system, whose files stay well formed. -/
theorem tecnicofs_refines_fileSystem (hs : Sane (p.getD tfsDefaultParams))
    (hinit : tfsInit m s₀ p = .ok (0, s)) (cs : List Call)
    (hok : AllAllowed (FileSystem.call (p.getD tfsDefaultParams)) FileSystem.Allowed FileSystem.empty cs) :
    ∃ s', runCalls exec s cs =
        .ok ((answers (FileSystem.call (p.getD tfsDefaultParams)) FileSystem.empty cs).1, s') ∧
      (answers (FileSystem.call (p.getD tfsDefaultParams)) FileSystem.empty cs).2.WellFormed
        (p.getD tfsDefaultParams) := by
  have hsim : ∀ s a c, Simulates (p.getD tfsDefaultParams) s a → FileSystem.Allowed a c →
      ∃ s', exec s c = .ok ((a.call (p.getD tfsDefaultParams) c).1, s') ∧
        Simulates (p.getD tfsDefaultParams) s' (a.call (p.getD tfsDefaultParams) c).2 :=
    fun _ _ _ h hc => h.exec hc
  obtain ⟨s', hrun, hp, L, href⟩ :=
    runCalls_eq_answers hsim cs s _ (tfsInit_initialised hs hinit).simulates hok
  have hwf := href.wellFormed
  rw [hp] at hwf
  exact ⟨s', hrun, hwf⟩

/-- Two handles on one file: what is appended through one is read through the other. -/
theorem tecnicofs_refines_fileSystem_append :
    ∃ s s', tfsInit .zeros .static (some ⟨3, 3, 4, 100⟩) = .ok (0, s) ∧
      runCalls exec s
        [.open (some ⟨[47, 97], by decide⟩) tfsOCreat, .write 0 (Mem.ofList [104, 105, 0]) 3,
          .open (some ⟨[47, 97], by decide⟩) tfsOAppend, .write 1 (Mem.ofList [33]) 1, .read 0 10, .close 0] =
        .ok ([⟨0, []⟩, ⟨3, []⟩, ⟨1, []⟩, ⟨1, []⟩, ⟨1, [33]⟩, ⟨0, []⟩], s') := by
  obtain ⟨s, hinit⟩ : ∃ s, tfsInit .zeros .static (some ⟨3, 3, 4, 100⟩) = .ok (0, s) := ⟨_, rfl⟩
  obtain ⟨s', hrun, -⟩ := tecnicofs_refines_fileSystem (p := some ⟨3, 3, 4, 100⟩)
    ⟨by decide, by decide, by decide, by decide, by decide⟩ hinit
    [.open (some ⟨[47, 97], by decide⟩) tfsOCreat, .write 0 (Mem.ofList [104, 105, 0]) 3,
      .open (some ⟨[47, 97], by decide⟩) tfsOAppend, .write 1 (Mem.ofList [33]) 1, .read 0 10, .close 0]
    ⟨nofun,
      fun i n off h => by
        have h : some (0, [97], 0) = some (i, n, off) := h
        cases h
        decide,
      nofun,
      fun i n off h => by
        have h : some (1, [97], 3) = some (i, n, off) := h
        cases h
        decide,
      trivial, trivial, trivial⟩
  exact ⟨s, s', hinit, hrun⟩

/-! ## Reads -/

/-- In a run in which no call empties the inode of a handle with a positive offset, every read copies what lies
between the offset and the end of the file, and no assertion fails. -/
theorem reads_inside {cs : List Call} (hs : Sane (p.getD tfsDefaultParams))
    (hinit : tfsInit m s₀ p = .ok (0, s)) (hrun : Steps (Guarded KeepsOffsets Step) s cs s') :
    (∀ c, NoPanic s' c) ∧ ∀ fhandle len, ReadInside s' fhandle len := by
  have h := tfsInit_initialised hs hinit
  obtain ⟨hoff, L, hinv⟩ := OffsetsInside.steps hrun h.inv fun i _ ho => absurd ho (h.noHandle i)
  exact ⟨hinv.noPanic_of_offsets hoff, hinv.readInside hoff⟩

/-- A file is written, and another handle reads it. -/
theorem reads_inside_written : ∃ s s', tfsInit .zeros .static (some ⟨3, 3, 4, 100⟩) = .ok (0, s) ∧
    Steps (Guarded KeepsOffsets Step) s
      [.open (some ⟨[47, 97], by decide⟩) tfsOCreat, .write 0 (Mem.ofList [104, 105]) 2,
        .open (some ⟨[47, 97], by decide⟩) 0] s' ∧
    (∀ c, NoPanic s' c) ∧ ∀ fhandle len, ReadInside s' fhandle len := by
  obtain ⟨s, s', hinit, hrun⟩ : ∃ s s', tfsInit .zeros .static (some ⟨3, 3, 4, 100⟩) = .ok (0, s) ∧
      Steps (Guarded KeepsOffsets Step) s
        [.open (some ⟨[47, 97], by decide⟩) tfsOCreat, .write 0 (Mem.ofList [104, 105]) 2,
          .open (some ⟨[47, 97], by decide⟩) 0] s' :=
    ⟨_, _, rfl, .cons ⟨by decide +kernel, _, rfl⟩ (.cons ⟨trivial, _, rfl⟩ (.cons ⟨by decide +kernel, _, rfl⟩ .nil))⟩
  exact ⟨s, s', hinit, hrun, reads_inside (p := some ⟨3, 3, 4, 100⟩)
    ⟨by decide, by decide, by decide, by decide, by decide⟩ hinit hrun⟩

/-- Truncating a file through one handle leaves another handle behind its end: of an empty file, the read
returns three bytes. -/
theorem tfsRead_past_end : ∃ s s', tfsInit .zeros .static (some ⟨3, 3, 4, 100⟩) = .ok (0, s) ∧
    Steps Step s
      [.open (some ⟨[47, 97], by decide⟩) tfsOCreat, .write 0 (Mem.ofList [104, 101, 108, 108, 111]) 5,
        .open (some ⟨[47, 97], by decide⟩) tfsOTrunc] s' ∧
    (s'.openFileTable.cell 0).ofInumber = 1 ∧ (s'.inodeTable.cell 1).iSize = 0 ∧
    (tfsRead s' 0 3).map (·.1) = .ok 3 ∧ ¬ ReadInside s' 0 3 :=
  ⟨_, _, rfl, .cons ⟨_, rfl⟩ (.cons ⟨_, rfl⟩ (.cons ⟨_, rfl⟩ .nil)), by decide +kernel, by decide +kernel,
    by decide +kernel, fun h => absurd (h 0 1 (by decide +kernel) (by decide +kernel)).1 (by decide +kernel)⟩

/-! ## Isolation -/

/-- In a run in which no file gets the inode or the block of an open handle, and no read starts behind the end
of the file, every call leaves alone the files of the directory other than the handle's. -/
theorem files_isolated {cs : List Call} {g : Tags} (hs : Sane (p.getD tfsDefaultParams))
    (hinit : tfsInit m s₀ p = .ok (0, s))
    (hrun : Steps (Guarded (fun x c => KeepsApart x.1 c) TaggedStep) (s, Tags.start) cs (s', g)) {c : Call}
    (hc : KeepsApart s' c) : Isolated s' g c := by
  obtain ⟨L, hapart⟩ := Apart.steps hrun ⟨_, (tfsInit_initialised hs hinit).apart Tags.start⟩
  exact hapart.isolated hc

/-- Two files are created and written, and one of them is written again. -/
theorem files_isolated_two : ∃ s s' g, tfsInit .zeros .static (some ⟨3, 3, 4, 100⟩) = .ok (0, s) ∧
    Steps (Guarded (fun x c => KeepsApart x.1 c) TaggedStep) (s, Tags.start)
      [.open (some ⟨[47, 97], by decide⟩) tfsOCreat, .write 0 (Mem.ofList [104, 105]) 2,
        .open (some ⟨[47, 98], by decide⟩) tfsOCreat, .write 1 (Mem.ofList [104]) 1] (s', g) ∧
    Isolated s' g (.write 0 (Mem.ofList [33]) 1) := by
  obtain ⟨s, s', g, hinit, hrun, hc⟩ : ∃ s s' g, tfsInit .zeros .static (some ⟨3, 3, 4, 100⟩) = .ok (0, s) ∧
      Steps (Guarded (fun x c => KeepsApart x.1 c) TaggedStep) (s, Tags.start)
        [.open (some ⟨[47, 97], by decide⟩) tfsOCreat, .write 0 (Mem.ofList [104, 105]) 2,
          .open (some ⟨[47, 98], by decide⟩) tfsOCreat, .write 1 (Mem.ofList [104]) 1] (s', g) ∧
      KeepsApart s' (.write 0 (Mem.ofList [33]) 1) :=
    ⟨_, _, _, rfl, .cons ⟨by decide +kernel, .of_exec rfl⟩ (.cons ⟨by decide +kernel, .of_exec rfl⟩
      (.cons ⟨by decide +kernel, .of_exec rfl⟩ (.cons ⟨by decide +kernel, .of_exec rfl⟩ .nil))), by decide +kernel⟩
  exact ⟨s, s', g, hinit, hrun, files_isolated (p := some ⟨3, 3, 4, 100⟩)
    ⟨by decide, by decide, by decide, by decide, by decide⟩ hinit hrun hc⟩

/-- A file is unlinked while a handle on it is open, and the next file gets its inode: a write through the
handle grows the other file, which was empty, to seven bytes. -/
theorem tfsWrite_other_file : ∃ s s' g, tfsInit .zeros .static (some ⟨3, 3, 4, 100⟩) = .ok (0, s) ∧
    Steps TaggedStep (s, Tags.start)
      [.open (some ⟨[47, 97], by decide⟩) tfsOCreat, .write 0 (Mem.ofList [104, 101, 108, 108, 111]) 5,
        .unlink (some ⟨[47, 97], by decide⟩), .open (some ⟨[47, 98], by decide⟩) tfsOCreat] (s', g) ∧
    findInDir s' 0 ⟨[98], by decide⟩ = .ok 1 ∧ (s'.inodeTable.cell 1).iSize = 0 ∧
    g.handle 0 = 0 ∧ g.file [98] = 1 ∧
    (tfsWrite s' 0 (Mem.ofList [33, 33]) 2).map (fun x => (x.2.inodeTable.cell 1).iSize) = .ok 7 ∧
    ¬ Isolated s' g (.write 0 (Mem.ofList [33, 33]) 2) := by
  obtain ⟨s, s', g, hinit, hrun, hfind, hsize, hhandle, hfile, hget, hwrite⟩ : ∃ s s' g,
      tfsInit .zeros .static (some ⟨3, 3, 4, 100⟩) = .ok (0, s) ∧
      Steps TaggedStep (s, Tags.start)
        [.open (some ⟨[47, 97], by decide⟩) tfsOCreat, .write 0 (Mem.ofList [104, 101, 108, 108, 111]) 5,
          .unlink (some ⟨[47, 97], by decide⟩), .open (some ⟨[47, 98], by decide⟩) tfsOCreat] (s', g) ∧
      findInDir s' 0 ⟨[98], by decide⟩ = .ok 1 ∧ (s'.inodeTable.cell 1).iSize = 0 ∧
      g.handle 0 = 0 ∧ g.file [98] = 1 ∧ getOpenFileEntry s' 0 = some 0 ∧
      (tfsWrite s' 0 (Mem.ofList [33, 33]) 2).map (fun x => (x.2.inodeTable.cell 1).iSize) = .ok 7 :=
    ⟨_, _, _, rfl, .cons (.of_exec rfl) (.cons (.of_exec rfl) (.cons (.of_exec rfl) (.cons (.of_exec rfl) .nil))),
      by decide +kernel, by decide +kernel, by decide +kernel, by decide +kernel, by decide +kernel,
      by decide +kernel⟩
  refine ⟨s, s', g, hinit, hrun, hfind, hsize, hhandle, hfile, hwrite, fun h => ?_⟩
  obtain ⟨⟨r, s''⟩, he, hgrown⟩ := exists_ok_of_map hwrite
  obtain ⟨-, hsame, -⟩ := h 0 r s'' hget he ⟨[98], by decide⟩ 1 hfind (by rw [hhandle, hfile]; decide)
  rw [hsize] at hsame
  exact absurd (hgrown.symm.trans hsame) (by decide)

/-! ## Blocks -/

/-- Every TAKEN block has an owner, and only the root directory's is left once there is no file, exactly in the runs
in which no call stores the first bytes of a freed inode. -/
theorem blocks_not_leaked {cs : List Call} (hs : Sane (p.getD tfsDefaultParams)) (hinit : tfsInit m s₀ p = .ok (0, s))
    (hrun : Steps Step s cs s') :
    (NoLeak s' ∧ RootAlone s') ↔ Steps (Guarded (fun s c => ¬ LosesBlock s c) Step) s cs s' := by
  have h := tfsInit_initialised hs hinit
  exact noLeak_run hrun h.inv h.ownersApart h.noLeak

/-- A TecnicoFS of three inodes and three blocks, just initialised. -/
def smallFs : State := (tfsInit .zeros .static (some ⟨3, 3, 4, 100⟩)).toOption.elim .static Prod.snd

theorem smallFs_init : tfsInit .zeros .static (some ⟨3, 3, 4, 100⟩) = .ok (0, smallFs) := rfl

theorem smallFs_sane : Sane ((some (⟨3, 3, 4, 100⟩ : TfsParams)).getD tfsDefaultParams) :=
  ⟨by decide, by decide, by decide, by decide, by decide⟩

/-- A file is written and unlinked, and another one gets its inode and its block. -/
def reusedFile : List Call :=
  [.open (some ⟨[47, 97], by decide⟩) tfsOCreat, .write 0 (Mem.ofList [104, 105]) 2,
    .unlink (some ⟨[47, 97], by decide⟩), .open (some ⟨[47, 98], by decide⟩) tfsOCreat,
    .write 1 (Mem.ofList [104]) 1]

theorem blocks_not_leaked_reused : ∃ s', Steps Step smallFs reusedFile s' ∧ NoLeak s' ∧ RootAlone s' := by
  obtain ⟨s', hrun, -⟩ := exists_guarded (fun s c => ¬ LosesBlock s c) (fun _ => True) Step.of_next smallFs reusedFile
    (by decide +kernel)
  have hsteps := hrun.mono fun _ _ _ hs => hs.2
  exact ⟨s', hsteps, (blocks_not_leaked smallFs_sane smallFs_init hsteps).mpr hrun⟩

/-- A file without contents is unlinked, and a handle that is still open on it is written through. -/
def unlinkedFile : List Call :=
  [.open (some ⟨[47, 97], by decide⟩) tfsOCreat, .unlink (some ⟨[47, 97], by decide⟩), .write 0 (Mem.ofList [104]) 1]

/-- No file is left then, and a block beside the root directory's is TAKEN. -/
theorem block_leaked : ∃ s', Steps Step smallFs unlinkedFile s' ∧
    (∀ i < s'.maxDirEntries, (s'.rootEntry i).dInumber = -1) ∧ s'.rootBlock = 0 ∧ s'.freeBlocks.cell 1 = .taken ∧
    ¬ NoLeak s' ∧ ¬ RootAlone s' := by
  obtain ⟨s', hrun, hdead, hroot, hlt, ht, hfree⟩ := exists_steps (fun s' =>
      (∀ i < s'.maxDirEntries, (s'.rootEntry i).dInumber = -1) ∧ s'.rootBlock = 0 ∧ 1 < s'.dataBlocks ∧
        s'.freeBlocks.cell 1 = .taken ∧
        ∀ k < s'.inodeTableSize, s'.freeinodeTs.cell k = .taken → (s'.inodeTable.cell k).iDataBlock = 0) Step.of_next
    smallFs unlinkedFile (by decide +kernel)
  refine ⟨s', hrun, hdead, hroot, ht, fun hn => ?_, fun hr => ?_⟩
  · obtain hb | ⟨k, hk, htaken, -, hb⟩ := hn 1 hlt ht
    · omega
    · rw [hfree k hk htaken] at hb
      omega
  · have hb := hr hdead 1 hlt ht
    omega

/-- After every call the inodes in use with contents have TAKEN blocks of their own, and a call gives back only a
block that the inode it deletes or truncates owns; no block is given back otherwise. -/
theorem blocks_not_shared {cs : List Call} (hs : Sane (p.getD tfsDefaultParams)) (hinit : tfsInit m s₀ p = .ok (0, s))
    (hrun : Steps Step s cs s') : BlocksOwned s' ∧ (∀ c, FreesOwn s' c) ∧
      ∀ c s'', Step s' c s'' → ∀ b, s'.freeBlocks.cell b = .taken → s''.freeBlocks.cell b = .free →
        ∃ fs, blockFrees s' c = .ok fs ∧ ∃ f ∈ fs, f.2.toNat = b := by
  have h := tfsInit_initialised hs hinit
  obtain ⟨L, hinv, ha⟩ := hrun.invariant (I := fun s => ∃ L, FsInv s L ∧ OwnersApart s)
    (fun s c s' ⟨L, hinv, ha⟩ hstep => by
      obtain ⟨L', hinv'⟩ := hinv.step hstep
      exact ⟨L', hinv', ha.step hinv hstep⟩) ⟨_, h.inv, h.ownersApart⟩
  exact ⟨ha.blocksOwned hinv, ha.freesOwn hinv, fun _ _ hstep _ ht hfree => hinv.blockFrees_of_step hstep ht hfree⟩

/-- A handle of an unlinked file is written through, after another file got its inode. -/
def staleHandle : List Call :=
  [.open (some ⟨[47, 97], by decide⟩) tfsOCreat, .write 0 (Mem.ofList [104, 105]) 2,
    .unlink (some ⟨[47, 97], by decide⟩), .open (some ⟨[47, 98], by decide⟩) tfsOCreat,
    .write 0 (Mem.ofList [33]) 1, .open (some ⟨[47, 99], by decide⟩) tfsOCreat, .write 2 (Mem.ofList [104]) 1]

theorem blocks_not_shared_stale : ∃ s', Steps Step smallFs staleHandle s' ∧ s'.Owns 1 1 ∧ s'.Owns 2 2 ∧
    BlocksOwned s' ∧ ∀ c, FreesOwn s' c := by
  obtain ⟨s', hrun, ho, ho'⟩ := exists_steps (fun s' => s'.Owns 1 1 ∧ s'.Owns 2 2) Step.of_next smallFs staleHandle
    (by decide +kernel)
  obtain ⟨howned, hfrees, -⟩ := blocks_not_shared smallFs_sane smallFs_init hrun
  exact ⟨s', hrun, ho, ho', howned, hfrees⟩

/-! ## The root directory -/

/-- After every call the live entries of the root directory and the inodes of the files are in bijection, and no
write changes a byte of the root directory's block. -/
theorem directory_matches {cs : List Call} (hs : Sane (p.getD tfsDefaultParams)) (hinit : tfsInit m s₀ p = .ok (0, s))
    (hrun : Steps Step s cs s') :
    DirectoryMatches s' ∧
      ∀ fhandle buffer n r s'', tfsWrite s' fhandle buffer n = .ok (r, s'') → RootUntouched s' s'' := by
  obtain ⟨L, hinv⟩ := hrun.invariant (I := fun s => ∃ L, FsInv s L) (fun s c s' ⟨L, hinv⟩ hstep => hinv.step hstep)
    ⟨_, (tfsInit_initialised hs hinit).inv⟩
  exact ⟨hinv.root.directoryMatches, fun fhandle buffer n r s'' he => hinv.tfsWrite_rootUntouched he⟩

/-- A name that is too long gets no entry, and its inode is given back. -/
def refusedName : List Call :=
  staleHandle ++ [.unlink (some ⟨[47, 98], by decide⟩),
    .open (some ⟨47 :: List.replicate 40 97, by decide⟩) tfsOCreat]

theorem directory_matches_refused : ∃ s', Steps Step smallFs refusedName s' ∧ s'.Live 1 ∧ ¬ s'.Live 0 ∧
    DirectoryMatches s' ∧
      ∀ fhandle buffer n r s'', tfsWrite s' fhandle buffer n = .ok (r, s'') → RootUntouched s' s'' := by
  obtain ⟨s', hrun, hlive, hdead⟩ := exists_steps (fun s' => s'.Live 1 ∧ ¬ s'.Live 0) Step.of_next smallFs refusedName
    (by decide +kernel)
  exact ⟨s', hrun, hlive, hdead, directory_matches smallFs_sane smallFs_init hrun⟩

/-- After every call `find_in_dir` finds the names that were added and not cleared since, and `tfs_unlink` clears
the entry that it found, so that it fails only before it deletes the inode. -/
theorem directory_names_agree {cs : List Call} (hs : Sane (p.getD tfsDefaultParams))
    (hinit : tfsInit m s₀ p = .ok (0, s)) (hrun : Steps Step s cs s') :
    ∃ d, Steps NamedStep (s, fun _ => none) cs (s', d) ∧ FindsAdded s' d ∧ (∀ path, ClearsFound s' path) ∧
      ∀ target s'', tfsUnlink s' target = .ok (-1, s'') → s'' = s' := by
  have h := tfsInit_initialised hs hinit
  obtain ⟨d, hnamed⟩ := FsInv.exists_named hrun h.inv .empty
  obtain ⟨L, hinv, hd⟩ := FsInv.named_steps hnamed ⟨_, h.inv, .empty⟩
  exact ⟨d, hnamed, hd.findsAdded hinv.root, hinv.clearsFound, fun _ _ he => hinv.tfsUnlink_failed he⟩

/-- A `malloc` whose bytes hold the name "a" in every entry of the block. -/
def Malloc.named : Malloc := { Malloc.zeros with fsData := some fun x => if x % sizeofDirEntry = 1 then 0 else 97 }

/-- A TecnicoFS of two directory entries, whose block held the name "a" twice. -/
def namedFs : State := (tfsInit .named .static (some ⟨3, 3, 4, 100⟩)).toOption.elim .static Prod.snd

theorem namedFs_init : tfsInit .named .static (some ⟨3, 3, 4, 100⟩) = .ok (0, namedFs) := rfl

/-- The name in the memory is created in the second entry, and the file in the first one is removed. -/
def garbledNames : List Call :=
  [.open (some ⟨[47, 98], by decide⟩) tfsOCreat, .unlink (some ⟨[47, 97], by decide⟩),
    .open (some ⟨[47, 97], by decide⟩) tfsOCreat, .unlink (some ⟨[47, 98], by decide⟩)]

theorem directory_names_agree_garbled : ∃ s' d, s'.foundAt ⟨[97], by decide⟩ = some 1 ∧
    s'.foundAt ⟨[98], by decide⟩ = none ∧ Steps NamedStep (namedFs, fun _ => none) garbledNames (s', d) ∧
    FindsAdded s' d ∧ (∀ path, ClearsFound s' path) ∧
      ∀ target s'', tfsUnlink s' target = .ok (-1, s'') → s'' = s' := by
  obtain ⟨s', hrun, ha, hb⟩ := exists_steps (fun s' : State =>
    s'.foundAt ⟨[97], by decide⟩ = some 1 ∧ s'.foundAt ⟨[98], by decide⟩ = none) Step.of_next namedFs garbledNames
    (by decide +kernel)
  obtain ⟨d, hd⟩ := directory_names_agree smallFs_sane namedFs_init hrun
  exact ⟨s', d, ha, hb, hd⟩

/-! ## Failed calls -/

/-- A call that returns -1 changes nothing but for the file that is created and not opened, exactly when it does not
truncate a file that it cannot open. -/
theorem failure_unchanged {cs : List Call} {c : Call} {r : Ret} {s'' : State} (hs : Sane (p.getD tfsDefaultParams))
    (hinit : tfsInit m s₀ p = .ok (0, s)) (hrun : Steps Step s cs s') (he : exec s' c = .ok (r, s''))
    (hr : r.value = -1) : Unchanged s' s'' ∨ CreatedUnopened s' c s'' ↔ ¬ TruncatesUnopened s' c := by
  obtain ⟨L, hinv⟩ := FsInv.steps hrun ⟨_, (tfsInit_initialised hs hinit).inv⟩
  exact hinv.unchanged_iff he hr

/-- A file is written, and its handle and three others take the four handles of the table. -/
def fullTable : List Call :=
  [.open (some ⟨[47, 97], by decide⟩) tfsOCreat, .write 0 (Mem.ofList [104, 105]) 2,
    .open (some ⟨[47, 97], by decide⟩) 0, .open (some ⟨[47, 97], by decide⟩) 0, .open (some ⟨[47, 97], by decide⟩) 0]

/-- The inode of a name that is too long is given back. -/
theorem failure_unchanged_tooLong : ∃ s' r s'', Steps Step smallFs fullTable s' ∧
    exec s' (.open (some ⟨47 :: List.replicate 40 97, by decide⟩) tfsOCreat) = .ok (r, s'') ∧ r.value = -1 ∧
    (Unchanged s' s'' ∨ CreatedUnopened s' (.open (some ⟨47 :: List.replicate 40 97, by decide⟩) tfsOCreat) s'' ↔
      ¬ TruncatesUnopened s' (.open (some ⟨47 :: List.replicate 40 97, by decide⟩) tfsOCreat)) := by
  obtain ⟨s', hrun, he⟩ := exists_steps (fun s' => (exec s' (.open (some ⟨47 :: List.replicate 40 97, by decide⟩)
    tfsOCreat)).map (fun x => x.1.value) = .ok (-1)) Step.of_next smallFs fullTable (by decide +kernel)
  obtain ⟨⟨r, s''⟩, he, hr⟩ := exists_ok_of_map he
  exact ⟨s', r, s'', hrun, he, hr, failure_unchanged smallFs_sane smallFs_init hrun he hr⟩

/-- The file is truncated, and the call returns -1. -/
theorem tfsOpen_truncates : ∃ s' r s'', Steps Step smallFs fullTable s' ∧
    exec s' (.open (some ⟨[47, 97], by decide⟩) tfsOTrunc) = .ok (r, s'') ∧ r.value = -1 ∧
    s'.content ⟨[47, 97], by decide⟩ = some [104, 105] ∧ s''.content ⟨[47, 97], by decide⟩ = some [] ∧
    s'.freeBlocks.cell 1 = .taken ∧ s''.freeBlocks.cell 1 = .free ∧ ¬ Unchanged s' s'' ∧
    ¬ CreatedUnopened s' (.open (some ⟨[47, 97], by decide⟩) tfsOTrunc) s'' := by
  obtain ⟨s', hrun, hcontent, htaken, he⟩ := exists_steps (fun s' : State =>
    s'.content ⟨[47, 97], by decide⟩ = some [104, 105] ∧ s'.freeBlocks.cell 1 = .taken ∧
    (exec s' (.open (some ⟨[47, 97], by decide⟩) tfsOTrunc)).map (fun x =>
      (x.1.value, x.2.content ⟨[47, 97], by decide⟩, x.2.freeBlocks.cell 1)) = .ok (-1, some [], .free)) Step.of_next
    smallFs fullTable (by decide +kernel)
  obtain ⟨⟨r, s''⟩, he, hr⟩ := exists_ok_of_map he
  simp only [Prod.mk.injEq] at hr
  obtain ⟨hr, hcontent', hfree⟩ := hr
  refine ⟨s', r, s'', hrun, he, hr, hcontent, hcontent', htaken, hfree, fun hsame => ?_, ?_⟩
  · have hafter := hsame.content ⟨[47, 97], by decide⟩
    rw [hcontent, hcontent'] at hafter
    cases hafter
  · rintro ⟨p, mode, hc, -, hnone, -⟩
    cases hc
    rw [hcontent] at hnone
    cases hnone

/-! ## A failed start-up -/

/-- A `tfs_init` that returns -1 leaves the parameters and the tables as they were exactly when the parameters are
those in force, and the tables are already there or no `malloc` succeeded. -/
theorem tfsInit_unchanged_iff (h : s.Uninitialised ∨ s.Running) (he : tfsInit m s p = .ok (-1, s')) :
    s' = s ↔ KeepsState m s (p.getD tfsDefaultParams) := by
  obtain h | h := h
  · exact h.tfsInit_unchanged he
  · exact h.tfsInit_unchanged he

/-- The same parameters again. -/
theorem tfsInit_unchanged_iff_again : KeepsState .zeros smallFs ⟨3, 3, 4, 100⟩ ∧
    ∃ s', tfsInit .zeros smallFs (some ⟨3, 3, 4, 100⟩) = .ok (-1, s') ∧
      (s' = smallFs ↔ KeepsState .zeros smallFs ⟨3, 3, 4, 100⟩) :=
  ⟨⟨rfl, Or.inl rfl⟩, _, rfl, tfsInit_unchanged_iff (p := some ⟨3, 3, 4, 100⟩)
    (Or.inr ⟨_, _, _, _, [], smallFs_init, .nil⟩) rfl⟩

/-- A file is written. -/
def writtenFile : List Call :=
  [.open (some ⟨[47, 97], by decide⟩) tfsOCreat, .write 0 (Mem.ofList [104, 105]) 2]

/-- After a `tfs_init` that returned -1 a write copies behind the data area; and after one that returned -1 because
a `malloc` failed, TecnicoFS can not be initialised any more. -/
theorem tfsInit_failure_changes : (∃ s s', Steps Step smallFs writtenFile s ∧
      (tfsWrite s 0 (Mem.ofList [33]) 1).map (·.1) = .ok 1 ∧
      tfsInit .zeros s none = .ok (-1, s') ∧ s' ≠ s ∧ s'.fsParams ≠ s.fsParams ∧ s'.fsData = s.fsData ∧
      (tfsWrite s' 0 (Mem.ofList [33]) 1).map (·.1) = .error .outOfBounds) ∧
    State.static.Uninitialised ∧ ∃ s, tfsInit { Malloc.zeros with fsData := none } .static (some ⟨3, 3, 4, 100⟩) =
      .ok (-1, s) ∧ s ≠ .static ∧ ∃ s', tfsInit .zeros s (some ⟨3, 3, 4, 100⟩) = .ok (-1, s') := by
  refine ⟨?_, State.uninitialised_static, _, rfl, fun hsame => ?_, _, rfl⟩
  · obtain ⟨s, hrun, hp, hn, hw, hw'⟩ := exists_steps (fun s => s.fsParams = ⟨3, 3, 4, 100⟩ ∧
        s.inodeTable.isNull = false ∧ (tfsWrite s 0 (Mem.ofList [33]) 1).map (·.1) = .ok 1 ∧
        (tfsWrite { s with fsParams := tfsDefaultParams } 0 (Mem.ofList [33]) 1).map (·.1) = .error .outOfBounds)
      Step.of_next smallFs writtenFile (by decide +kernel)
    have hne : tfsDefaultParams ≠ s.fsParams := by
      rw [hp]
      decide
    exact ⟨s, _, hrun, hw, tfsInit_of_not_null hn, fun hsame => hne (congrArg State.fsParams hsame), hne, rfl, hw'⟩
  · have hparams := congrArg (fun s => s.fsParams.maxInodeCount) hsame
    cases hparams

/-! ## Any parameters -/

/-- With whatever parameters, `tfs_init` stays in the tables and evaluates no remainder by zero, and returns 0 only with
tables of the right size and an empty root directory, exactly if a `malloc` fails or the parameters are safe. -/
theorem tfsInit_safe_iff (h : s.Uninitialised) (params : TfsParams) :
    SafeStart (Checked.tfsInit m s (some params)) ↔ ¬ m.Succeeds ∨ params.Safe := by
  have hnull : s.inodeTable.isNull = true := by
    rw [Table.isNull, h s.inodeTable.bytes (List.mem_cons_self ..), Option.isNone_none]
  by_cases hm : m.Succeeds
  swap
  · obtain ⟨s', he⟩ := Checked.stateInit_of_not_succeeds hnull hm
    refine iff_of_true ⟨-1, s', ?_, fun h0 => absurd h0 (by decide)⟩ (Or.inl hm)
    rw [Checked.tfsInit, Option.getD_some, he]
    rfl
  rw [or_iff_right (not_not.mpr hm)]
  by_cases hfit : params.LabelsFit
  · obtain ⟨⟨r, s₁⟩, he⟩ := (Checked.stateInit_iff hnull hm).mpr hfit
    obtain ⟨rfl, hstart⟩ := Checked.stateInit_started hnull hm he
    rw [Checked.safeStart_iff he]
    constructor
    · rintro ⟨root, s', hroot, hsafe⟩
      exact hstart.safe hroot fun h0 => (hsafe h0).1
    · exact hstart.safeStart
  · refine iff_of_false ?_ fun hsafe => hfit hsafe.1
    rintro ⟨r, s', hr, -⟩
    rw [Checked.tfsInit, Option.getD_some] at hr
    obtain ⟨x, he, -⟩ := bind_eq_ok hr
    exact hfit ((Checked.stateInit_iff hnull hm).mp ⟨x, he⟩)

/-- The default parameters. -/
theorem tfsInit_safe_default : tfsDefaultParams.Safe ∧
    SafeStart (Checked.tfsInit .zeros .static (some tfsDefaultParams)) := by
  have hsafe : tfsDefaultParams.Safe := by
    have hlabels : tfsDefaultParams.LabelsFit := ⟨by decide, by decide, by decide⟩
    have hsizes : tfsDefaultParams.SizesFit := ⟨by decide, by decide, by decide⟩
    exact ⟨hlabels, Or.inr ⟨by decide, Or.inr ⟨by decide, hsizes⟩⟩⟩
  exact ⟨hsafe, (tfsInit_safe_iff State.uninitialised_static tfsDefaultParams).mpr (Or.inr hsafe)⟩

/-- 2^31 + 1 blocks of 8 GiB: their size wraps to that of one. -/
def hugeParams : TfsParams := ⟨1, 2 ^ 31 + 1, 1, 2 ^ 33⟩

/-- With blocks of 0 bytes a remainder by zero is evaluated; and huge blocks get the memory of one. -/
theorem tfsInit_unsafe : Checked.tfsInit .zeros .static (some ⟨1, 1, 1, 0⟩) = .error .divByZero ∧
    (∃ s', Checked.tfsInit .zeros .static (some hugeParams) = .ok (0, s') ∧
      tfsInit .zeros .static (some hugeParams) = .ok (0, s') ∧ s'.fsData.bytes = some (2 ^ 33) ∧
      s'.validBlockNumber 1 = true ∧ s'.fsData.covers s'.blockSize 2 = false) ∧
    ¬ ∀ (m : Malloc) (s : State) (params : TfsParams), s.Uninitialised →
      SafeStart (Checked.tfsInit m s (some params)) := by
  have hzero : Checked.tfsInit .zeros .static (some ⟨1, 1, 1, 0⟩) = .error .divByZero := rfl
  have hsucceeds : Malloc.zeros.Succeeds := ⟨rfl, rfl, rfl, rfl, rfl, rfl⟩
  have hlabels : hugeParams.LabelsFit := ⟨by decide, by decide, by decide⟩
  have hwraps : toSize (hugeParams.maxBlockCount * hugeParams.blockSize) = 2 ^ 33 := by decide
  refine ⟨hzero, ?_, fun h => ?_⟩
  · obtain ⟨s', he, hparams, hbytes⟩ := Checked.tfsInit_zero (s := .static) rfl hsucceeds hlabels (by decide)
      (by decide) (by decide) (by decide) hwraps.ge
    rw [hwraps] at hbytes
    refine ⟨s', he, Checked.tfsInit_refines _ _ _ _ he, hbytes, ?_, ?_⟩
    · rw [State.validBlockNumber, State.dataBlocks, hparams]
      decide
    · rw [Table.covers, hbytes, State.blockSize, hparams]
      decide
  · obtain ⟨r, s', he, -⟩ := h .zeros .static ⟨1, 1, 1, 0⟩ State.uninitialised_static
    rw [hzero] at he
    cases he

end Mbroker.Fs
