import Mbroker.Fs.Lemmas.Handles
import Mbroker.Fs.Lemmas.Simulation

/-!
# A view of the file system through some of its handles

A handle that nobody uses any more may outlive its file: then no abstract file stands for it. A view is an
abstract file system that knows the handles in use only. The tables refine it when the other handles are taken
for closed, and an operation on a handle in use does not notice the difference.
-/

namespace Mbroker.Fs

open Mbroker.Lib

variable {s s' : State} {L L' : Layout} {K : Nat → Bool} {a : FileSystem}

/-! ## Taking the other handles for closed -/

/-- The state in which only the handles of `K` are open. -/
def State.only (s : State) (K : Nat → Bool) : State :=
  { s with freeOpenFileEntries :=
      { s.freeOpenFileEntries with cell := fun i => if K i then s.freeOpenFileEntries.cell i else .free } }

namespace State

theorem isOpen_only {i : Nat} : (s.only K).IsOpen i ↔ K i = true ∧ s.IsOpen i := by
  unfold IsOpen only
  cases hK : K i <;> simp [hK, maxOpenFiles]

theorem getOpenFileEntry_only {fh : Int} (h : getOpenFileEntry s fh = none) :
    getOpenFileEntry (s.only K) fh = none := by
  cases hget : getOpenFileEntry (s.only K) fh with
  | none => rfl
  | some j =>
      obtain ⟨hj, hopen⟩ := getOpenFileEntry_eq_some.mp hget
      rw [getOpenFileEntry_eq_some.mpr ⟨hj, (isOpen_only.mp hopen).2⟩] at h
      cases h

theorem only_congr {K' : Nat → Bool} (h : ∀ i, K' i = K i) : s.only K' = s.only K := by
  rw [funext h]

/-- A handle that is opened and not in `K` leaves no trace but its entry in the table. -/
theorem only_openAt_closeAt {i : Nat} (hi : K i = false) (k : Int) (off : Nat) :
    (s.openAt i k off).only K = ((s.only K).openAt i k off).closeAt i := by
  simp only [only, openAt, closeAt, Table.set, Function.update_idem]
  congr 2
  funext j
  by_cases hji : j = i
  · subst hji
    simp [hi]
  · simp [Function.update_of_ne hji]

theorem only_openAt {i : Nat} {K' : Nat → Bool} (hi : K' i = true) (hK : ∀ j, j ≠ i → K' j = K j) (k : Int)
    (off : Nat) : (s.openAt i k off).only K' = (s.only K).openAt i k off := by
  simp only [only, openAt, Table.set]
  congr 2
  funext j
  by_cases hji : j = i
  · subst hji
    simp [hi]
  · simp [Function.update_of_ne hji, hK j hji]

theorem only_drop {i : Nat} {K' : Nat → Bool} (hi : K' i = false) (hK : ∀ j, j ≠ i → K' j = K j) :
    s.only K' = (s.only K).closeAt i := by
  simp only [only, closeAt, Table.set]
  congr 2
  funext j
  by_cases hji : j = i
  · subst hji
    simp [hi]
  · simp [Function.update_of_ne hji, hK j hji]

end State

theorem FsInv.only (h : FsInv s L) : FsInv (s.only K) L := by
  refine ⟨h.root.frame rfl (fun _ _ => rfl) rfl (fun _ _ _ => rfl) (fun _ _ _ => rfl),
    h.data.of_change rfl rfl rfl h.data.rootBlockTaken
      (fun j hj => h.data.handle (State.isOpen_only.mp hj).2) (fun k hk hu => h.data.inodeOk hk ?_)⟩
  obtain ⟨hlt, ht | ⟨j, hj, hjk⟩⟩ := hu
  · exact ⟨hlt, Or.inl ht⟩
  · exact ⟨hlt, Or.inr ⟨j, (State.isOpen_only.mp hj).2, hjk⟩⟩

theorem ReadOutcome.only {i len : Nat} {res : Int × List UInt8 × State} (hK : K i = true)
    (ho : ReadOutcome s len i res) : ReadOutcome (s.only K) len i (res.1, res.2.1, res.2.2.only K) := by
  have hopen : ∀ {j : Nat}, (j : Int) = i → s.IsOpen j → (s.only K).IsOpen j := by
    intro j hj hjo
    obtain rfl : j = i := by omega
    exact State.isOpen_only.mpr ⟨hK, hjo⟩
  generalize hfh : (i : Int) = fh at ho
  cases ho with
  | closed hget =>
      subst hfh
      exact .closed (State.getOpenFileEntry_only hget)
  | nothing hi hk hn => exact .nothing (hopen hfh.symm hi) hk hn
  | data hi hk hn hpos hb hlt hle => exact .data (hopen hfh.symm hi) hk hn hpos hb hlt hle

theorem WriteOutcome.only {i n : Nat} {buffer : Mem} {res : Int × State} (hK : K i = true)
    (ho : WriteOutcome s buffer n i res) : WriteOutcome (s.only K) buffer n i (res.1, res.2.only K) := by
  have hopen : ∀ {j : Nat}, (j : Int) = i → s.IsOpen j → (s.only K).IsOpen j := by
    intro j hj hjo
    obtain rfl : j = i := by omega
    exact State.isOpen_only.mpr ⟨hK, hjo⟩
  generalize hfh : (i : Int) = fh at ho
  cases ho with
  | closed hget =>
      subst hfh
      exact .closed (State.getOpenFileEntry_only hget)
  | nothing hi hk hn => exact .nothing (hopen hfh.symm hi) hk hn
  | noBlock hi hk hn hsize hb => exact .noBlock (hopen hfh.symm hi) hk hn hsize hb
  | fresh hi hk hn hpos hfit hsize hb => exact .fresh (hopen hfh.symm hi) hk hn hpos hfit hsize hb
  | inPlace hi hk hn hpos hfit hsize hb hlt =>
      exact .inPlace (hopen hfh.symm hi) hk hn hpos hfit hsize hb hlt

/-! ## Views -/

/-- The contents of the file with the path `p`, if there is one. -/
def State.content (s : State) (p : CString) : Option (List UInt8) :=
  match tfsLookup s p 0 with
  | .ok (.ofNat k) => some (s.fileBytes k)
  | _ => none

theorem RootOk.content_eq (h : RootOk s L) {p : CString} : s.content p =
    if validPathname p = true ∧ p.tail.chars ∈ L.names then some (s.fileBytes (L.ino p.tail.chars)) else none := by
  by_cases hp : validPathname p = true
  · by_cases hn : p.tail.chars ∈ L.names
    · rw [State.content, tfsLookup_eq h hp, if_pos hn, if_pos ⟨hp, hn⟩]
    · rw [State.content, tfsLookup_eq h hp, if_neg hn, if_neg fun hand => hn hand.2]
      rfl
  · rw [State.content, tfsLookup, if_pos (by simpa using hp), if_neg fun hand => hp hand.1]
    rfl

/-- The handles that the view knows. -/
def FileSystem.known (a : FileSystem) (i : Nat) : Bool := (a.handles i).isSome

/-- The tables hold the files of `a` and its handles, and perhaps other handles. -/
structure View (s : State) (L : Layout) (a : FileSystem) : Prop where
  inv : FsInv s L
  refines : Refines a.stored (s.only a.known) L a

theorem Initialised.view {params : TfsParams} (h : Initialised s params) : View s Layout.empty FileSystem.empty := by
  have hempty : Initialised (s.only FileSystem.empty.known) params :=
    ⟨h.inv.only, h.params, fun i hi => h.noHandle i (State.isOpen_only.mp hi).2, h.blocks⟩
  exact ⟨h.inv, hempty.refines⟩

namespace View

theorem names (h : View s L a) : a.names = L.names := h.refines.names

theorem unknown (h : View s L a) {i : Nat} (hi : ¬ s.IsOpen i) : a.handles i = none := by
  cases hh : a.handles i with
  | none => rfl
  | some x => exact absurd (State.isOpen_only.mp (h.refines.handle_some i x.1 x.2 hh).1).2 hi

theorem entry (h : View s L a) {i off : Nat} {n : List UInt8} (hi : a.handles i = some (n, off)) :
    n ∈ a.names ∧ s.openFileTable.cell i = ⟨L.ino n, off⟩ ∧ off ≤ (a.content n).length ∧
      (s.inodeTable.cell (L.ino n)).iSize = (a.content n).length := by
  obtain ⟨-, hn, hentry, hle⟩ := h.refines.handle_some i n off hi
  exact ⟨by rw [h.names]; exact hn, hentry, hle, h.refines.size hn⟩

theorem content_le (h : View s L a) {n : List UInt8} (hn : n ∈ a.names) : (a.content n).length ≤ s.blockSize :=
  h.refines.wellFormed.content n hn

theorem handle_some {i off : Nat} {n : List UInt8} (hi : a.handles i = some (n, off)) :
    a.handle i = some (i, n, off) := FileSystem.handle_eq_some.mpr ⟨rfl, hi⟩

theorem known_setHandle {i : Nat} {x y : List UInt8 × Nat} (hi : a.handles i = some x) (j : Nat) :
    (a.setHandle i (some y)).known j = a.known j := by
  by_cases hji : j = i
  · subst hji
    simp [FileSystem.known, hi]
  · simp [FileSystem.known, FileSystem.setHandle_ne hji]

theorem known_setHandle_ne {i j : Nat} {x : Option (List UInt8 × Nat)} (hji : j ≠ i) :
    (a.setHandle i x).known j = a.known j := by
  simp [FileSystem.known, FileSystem.setHandle_ne hji]

/-- The contents of the files are those of the view. -/
theorem content_eq (h : View s L a) {p : CString} : s.content p =
    if validPathname p = true ∧ p.tail.chars ∈ a.names then some (a.content p.tail.chars) else none := by
  rw [h.inv.root.content_eq, h.names]
  by_cases hn : validPathname p = true ∧ p.tail.chars ∈ L.names
  · rw [if_pos hn, if_pos hn]
    exact congrArg some (h.refines.content _ hn.2)
  · rw [if_neg hn, if_neg hn]

theorem forget (h : View s L a) (i : Nat) : View s L (a.setHandle i none) := by
  refine ⟨h.inv, ?_⟩
  rw [State.only_drop (K := a.known) (i := i) (by simp [FileSystem.known]) fun j hj => known_setHandle_ne hj]
  exact h.refines.closeAt i

/-! ## The operations -/

theorem tfsRead (h : View s L a) {i off len : Nat} {n : List UInt8} {res : Int × List UInt8 × State}
    (hi : a.handles i = some (n, off)) (he : Fs.tfsRead s i len = .ok res) :
    res.2.1 = ((a.content n).drop off).take len ∧
      View res.2.2 L (a.setHandle i (some (n, off + res.2.1.length))) := by
  have ho := h.inv.tfsRead_outcome he
  have hK : a.known i = true := by simp [FileSystem.known, hi]
  obtain ⟨-, hdata, href⟩ := h.refines.of_read (ho.only hK)
  have hop : a.readFile i len = (⟨(((a.content n).drop off).take len).length, ((a.content n).drop off).take len⟩,
      a.setHandle i (some (n, off + (((a.content n).drop off).take len).length))) := by
    simp only [FileSystem.readFile, handle_some hi]
  rw [hop] at hdata href
  refine ⟨hdata, h.inv.of_read ho, ?_⟩
  rw [State.only_congr (known_setHandle hi), show res.2.1 = _ from hdata]
  exact href

/-- What does not fit the block is cut off. A write that stores nothing changes nothing. -/
theorem tfsWrite (h : View s L a) {i off m : Nat} {n : List UInt8} {buffer : Mem} {res : Int × State}
    (hi : a.handles i = some (n, off)) (hsum : m + off < 2 ^ 64) (he : Fs.tfsWrite s i buffer m = .ok res) :
    res.1 ≤ 0 ∧ View res.2 L a ∨ 0 < res.1 ∧ off < s.blockSize ∧ View res.2 L
      ((a.setContent n (overwrite (a.content n) off (buffer.bytes (min m (s.blockSize - off))))).setHandle i
        (some (n, off + min m (s.blockSize - off)))) := by
  obtain ⟨res', he', ho⟩ | ⟨he', -⟩ := h.inv.tfsWrite_outcome i buffer m
  swap
  · rw [he] at he'
    cases he'
  rw [he] at he'
  cases he'
  have hK : a.known i = true := by simp [FileSystem.known, hi]
  have hok : a.Allowed (.write i buffer m) := by
    intro j n' off' hj
    rw [handle_some hi] at hj
    cases hj
    exact hsum
  obtain ⟨hr, href⟩ := h.refines.of_write hok (ho.only hK)
  have hinv := h.inv.of_write ho
  have hop : a.writeFile (s.only a.known).fsParams i buffer m =
      if min m (s.blockSize - off) = 0 then ((0 : Int), a)
      else if a.content n = [] ∧ a.stored.card + 1 = s.fsParams.maxBlockCount then (-1, a)
      else ((min m (s.blockSize - off) : Nat),
        (a.setContent n (overwrite (a.content n) off (buffer.bytes (min m (s.blockSize - off))))).setHandle i
          (some (n, off + min m (s.blockSize - off)))) := by
    simp only [FileSystem.writeFile, handle_some hi]
    rfl
  rw [hop] at hr href
  by_cases hz : min m (s.blockSize - off) = 0
  · rw [if_pos hz] at hr href
    exact Or.inl ⟨le_of_eq hr, hinv, href⟩
  rw [if_neg hz] at hr href
  by_cases hfull : a.content n = [] ∧ a.stored.card + 1 = s.fsParams.maxBlockCount
  · rw [if_pos hfull] at hr href
    refine Or.inl ⟨?_, hinv, href⟩
    have hr : res.1 = -1 := hr
    omega
  · rw [if_neg hfull] at hr href
    refine Or.inr ⟨?_, by omega, hinv, ?_⟩
    · have hr : res.1 = (min m (s.blockSize - off) : Nat) := hr
      omega
    · refine Eq.mp (congrArg (fun t => Refines _ t L _) (State.only_congr fun j => ?_)) href
      exact (known_setHandle (a := a.setContent n _) hi j).symm

theorem tfsOpen (h : View s L a) {p : CString} {mode : Nat} {res : Int × State}
    (hc : hasFlag mode tfsOCreat = false) (ht : hasFlag mode tfsOTrunc = false)
    (he : Fs.tfsOpen s (some p) mode = .ok res) :
    res.1 = -1 ∧ View res.2 L a ∨ ∃ i : Nat, res.1 = i ∧ a.handles i = none ∧ validPathname p = true ∧
      p.tail.chars ∈ a.names ∧ View res.2 L (a.setHandle i (some (p.tail.chars,
        if hasFlag mode tfsOAppend then (a.content p.tail.chars).length else 0))) := by
  obtain ⟨res', he', ho⟩ := h.inv.tfsOpen_outcome (some p) mode
  rw [he] at he'
  cases he'
  cases ho with
  | invalid hp => exact Or.inl ⟨rfl, h⟩
  | absent hp hn hc => exact Or.inl ⟨rfl, h⟩
  | noInode hp hn hc' hk =>
      rw [hc] at hc'
      cases hc'
  | noEntry hp hn hc' hk hfull =>
      rw [hc] at hc'
      cases hc'
  | truncated hp hn ht' hsize =>
      rw [ht] at ht'
      cases ht'
  | created hp hn hc' hk hlen hi =>
      rw [hc] at hc'
      cases hc'
  | existing hp hn _ =>
      have hoff : (if hasFlag mode tfsOAppend then (a.content p.tail.chars).length else 0) ≤
          (a.content p.tail.chars).length := by
        split <;> omega
      have hsize : (s.inodeTable.cell (L.ino p.tail.chars)).iSize = (a.content p.tail.chars).length :=
        h.refines.size hn
      rw [hsize, addToOpenFileTable_eq]
      split
      · rename_i i hfree
        obtain ⟨hi, hlt, -⟩ := firstFree_eq_some.mp hfree
        have hclosed : ¬ s.IsOpen i := by
          rintro ⟨-, htaken⟩
          rw [hi] at htaken
          cases htaken
        refine Or.inr ⟨i, rfl, h.unknown hclosed, hp, by rw [h.names]; exact hn, ?_, ?_⟩
        · have hmax := h.content_le (by rw [h.names]; exact hn)
          have hbs := h.inv.root.sane.blockSize_lt'
          exact h.inv.openAt (h.inv.root.ino_pos _ hn) (h.inv.inUse_ino hn) (by omega)
        · rw [State.only_openAt (K := a.known) (by simp [FileSystem.known]) fun j hj => known_setHandle_ne hj]
          exact h.refines.openAt hlt hn hoff
      · exact Or.inl ⟨rfl, h⟩

theorem openAt (h : View s L a) {i k off : Nat} {n : List UInt8} (hlt : i < s.maxOpenFiles) (hi : a.handles i = none)
    (hn : n ∈ L.names) (hk : k = L.ino n) (hoff : off ≤ (a.content n).length) : View (s.openAt i k off) L a := by
  subst hk
  have hmax := h.content_le (by rw [h.names]; exact hn)
  have hbs := h.inv.root.sane.blockSize_lt'
  refine ⟨h.inv.openAt (h.inv.root.ino_pos n hn) (h.inv.inUse_ino hn) (by omega), ?_⟩
  have hdrop : (a.setHandle i (some (n, off))).setHandle i none = a := by
    simp only [FileSystem.setHandle, Function.update_idem]
    rw [← hi, Function.update_eq_self]
  rw [State.only_openAt_closeAt (by simp [FileSystem.known, hi])]
  have href := (h.refines.openAt hlt hn hoff).closeAt i
  rw [hdrop] at href
  exact href

theorem tfsOpen_create (h : View s L a) {p : CString} {res : Int × State}
    (he : Fs.tfsOpen s (some p) tfsOCreat = .ok res) : ∃ L', View res.2 L' a ∨ p.tail.chars ∉ a.names ∧
      View res.2 L' { a.setContent p.tail.chars [] with names := insert p.tail.chars a.names } := by
  obtain ⟨res', he', ho⟩ := h.inv.tfsOpen_outcome (some p) tfsOCreat
  rw [he] at he'
  cases he'
  have hopen : ∀ {t : State} {L : Layout} {c : FileSystem}, View t L c → ∀ {n : List UInt8} {k : Nat}, n ∈ L.names →
      k = L.ino n → View (addToOpenFileTable t k 0).2 L c := by
    intro t L c ht n k hn hk
    rw [addToOpenFileTable_eq]
    split
    · rename_i i hfree
      obtain ⟨hi, hlt, -⟩ := firstFree_eq_some.mp hfree
      refine ht.openAt hlt (ht.unknown ?_) hn hk (Nat.zero_le _)
      rintro ⟨-, htaken⟩
      rw [hi] at htaken
      cases htaken
    · exact ht
  cases ho with
  | invalid hp => exact ⟨L, Or.inl h⟩
  | absent hp hn hc => exact ⟨L, Or.inl h⟩
  | noInode hp hn hc hk => exact ⟨L, Or.inl h⟩
  | noEntry hp hn hc hk hfull => exact ⟨L, Or.inl ⟨h.inv.resetInode hk, h.refines.resetInode hk⟩⟩
  | existing hp hn ht => exact ⟨L, Or.inl (hopen h hn rfl)⟩
  | truncated hp hn ht hsize => cases ht
  | @created _ k i hp hn hc hk hlen hi =>
      have hok : NameOk p.tail.chars := ⟨p.tail.noNul, tail_ne_nil hp, hlen⟩
      have hnew : p.tail.chars ∉ a.names := by rw [h.names]; exact hn
      have href := h.refines.createFile hk hi hn hok
      rw [← FileSystem.stored_created hnew] at href
      exact ⟨_, Or.inr ⟨hnew, hopen ⟨h.inv.createFile hk hi hn hok, href⟩
        (Layout.mem_insert.mpr (Or.inl rfl)) (Layout.insert_ino_same).symm⟩⟩

theorem tfsUnlink (h : View s L a) {p : CString} {res : Int × State}
    (hh : validPathname p = true → ¬ a.HasHandle p.tail.chars) (he : Fs.tfsUnlink s (some p) = .ok res) :
    ∃ L', View res.2 L' a ∨
      View res.2 L' { a with names := a.names.erase p.tail.chars } := by
  obtain ⟨res', he', ho⟩ := h.inv.tfsUnlink_outcome (some p)
  rw [he] at he'
  cases he'
  cases ho with
  | invalid hp => exact ⟨L, Or.inl h⟩
  | absent hp hn => exact ⟨L, Or.inl h⟩
  | removed hp hn =>
      have href := h.refines.removeFile hn (hh hp)
      rw [← FileSystem.stored_removed] at href
      exact ⟨_, Or.inr ⟨h.inv.removeFile hn, href⟩⟩

end View

end Mbroker.Fs
