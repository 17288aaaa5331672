import Mbroker.Sessions.Accounts

/-!
# The replay of a box

What the loop over `full_box_buffer` sends after a `tfs_read` that copied whole texts to its start, and which bytes of
the buffer it looks at. The byte behind the buffer is the one with the index `sizeof(full_box_buffer)`.
-/

namespace Mbroker.Sessions

open Mbroker.Lib Mbroker.Protocol

variable {buffer stale : Mem} {t : CString} {texts : List CString} {n o : Nat}

/-! ## The bytes it looks at -/

/-- The indexes of the bytes that `remove_first_string_from_buffer` looks at: those of the string and, if it stops
there, that of the NUL. -/
def firstStringLooks (buffer : Mem) (o maxSpace : Nat) : List Nat :=
  (List.range (min maxSpace (removeFirstStringFromBuffer (buffer.ptr o) maxSpace).2)).map (o + ·)

/-- The bytes the loop looks at, from `offset_aux` on, in at most `n` rounds. -/
def replayLooksLoop (buffer : Mem) : Nat → Nat → List Nat
  | 0, _ => []
  | n + 1, offsetAux =>
    if sizeofFullBoxBuffer < offsetAux then []
    else
      let length := (removeFirstStringFromBuffer (buffer.ptr offsetAux) (sizeofFullBoxBuffer - 1)).2
      firstStringLooks buffer offsetAux (sizeofFullBoxBuffer - 1) ++
        if length = 1 then [] else replayLooksLoop buffer n (offsetAux + length)

def replayLooks (buffer : Mem) : List Nat := replayLooksLoop buffer (sizeofFullBoxBuffer + 1) 0

/-! ## A round -/

/-- The buffer holds the texts from `o` on. -/
def HoldsTexts (buffer : Mem) (o : Nat) (texts : List CString) : Prop :=
  (buffer.ptr o).bytes (textBytes texts).length = textBytes texts

theorem length_textBytes_cons : (textBytes (t :: texts)).length = t.strlen + 1 + (textBytes texts).length := by
  simp only [textBytes, CString.strlen, List.flatMap_cons, List.length_append, List.length_singleton]

theorem HoldsTexts.cons_iff : HoldsTexts buffer o (t :: texts) ↔
    (buffer.ptr o).bytes (t.strlen + 1) = t.chars ++ [0] ∧ HoldsTexts buffer (o + (t.strlen + 1)) texts := by
  have hbytes : textBytes (t :: texts) = (t.chars ++ [0]) ++ textBytes texts := rfl
  rw [HoldsTexts, HoldsTexts, length_textBytes_cons, Mem.bytes_add, Mem.ptr_ptr, hbytes]
  constructor
  · intro h
    exact List.append_inj h (by simp [CString.strlen])
  · rintro ⟨h, h'⟩
    rw [h, h']

/-- A text in the buffer is the string that is taken out there. -/
theorem removeFirst_of_bytes (h : buffer.bytes (t.strlen + 1) = t.chars ++ [0]) {maxSpace : Nat}
    (ht : t.strlen ≤ maxSpace) : removeFirstStringFromBuffer buffer maxSpace = (t, t.strlen + 1) := by
  have hstr : buffer.IsStr t.chars := by
    intro i hi
    have hget := congrArg (fun l => l[i]?) h
    have hi' : i < t.strlen + 1 := Nat.lt_succ_of_le hi
    simp only [Mem.getElem?_bytes _ hi'] at hget
    by_cases hlt : i < t.chars.length
    · rw [List.getElem?_append_left hlt] at hget
      rw [List.getD_eq_getElem?_getD, ← hget, Option.getD_some]
    · have hlast : i = t.chars.length := by omega
      subst hlast
      simpa using hget
  have htext : removeStringsFromBuffer buffer maxSpace = t := by
    cases t with
    | mk chars noNul =>
        simp only [removeStringsFromBuffer, CString.mk.injEq]
        exact hstr.takeWhile_bytes noNul ht
  simp only [removeFirstStringFromBuffer, htext]

/-! ## The loop -/

theorem replayLoop_succ (ho : o ≤ sizeofFullBoxBuffer) {length : Nat}
    (h : removeFirstStringFromBuffer (buffer.ptr o) (sizeofFullBoxBuffer - 1) = (t, length)) :
    replayLoop buffer (n + 1) o = if length = 1 then [] else t :: replayLoop buffer n (o + length) := by
  rw [replayLoop, if_neg (not_lt.mpr ho), h]

theorem replayLooksLoop_succ (ho : o ≤ sizeofFullBoxBuffer) {length : Nat}
    (h : removeFirstStringFromBuffer (buffer.ptr o) (sizeofFullBoxBuffer - 1) = (t, length)) :
    replayLooksLoop buffer (n + 1) o = firstStringLooks buffer o (sizeofFullBoxBuffer - 1) ++
      if length = 1 then [] else replayLooksLoop buffer n (o + length) := by
  rw [replayLooksLoop, if_neg (not_lt.mpr ho), h]

theorem removeFirst_empty_iff (buffer : Mem) {maxSpace : Nat} (hpos : 0 < maxSpace) :
    (removeFirstStringFromBuffer buffer maxSpace).2 = 1 ↔ buffer 0 = 0 := by
  obtain ⟨k, rfl⟩ := Nat.exists_eq_succ_of_ne_zero hpos.ne'
  simp only [removeFirstStringFromBuffer, removeStringsFromBuffer, CString.strlen, Mem.bytes_succ, List.takeWhile_cons]
  by_cases h0 : buffer 0 = 0 <;> simp [h0]

/-- The loop sends the texts and nothing else exactly if none is empty and the byte behind them is a NUL. -/
theorem replayLoop_eq_iff (h : HoldsTexts buffer o texts) (ho : o + (textBytes texts).length ≤ sizeofFullBoxBuffer)
    (hn : sizeofFullBoxBuffer < n + o) :
    replayLoop buffer n o = texts ↔ (∀ t ∈ texts, t.strlen ≠ 0) ∧ buffer (o + (textBytes texts).length) = 0 := by
  induction texts generalizing o n with
  | nil =>
      have hnil : (textBytes []).length = 0 := rfl
      rw [hnil, Nat.add_zero] at ho ⊢
      cases n with
      | zero => omega
      | succ n =>
          obtain ⟨t, length, hparse⟩ : ∃ t length,
              removeFirstStringFromBuffer (buffer.ptr o) (sizeofFullBoxBuffer - 1) = (t, length) := ⟨_, _, rfl⟩
          have hiff : length = 1 ↔ buffer o = 0 := by
            have hempty := removeFirst_empty_iff (buffer.ptr o) (show 0 < sizeofFullBoxBuffer - 1 by decide)
            rw [hparse, Mem.ptr_apply, Nat.add_zero] at hempty
            exact hempty
          rw [replayLoop_succ ho hparse, ← hiff]
          by_cases hend : length = 1 <;> simp [hend]
  | cons t texts ih =>
      obtain ⟨ht, hrest⟩ := HoldsTexts.cons_iff.mp h
      rw [length_textBytes_cons, ← Nat.add_assoc] at ho ⊢
      have hspace : t.strlen ≤ sizeofFullBoxBuffer - 1 := by omega
      cases n with
      | zero => omega
      | succ n =>
          rw [replayLoop_succ (by omega) (removeFirst_of_bytes ht hspace)]
          by_cases h0 : t.strlen = 0
          · rw [if_pos (by rw [h0])]
            simp [h0]
          · rw [if_neg (by omega), List.cons_inj_right, ih hrest ho (by omega), List.forall_mem_cons, and_assoc]
            exact (and_iff_right h0).symm

/-- Unless an empty text ended it before, the loop looks at the byte behind the texts. -/
theorem mem_replayLooksLoop (h : HoldsTexts buffer o texts)
    (ho : o + (textBytes texts).length ≤ sizeofFullBoxBuffer) (hn : sizeofFullBoxBuffer < n + o)
    (hne : ∀ t ∈ texts, t.strlen ≠ 0) : o + (textBytes texts).length ∈ replayLooksLoop buffer n o := by
  induction texts generalizing o n with
  | nil =>
      have hnil : (textBytes []).length = 0 := rfl
      rw [hnil, Nat.add_zero] at ho ⊢
      cases n with
      | zero => omega
      | succ n =>
          rw [replayLooksLoop_succ ho rfl]
          refine List.mem_append_left _ (List.mem_map.mpr ⟨0, List.mem_range.mpr ?_, rfl⟩)
          exact lt_min (by decide) (Nat.succ_pos _)
  | cons t texts ih =>
      obtain ⟨ht, hrest⟩ := HoldsTexts.cons_iff.mp h
      obtain ⟨h0, hne⟩ := List.forall_mem_cons.mp hne
      rw [length_textBytes_cons, ← Nat.add_assoc] at ho ⊢
      have hspace : t.strlen ≤ sizeofFullBoxBuffer - 1 := by omega
      cases n with
      | zero => omega
      | succ n =>
          rw [replayLooksLoop_succ (by omega) (removeFirst_of_bytes ht hspace), if_neg (by omega)]
          exact List.mem_append_right _ (ih hrest ho (by omega) hne)

/-! ## The replay -/

/-- The buffer behind a `tfs_read` that copied `data`. -/
def readBuffer (stale : Mem) (data : List UInt8) : Mem := stale.copy 0 (Mem.ofList data) data.length

theorem readBuffer_holdsTexts : HoldsTexts (readBuffer stale (textBytes texts)) 0 texts := by
  have hself : ((readBuffer stale (textBytes texts)).ptr 0).bytes (textBytes texts).length =
      (Mem.ofList (textBytes texts)).bytes (textBytes texts).length := by
    refine Mem.bytes_congr fun i hi => ?_
    rw [Mem.ptr_apply, readBuffer, Mem.copy_apply_of_mem (Nat.zero_le _) (by omega), Nat.zero_add, Nat.sub_zero]
  exact hself.trans (Mem.bytes_ofList _)

theorem readBuffer_behind {data : List UInt8} : readBuffer stale data data.length = stale data.length :=
  Mem.copy_apply_of_not_mem (Or.inr (by omega))

theorem replay_eq_iff (stale : Mem) (hlen : (textBytes texts).length ≤ sizeofFullBoxBuffer) :
    replay (readBuffer stale (textBytes texts)) = texts ↔
      (∀ t ∈ texts, t.strlen ≠ 0) ∧ stale (textBytes texts).length = 0 := by
  rw [replay, replayLoop_eq_iff readBuffer_holdsTexts (by omega) (by omega), Nat.zero_add, readBuffer_behind]

theorem mem_replayLooks (hlen : (textBytes texts).length ≤ sizeofFullBoxBuffer) (hne : ∀ t ∈ texts, t.strlen ≠ 0) :
    (textBytes texts).length ∈ replayLooks (readBuffer stale (textBytes texts)) := by
  have hholds : HoldsTexts (readBuffer stale (textBytes texts)) 0 texts := readBuffer_holdsTexts
  have hmem := mem_replayLooksLoop (n := sizeofFullBoxBuffer + 1) hholds (by omega) (by omega) hne
  rwa [Nat.zero_add] at hmem

/-- What the two steps behind the test of a subscriber session write. -/
theorem replay_steps {b b' : Broker} {w : Nat} {s : Session} {r : Int} {data : List UInt8} {fs : Fs.State}
    (hw : b.phase w = .subCounted s)
    (hread : Fs.tfsRead b.fs s.fileHandle sizeofFullBoxBuffer = .ok (r, data, fs))
    (hrun : Steps Step b [.readBox w, .replay w] b') :
    b'.output w = b.output w ++ (replay (readBuffer (b.fullBoxBuffer w) data)).map .message := by
  cases hrun with
  | @cons _ b₁ _ _ _ hfirst hrest =>
      cases hrest with
      | cons hsecond hnil =>
          cases hnil
          have hbuffer : b₁.fullBoxBuffer w = readBuffer (b.fullBoxBuffer w) data ∧ b₁.output = b.output := by
            cases Step.outcome hfirst with
            | readBox hw' hread' _ =>
                rw [hw] at hw'
                cases hw'
                rw [hread] at hread'
                cases hread'
                exact ⟨Function.update_self _ _ _, rfl⟩
          cases Step.outcome hsecond with
          | replay hw' =>
              rw [← hbuffer.1, ← hbuffer.2]
              exact Function.update_self _ _ _

end Mbroker.Sessions
