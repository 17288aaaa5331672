import Mbroker.Publisher.Session

/-!
# The input of a publisher

The lines that `publisher/pub.c` reads from its input, and the messages that it makes of them.
-/

namespace Mbroker.Publisher

open Mbroker.Lib Mbroker.Protocol

/-! ## Reading lines -/

/-- What `fgets` takes from the input, with room for `n` characters: as far as the first newline. -/
def fgetsLoop : Nat → List UInt8 → List UInt8 × List UInt8
  | 0, input => ([], input)
  | _ + 1, [] => ([], [])
  | n + 1, c :: input =>
    if c = newline then ([c], input)
    else
      let r := fgetsLoop n input
      (c :: r.1, r.2)

/-- The string in `line` when the newline that `strchr` finds is overwritten. -/
def lineText (line : List UInt8) : CString where
  chars := (line.takeWhile (· ≠ 0)).takeWhile (· ≠ newline)
  noNul := fun h => by
    have hmem := (List.takeWhile_prefix _).subset h
    simpa using List.mem_takeWhile_imp hmem

variable {n : Nat} {input rest : List UInt8} {l : List UInt8}

theorem fgetsLoop_append (n : Nat) (input : List UInt8) : (fgetsLoop n input).1 ++ (fgetsLoop n input).2 = input := by
  induction n generalizing input with
  | zero => rfl
  | succ n ih =>
      cases input with
      | nil => rfl
      | cons c input =>
          rw [fgetsLoop]
          split
          · rfl
          · simp [ih input]

theorem length_fgetsLoop_le (n : Nat) (input : List UInt8) : (fgetsLoop n input).1.length ≤ n := by
  induction n generalizing input with
  | zero => exact le_rfl
  | succ n ih =>
      cases input with
      | nil => exact Nat.zero_le _
      | cons c input =>
          rw [fgetsLoop]
          split
          · simp
          · simpa using ih input

theorem length_fgetsLoop_lt (hn : n ≠ 0) (hi : input ≠ []) : (fgetsLoop n input).2.length < input.length := by
  cases n with
  | zero => exact absurd rfl hn
  | succ n =>
      cases input with
      | nil => exact absurd rfl hi
      | cons c input =>
          rw [fgetsLoop]
          split
          · simp
          · have happ := congrArg List.length (fgetsLoop_append n input)
            rw [List.length_append] at happ
            simp only [List.length_cons]
            omega

/-- A text fits its field with a NUL. -/
theorem lineText_fits (input : List UInt8) : (lineText (fgetsLoop (sizeofText - 1) input).1).strlen < sizeofText := by
  have hle := length_fgetsLoop_le (sizeofText - 1) input
  have h₁ := (List.takeWhile_prefix (p := fun c => decide (c ≠ (0 : UInt8)))
    (l := (fgetsLoop (sizeofText - 1) input).1)).length_le
  have h₂ := (List.takeWhile_prefix (p := fun c => decide (c ≠ newline))
    (l := (fgetsLoop (sizeofText - 1) input).1.takeWhile fun c => decide (c ≠ (0 : UInt8)))).length_le
  have hsize : sizeofText - 1 < sizeofText := by decide
  simp only [lineText, CString.strlen]
  omega

/-- `fgets(line, sizeof(line), stdin)` and the end of the line, and what is left of the input. -/
def nextLine (input : List UInt8) : Option (Line × List UInt8) :=
  if input = [] then none
  else some (⟨lineText (fgetsLoop (sizeofText - 1) input).1, lineText_fits input⟩, (fgetsLoop (sizeofText - 1) input).2)

/-- The texts of the loop, in at most `n` rounds. -/
def textsLoop : Nat → List UInt8 → List CString
  | 0, _ => []
  | n + 1, input =>
    match nextLine input with
    | none => []
    | some r => r.1.1 :: textsLoop n r.2

/-- Every round takes something from the input. -/
def texts (input : List UInt8) : List CString := textsLoop (input.length + 1) input

theorem textsLoop_congr {k : Nat} (hn : input.length < n) (hk : input.length < k) :
    textsLoop n input = textsLoop k input := by
  induction n generalizing input k with
  | zero => cases hn
  | succ n ih =>
      cases k with
      | zero => cases hk
      | succ k =>
          by_cases hnil : input = []
          · simp [textsLoop, nextLine, hnil]
          · have hlt : (fgetsLoop (sizeofText - 1) input).2.length < input.length :=
              length_fgetsLoop_lt (by decide) hnil
            have hrec := @ih (fgetsLoop (sizeofText - 1) input).2 k (by omega) (by omega)
            simp only [textsLoop, nextLine, if_neg hnil, hrec]

theorem texts_nil : texts [] = [] := rfl

theorem texts_eq (hi : input ≠ []) : texts input =
    lineText (fgetsLoop (sizeofText - 1) input).1 :: texts (fgetsLoop (sizeofText - 1) input).2 := by
  have hlt : (fgetsLoop (sizeofText - 1) input).2.length < input.length := length_fgetsLoop_lt (by decide) hi
  have hrec : textsLoop input.length (fgetsLoop (sizeofText - 1) input).2 =
      texts (fgetsLoop (sizeofText - 1) input).2 := textsLoop_congr hlt (Nat.lt_succ_self _)
  rw [texts, textsLoop, nextLine, if_neg hi]
  simp only [hrec]

/-! ## Lines that are cut -/

/-- A line cut to pieces of `n` characters. The last one is shorter, and may be empty. -/
def pieces (n : Nat) (l : List UInt8) : List (List UInt8) :=
  if _h : 0 < n ∧ n ≤ l.length then l.take n :: pieces n (l.drop n) else [l]
termination_by l.length
decreasing_by
  rw [List.length_drop]
  omega

theorem pieces_short (h : l.length < n) : pieces n l = [l] := by
  rw [pieces, dif_neg (by omega)]

theorem pieces_long (hn : 0 < n) (h : n ≤ l.length) : pieces n l = l.take n :: pieces n (l.drop n) := by
  rw [pieces, dif_pos ⟨hn, h⟩]

theorem length_pieces_pos : 0 < (pieces n l).length := by
  rw [pieces]
  split <;> simp

theorem length_pieces_eq_one (hn : 0 < n) : (pieces n l).length = 1 ↔ l.length < n := by
  constructor
  · intro h
    by_contra hge
    rw [pieces_long hn (not_lt.mp hge), List.length_cons] at h
    have hpos := @length_pieces_pos n (l.drop n)
    omega
  · intro h
    rw [pieces_short h]
    rfl

/-- A line that fits is read with its newline. -/
theorem fgetsLoop_line (hl : newline ∉ l) (h : l.length < n) (rest : List UInt8) :
    fgetsLoop n (l ++ newline :: rest) = (l ++ [newline], rest) := by
  induction l generalizing n with
  | nil =>
      cases n with
      | zero => cases h
      | succ n => simp [fgetsLoop]
  | cons c l ih =>
      cases n with
      | zero => cases h
      | succ n =>
          have hc : c ≠ newline := fun he => hl (he ▸ List.mem_cons_self)
          have hrec := ih (fun hmem => hl (List.mem_cons_of_mem _ hmem)) (Nat.lt_of_succ_lt_succ h)
          simp [fgetsLoop, hc, hrec]

/-- Of a longer one as much is read as there is room for. -/
theorem fgetsLoop_long (hl : newline ∉ l) (h : n ≤ l.length) (rest : List UInt8) :
    fgetsLoop n (l ++ rest) = (l.take n, l.drop n ++ rest) := by
  induction n generalizing l with
  | zero => simp [fgetsLoop]
  | succ n ih =>
      cases l with
      | nil => cases h
      | cons c l =>
          have hc : c ≠ newline := fun he => hl (he ▸ List.mem_cons_self)
          have hrec := ih (fun hmem => hl (List.mem_cons_of_mem _ hmem)) (Nat.le_of_succ_le_succ h)
          simp [fgetsLoop, hc, hrec]

/-- The end of the input is read as it is. -/
theorem fgetsLoop_end (hl : newline ∉ l) (h : l.length ≤ n) : fgetsLoop n l = (l, []) := by
  induction l generalizing n with
  | nil => cases n <;> rfl
  | cons c l ih =>
      cases n with
      | zero => cases h
      | succ n =>
          have hc : c ≠ newline := fun he => hl (he ▸ List.mem_cons_self)
          have hrec := ih (fun hmem => hl (List.mem_cons_of_mem _ hmem)) (Nat.le_of_succ_le_succ h)
          simp [fgetsLoop, hc, hrec]

theorem lineText_chars (h0 : 0 ∉ l) : (lineText l).chars = l.takeWhile (· ≠ newline) := by
  have hself : l.takeWhile (fun c => decide (c ≠ (0 : UInt8))) = l := by
    refine List.takeWhile_eq_self_iff.mpr fun c hc => decide_eq_true ?_
    rintro rfl
    exact h0 hc
  change (l.takeWhile fun c => decide (c ≠ (0 : UInt8))).takeWhile _ = _
  rw [hself]

theorem takeWhile_line (hl : newline ∉ l) (rest : List UInt8) :
    (l ++ rest).takeWhile (fun c => decide (c ≠ newline)) = l ++ rest.takeWhile fun c => decide (c ≠ newline) := by
  refine List.takeWhile_append_of_pos fun c hc => decide_eq_true ?_
  rintro rfl
  exact hl hc

/-- The texts that a line with its newline is sent as. -/
theorem texts_line (h0 : 0 ∉ l) (hl : newline ∉ l) (rest : List UInt8) :
    (texts (l ++ newline :: rest)).map CString.chars =
      pieces (sizeofText - 1) l ++ (texts rest).map CString.chars := by
  induction hk : l.length using Nat.strong_induction_on generalizing l with
  | _ k ih =>
      subst hk
      rw [texts_eq (by simp), List.map_cons]
      by_cases hshort : l.length < sizeofText - 1
      · rw [fgetsLoop_line hl hshort, pieces_short hshort, lineText_chars (by simpa [newline] using h0),
          takeWhile_line hl]
        simp
      · have hlong := not_lt.mp hshort
        have htake : newline ∉ l.take (sizeofText - 1) := fun h => hl (List.mem_of_mem_take h)
        have hdrop : newline ∉ l.drop (sizeofText - 1) := fun h => hl (List.mem_of_mem_drop h)
        have hless : (l.drop (sizeofText - 1)).length < l.length := by
          rw [List.length_drop]
          have hsize : sizeofText = 1024 := rfl
          omega
        have hrec := ih _ hless (fun h => h0 (List.mem_of_mem_drop h)) hdrop rfl
        have hfirst := takeWhile_line htake []
        rw [fgetsLoop_long hl hlong, hrec, pieces_long (by decide) hlong,
          lineText_chars fun h => h0 (List.mem_of_mem_take h)]
        simpa using hfirst

/-- The texts that what is left without a newline is sent as. -/
theorem texts_last (h0 : 0 ∉ l) (hl : newline ∉ l) :
    (texts l).map CString.chars = (pieces (sizeofText - 1) l).filter (· ≠ []) := by
  induction hk : l.length using Nat.strong_induction_on generalizing l with
  | _ k ih =>
      subst hk
      have hsize : sizeofText = 1024 := rfl
      by_cases hnil : l = []
      · subst hnil
        rw [texts_nil, pieces_short (by decide)]
        rfl
      · rw [texts_eq hnil, List.map_cons]
        by_cases hshort : l.length < sizeofText - 1
        · rw [fgetsLoop_end hl hshort.le, pieces_short hshort, lineText_chars h0, texts_nil]
          simpa [hnil] using takeWhile_line hl []
        · have hlong := not_lt.mp hshort
          have htake : newline ∉ l.take (sizeofText - 1) := fun h => hl (List.mem_of_mem_take h)
          have hless : (l.drop (sizeofText - 1)).length < l.length := by
            rw [List.length_drop]
            omega
          have hrec := ih _ hless (fun h => h0 (List.mem_of_mem_drop h)) (fun h => hl (List.mem_of_mem_drop h)) rfl
          have hcut := fgetsLoop_long hl hlong []
          rw [List.append_nil, List.append_nil] at hcut
          have hfirst := takeWhile_line htake []
          have hne : l.take (sizeofText - 1) ≠ [] := by
            rw [Ne, List.take_eq_nil_iff]
            rintro (h | h)
            · cases h
            · exact hnil h
          rw [hcut, hrec, pieces_long (by decide) hlong, List.filter_cons_of_pos (by simpa using hne),
            lineText_chars fun h => h0 (List.mem_of_mem_take h)]
          simpa using hfirst

/-! ## Lines that are sent whole -/

/-- The input with these lines, and `last` behind the last newline. -/
def inputOf (ls : List CString) (last : CString) : List UInt8 :=
  (ls.flatMap fun l => l.chars ++ [newline]) ++ last.chars

theorem texts_inputOf {ls : List CString} {last : CString} (hls : ∀ l ∈ ls, newline ∉ l.chars)
    (hlast : newline ∉ last.chars) : (texts (inputOf ls last)).map CString.chars =
      (ls.flatMap fun l => pieces (sizeofText - 1) l.chars) ++
        (pieces (sizeofText - 1) last.chars).filter (· ≠ []) := by
  induction ls with
  | nil => exact texts_last last.noNul hlast
  | cons l ls ih =>
      have hrest := ih fun l' hl' => hls l' (List.mem_cons_of_mem _ hl')
      have hline := texts_line l.noNul (hls l List.mem_cons_self) (inputOf ls last)
      rw [hrest] at hline
      simpa [inputOf] using hline

theorem length_flatMap_eq {α β : Type} (f : α → List β) (as : List α) (hpos : ∀ a ∈ as, 0 < (f a).length) :
    as.length ≤ (as.flatMap f).length ∧ ((as.flatMap f).length = as.length → ∀ a ∈ as, (f a).length = 1) := by
  induction as with
  | nil => exact ⟨le_rfl, fun _ => nofun⟩
  | cons a as ih =>
      obtain ⟨hle, heq⟩ := ih fun a' ha' => hpos a' (List.mem_cons_of_mem _ ha')
      have ha := hpos a List.mem_cons_self
      rw [List.flatMap_cons, List.length_append, List.length_cons]
      refine ⟨by omega, fun hlen a' ha' => ?_⟩
      rcases List.mem_cons.mp ha' with rfl | ha'
      · omega
      · exact heq (by omega) a' ha'

theorem length_filter_pieces (hn : 0 < n) (hl : l ≠ []) : 0 < ((pieces n l).filter (· ≠ [])).length ∧
    (((pieces n l).filter (· ≠ [])).length = 1 → l.length ≤ n) := by
  have hfirst : ∀ {l : List UInt8}, l ≠ [] → 0 < ((pieces n l).filter (· ≠ [])).length := by
    intro l hl
    refine List.length_pos_of_mem (a := if n ≤ l.length then l.take n else l) (List.mem_filter.mpr ⟨?_, ?_⟩)
    · by_cases h : n ≤ l.length
      · rw [pieces_long hn h, if_pos h]
        exact List.mem_cons_self
      · rw [pieces_short (not_le.mp h), if_neg h]
        exact List.mem_cons_self
    · split
      · simp [hl, hn.ne']
      · simpa using hl
  refine ⟨hfirst hl, fun hone => ?_⟩
  by_contra hlong
  have hlt := not_le.mp hlong
  have htake : l.take n ≠ [] := by simp [hl, hn.ne']
  have hdrop : l.drop n ≠ [] := by
    rw [Ne, List.drop_eq_nil_iff]
    omega
  rw [pieces_long hn hlt.le, List.filter_cons_of_pos (by simpa using htake), List.length_cons] at hone
  have hpos := hfirst hdrop
  omega

theorem filter_pieces_of_le (hn : 0 < n) (h : l.length ≤ n) :
    (pieces n l).filter (· ≠ []) = if l = [] then [] else [l] := by
  obtain hlt | heq := Nat.lt_or_eq_of_le h
  · rw [pieces_short hlt]
    by_cases hl : l = []
    · simp [hl]
    · simp [hl]
  · have hl : l ≠ [] := by
      rintro rfl
      exact hn.ne heq
    rw [pieces_long hn heq.ge, ← heq, List.take_length, List.drop_length, heq, pieces_short hn, if_neg hl]
    simp [hl]

theorem chars_injective : Function.Injective CString.chars := by
  rintro ⟨cs, h⟩ ⟨cs', h'⟩ rfl
  rfl

/-- The lines are sent as they are exactly if each of them fits the buffer of `fgets`, with its newline if it has
one. -/
theorem texts_inputOf_eq_iff {ls : List CString} {last : CString} (hls : ∀ l ∈ ls, newline ∉ l.chars)
    (hlast : newline ∉ last.chars) : texts (inputOf ls last) = ls ++ (if last.chars = [] then [] else [last]) ↔
      (∀ l ∈ ls, l.strlen + 1 < sizeofText) ∧ last.strlen < sizeofText := by
  have hsize : sizeofText = 1024 := rfl
  have htexts := texts_inputOf hls hlast
  constructor
  · intro heq
    rw [heq] at htexts
    have hlen := congrArg List.length htexts
    obtain ⟨hle, hone⟩ := length_flatMap_eq (fun l : CString => pieces (sizeofText - 1) l.chars) ls
      fun _ _ => length_pieces_pos
    rw [List.length_map, List.length_append, List.length_append] at hlen
    have hshort : (ls.flatMap fun l => pieces (sizeofText - 1) l.chars).length = ls.length → last.strlen < sizeofText →
        (∀ l ∈ ls, l.strlen + 1 < sizeofText) ∧ last.strlen < sizeofText := by
      refine fun hall hlast => ⟨fun l hl => ?_, hlast⟩
      have hfit := (length_pieces_eq_one (by decide)).mp (hone hall l hl)
      rw [CString.strlen]
      omega
    by_cases hnil : last.chars = []
    · rw [if_pos hnil, hnil, pieces_short (by decide)] at hlen
      refine hshort (by simpa using hlen.symm) ?_
      rw [CString.strlen, hnil]
      decide
    · obtain ⟨hpos, hend⟩ := length_filter_pieces (n := sizeofText - 1) (by decide) hnil
      rw [if_neg hnil, List.length_singleton] at hlen
      refine hshort (by omega) ?_
      have hfit := hend (by omega)
      rw [CString.strlen]
      omega
  · rintro ⟨hfit, hend⟩
    refine (List.map_injective_iff.mpr chars_injective) ?_
    rw [htexts, List.map_append]
    have hlines : (ls.flatMap fun l => pieces (sizeofText - 1) l.chars) = ls.map CString.chars := by
      rw [List.map_eq_flatMap]
      exact List.flatMap_congr fun l hl => pieces_short (Nat.lt_sub_of_add_lt (hfit l hl))
    rw [hlines, filter_pieces_of_le (by decide) (Nat.le_sub_one_of_lt hend)]
    split <;> simp

end Mbroker.Publisher
