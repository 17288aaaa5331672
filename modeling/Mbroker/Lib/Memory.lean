import Mathlib.Data.Nat.Basic
import Mathlib.Data.Nat.ModEq
import Mathlib.Data.List.Basic
import Mathlib.Tactic.Common
import Mathlib.Tactic.Ring

/-!
# Byte memory, C strings and little-endian integers

A pointer is read as the function that gives the byte at every distance from it. `Mem.copy` is `memcpy` into
such a memory, `strncmp` compares what two pointers point to, and `readLE` reads an unsigned integer.
-/

namespace Mbroker.Lib

/-- The bytes from a pointer on. -/
abbrev Mem := Nat → UInt8

namespace Mem

/-- The memory `p` bytes further. -/
def ptr (m : Mem) (p : Nat) : Mem := fun i => m (p + i)

/-- `memcpy(m + lo, src, n)`. -/
def copy (m : Mem) (lo : Nat) (src : Mem) (n : Nat) : Mem :=
  fun i => if lo ≤ i ∧ i < lo + n then src (i - lo) else m i

/-- `memset(m + lo, c, n)`. -/
def fill (m : Mem) (lo : Nat) (c : UInt8) (n : Nat) : Mem := m.copy lo (fun _ => c) n

/-- The first `n` bytes. -/
def bytes (m : Mem) (n : Nat) : List UInt8 := (List.range n).map m

/-- The memory that holds a list of bytes, and zero bytes behind it. -/
def ofList (l : List UInt8) : Mem := fun i => l.getD i 0

@[simp] theorem ptr_apply (m : Mem) (p i : Nat) : m.ptr p i = m (p + i) := rfl

@[simp] theorem ptr_zero (m : Mem) : m.ptr 0 = m := by
  funext i
  rw [ptr_apply, Nat.zero_add]

theorem ptr_ptr (m : Mem) (p q : Nat) : (m.ptr p).ptr q = m.ptr (p + q) := by
  funext i; simp [Nat.add_assoc]

theorem copy_apply_of_mem {m src : Mem} {lo n i : Nat} (h : lo ≤ i) (h' : i < lo + n) :
    m.copy lo src n i = src (i - lo) := by simp [copy, h, h']

theorem copy_apply_of_not_mem {m src : Mem} {lo n i : Nat} (h : i < lo ∨ lo + n ≤ i) :
    m.copy lo src n i = m i := by
  unfold copy
  rw [if_neg (by omega)]

@[simp] theorem length_bytes (m : Mem) (n : Nat) : (m.bytes n).length = n := by simp [bytes]

theorem bytes_congr {m m' : Mem} {n : Nat} (h : ∀ i < n, m i = m' i) : m.bytes n = m'.bytes n := by
  simp only [bytes]
  exact List.map_congr_left fun i hi => h i (List.mem_range.mp hi)

theorem getElem?_bytes (m : Mem) {n i : Nat} (h : i < n) : (m.bytes n)[i]? = some (m i) := by
  simp [bytes, h]

theorem bytes_add (m : Mem) (n k : Nat) : m.bytes (n + k) = m.bytes n ++ (m.ptr n).bytes k := by
  simp only [bytes, List.range_add, List.map_append, List.map_map]
  rfl

theorem bytes_succ (m : Mem) (n : Nat) : m.bytes (n + 1) = m 0 :: (m.ptr 1).bytes n := by
  rw [Nat.add_comm n 1, bytes_add]
  rfl

/-- A list that the memory starts with, from `n` of its bytes. -/
theorem bytes_of_prefix {m : Mem} {n : Nat} {l : List UInt8} (h : l <+: m.bytes n) : m.bytes l.length = l := by
  have hle : l.length ≤ n := by simpa using h.length_le
  obtain ⟨k, rfl⟩ := Nat.exists_eq_add_of_le hle
  rw [bytes_add] at h
  exact (List.prefix_of_prefix_length_le h (List.prefix_append _ _) (by simp)).eq_of_length (by simp) |>.symm

@[simp] theorem bytes_ofList (l : List UInt8) : (ofList l).bytes l.length = l := by
  apply List.ext_getElem? fun i => ?_
  by_cases hi : i < l.length
  · rw [getElem?_bytes _ hi]; simp [ofList, hi]
  · rw [List.getElem?_eq_none (by simpa using hi), List.getElem?_eq_none (by simpa using hi)]

end Mem

/-- The list `l` with the bytes `new` written at `off`, growing it if they end behind it. -/
def overwrite (l : List UInt8) (off : Nat) (new : List UInt8) : List UInt8 :=
  l.take off ++ new ++ l.drop (off + new.length)

theorem length_overwrite {l new : List UInt8} {off : Nat} (h : off ≤ l.length) :
    (overwrite l off new).length = max l.length (off + new.length) := by
  simp only [overwrite, List.length_append, List.length_take, List.length_drop]
  omega

theorem overwrite_at_end (l new : List UInt8) : overwrite l l.length new = l ++ new := by
  simp [overwrite]

/-- Copying into a file's bytes is an overwrite of them. -/
theorem Mem.bytes_copy {m src : Mem} {p off n size : Nat} (h : off ≤ size) :
    ((m.copy (p + off) src n).ptr p).bytes (max size (off + n)) =
      overwrite ((m.ptr p).bytes size) off (src.bytes n) := by
  apply List.ext_getElem? fun i => ?_
  by_cases hi : i < max size (off + n)
  · rw [getElem?_bytes _ hi, ptr_apply, overwrite, List.append_assoc]
    by_cases h₁ : i < off
    · rw [copy_apply_of_not_mem (by omega), List.getElem?_append_left (by simp; omega),
        List.getElem?_take_of_lt h₁, getElem?_bytes _ (by omega), ptr_apply]
    · have hlen : ((m.ptr p).bytes size |>.take off).length = off := by simp; omega
      rw [List.getElem?_append_right (by omega), hlen]
      by_cases h₂ : i < off + n
      · rw [copy_apply_of_mem (by omega) (by omega), List.getElem?_append_left (by simp; omega),
          getElem?_bytes _ (by omega)]
        congr 2
        omega
      · rw [copy_apply_of_not_mem (by omega), List.getElem?_append_right (by simp; omega),
          List.getElem?_drop, getElem?_bytes _ (by simp; omega), ptr_apply]
        congr 2
        simp only [length_bytes]
        omega
  · rw [List.getElem?_eq_none (by simpa using hi), List.getElem?_eq_none]
    rw [length_overwrite (by simpa using h)]
    simpa using hi

theorem Mem.take_drop_bytes {m : Mem} {p off k size : Nat} (h : off + k ≤ size) :
    (((m.ptr p).bytes size).drop off).take k = (m.ptr (p + off)).bytes k := by
  apply List.ext_getElem? fun i => ?_
  by_cases hi : i < k
  · rw [List.getElem?_take_of_lt hi, List.getElem?_drop, getElem?_bytes _ (by omega), getElem?_bytes _ hi,
      ptr_apply, ptr_apply, Nat.add_assoc]
  · rw [List.getElem?_eq_none (by simp; omega), List.getElem?_eq_none (by simpa using hi)]

/-! ## C strings -/

/-- A string of C: characters other than NUL, with a NUL behind them. -/
structure CString where
  chars : List UInt8
  noNul : 0 ∉ chars
  deriving DecidableEq

namespace CString

/-- `strlen`. -/
def strlen (s : CString) : Nat := s.chars.length

/-- The memory a pointer to the string points to. -/
def mem (s : CString) : Mem := Mem.ofList s.chars

/-- The string behind the first character: `s + 1`. -/
def tail (s : CString) : CString := ⟨s.chars.tail, fun h => s.noNul (List.mem_of_mem_tail h)⟩

/-- The first `n` characters. -/
def truncate (s : CString) (n : Nat) : CString := ⟨s.chars.take n, fun h => s.noNul (List.mem_of_mem_take h)⟩

theorem truncate_of_le {s : CString} {n : Nat} (h : s.strlen ≤ n) : s.truncate n = s := by
  cases s
  simp only [truncate, CString.mk.injEq]
  exact List.take_of_length_le h

end CString

theorem CString.bytes_mem (s : CString) : s.mem.bytes (s.strlen + 1) = s.chars ++ [0] := by
  have hnul : Mem.ptr s.mem s.strlen 0 = 0 := by simp [CString.mem, CString.strlen, Mem.ofList, Mem.ptr]
  rw [Mem.bytes_add, strlen, mem, Mem.bytes_ofList]
  exact congrArg (fun c => s.chars ++ [c]) hnul

/-- The memory holds the string `l`: its characters and a NUL. -/
def Mem.IsStr (m : Mem) (l : List UInt8) : Prop := ∀ i ≤ l.length, m i = l.getD i 0

theorem Mem.IsStr.unique {m : Mem} {l l' : List UInt8} (h : m.IsStr l) (h' : m.IsStr l') (h0 : 0 ∉ l)
    (h0' : 0 ∉ l') : l = l' := by
  have key : ∀ {l l' : List UInt8}, m.IsStr l → m.IsStr l' → 0 ∉ l' → l.length < l'.length → False := by
    intro l l' h h' h0' hlt
    have h₁ : m l.length = 0 := by simpa [List.getD_eq_getElem?_getD] using h l.length (Nat.le_refl _)
    have h₂ := h' l.length hlt.le
    rw [h₁, List.getD_eq_getElem?_getD, List.getElem?_eq_getElem hlt, Option.getD_some] at h₂
    exact h0' (h₂ ▸ List.getElem_mem hlt)
  have hlen : l.length = l'.length := by
    rcases Nat.lt_trichotomy l.length l'.length with hl | hl | hl
    · exact absurd hl fun hl => key h h' h0' hl
    · exact hl
    · exact absurd hl fun hl => key h' h h0 hl
  apply List.ext_getElem hlen
  intro i h₁ h₂
  have e₁ := h i h₁.le
  have e₂ := h' i h₂.le
  simp only [List.getD_eq_getElem?_getD, List.getElem?_eq_getElem h₁, List.getElem?_eq_getElem h₂,
    Option.getD_some] at e₁ e₂
  rw [← e₁, ← e₂]

/-- The characters before the first NUL are those of the string. -/
theorem Mem.IsStr.takeWhile_bytes {m : Mem} {l : List UInt8} {n : Nat} (h : m.IsStr l) (h0 : 0 ∉ l)
    (hn : l.length ≤ n) : (m.bytes n).takeWhile (· ≠ 0) = l := by
  obtain ⟨k, rfl⟩ := Nat.exists_eq_add_of_le hn
  have hl : m.bytes l.length = l := by
    apply List.ext_getElem?
    intro i
    by_cases hi : i < l.length
    · rw [getElem?_bytes _ hi, h i hi.le, List.getElem?_eq_getElem hi, List.getD_eq_getElem?_getD,
        List.getElem?_eq_getElem hi, Option.getD_some]
    · rw [List.getElem?_eq_none (by simpa using hi), List.getElem?_eq_none (by simpa using hi)]
  have hnul : m l.length = 0 := by simpa [List.getD_eq_getElem?_getD] using h l.length (Nat.le_refl _)
  rw [Mem.bytes_add, hl, List.takeWhile_append_of_pos]
  · cases k with
    | zero => simp [bytes]
    | succ k =>
        rw [Mem.bytes_succ]
        simp [hnul]
  · intro x hx
    have hx0 : x ≠ 0 := fun he => h0 (he ▸ hx)
    simpa using hx0

/-- `strncmp`: the difference at the first of at most `n` characters in which the strings differ. -/
def strncmp (a b : Mem) : Nat → Int
  | 0 => 0
  | n + 1 =>
    if a 0 ≠ b 0 then (a 0).toNat - (b 0).toNat
    else if a 0 = 0 then 0
    else strncmp (a.ptr 1) (b.ptr 1) n

/-- `strcmp` with a string of known length, behind whose NUL nothing is compared. -/
def strcmp (a : Mem) (s : CString) : Int := strncmp a s.mem (s.strlen + 1)

/-- `strncmp` finds no difference exactly when the memories agree up to the first NUL. -/
theorem strncmp_eq_zero {a b : Mem} {n : Nat} :
    strncmp a b n = 0 ↔ ∀ i < n, (∀ j < i, a j ≠ 0) → a i = b i := by
  induction n generalizing a b with
  | zero => simp [strncmp]
  | succ n ih =>
      unfold strncmp
      by_cases hab : a 0 = b 0
      · rw [if_neg (by simpa using hab)]
        by_cases h0 : a 0 = 0
        · rw [if_pos h0]
          simp only [true_iff]
          intro i _ hi
          cases i with
          | zero => exact hab
          | succ i => exact absurd h0 (hi 0 (Nat.succ_pos _))
        · rw [if_neg h0, ih]
          constructor
          · intro h i hi hj
            cases i with
            | zero => exact hab
            | succ i =>
                have := h i (by omega) fun j hjlt => by
                  simpa [Nat.add_comm] using hj (j + 1) (by omega)
                simpa [Nat.add_comm] using this
          · intro h i hi hj
            simp only [Mem.ptr_apply]
            refine h (1 + i) (by omega) fun j hjlt => ?_
            cases j with
            | zero => exact h0
            | succ j => simpa [Nat.add_comm] using hj j (by omega)
      · rw [if_pos (by simpa using hab)]
        constructor
        · intro h
          refine absurd ?_ hab
          apply UInt8.toNat_inj.mp
          omega
        · intro h
          exact absurd (h 0 (Nat.succ_pos _) (by simp)) hab

theorem strncmp_congr (a : Mem) {b b' : Mem} {n : Nat} (h : ∀ i < n, b i = b' i) : strncmp a b n = strncmp a b' n := by
  induction n generalizing a b b' with
  | zero => rfl
  | succ n ih =>
      have hrec := @ih (a.ptr 1) (b.ptr 1) (b'.ptr 1) fun i hi => h (1 + i) (by omega)
      rw [strncmp, strncmp, h 0 (Nat.succ_pos _), hrec]

theorem strncmp_swap (a b : Mem) (n : Nat) : strncmp b a n = - strncmp a b n := by
  induction n generalizing a b with
  | zero => rfl
  | succ n ih =>
      by_cases hab : a 0 = b 0
      · simp only [strncmp, hab, ne_eq, not_true_eq_false, if_false]
        split
        · rfl
        · exact ih _ _
      · have hba : ¬ b 0 = a 0 := fun he => hab he.symm
        simp only [strncmp, ne_eq, hab, hba, not_false_eq_true, if_true]
        omega

theorem strncmp_trans {a b c : Mem} {n : Nat} (h : strncmp a b n ≤ 0) (h' : strncmp b c n ≤ 0) :
    strncmp a c n ≤ 0 := by
  induction n generalizing a b c with
  | zero => exact le_rfl
  | succ n ih =>
      simp only [strncmp] at h h' ⊢
      by_cases hab : a 0 = b 0
      · by_cases hbc : b 0 = c 0
        · by_cases h0 : a 0 = 0
          · simp [h0, ← hbc, ← hab]
          · simp only [← hbc, ← hab, ne_eq, not_true_eq_false, if_false, h0] at h h' ⊢
            exact ih h h'
        · rw [if_pos hbc] at h'
          rw [hab, if_pos hbc]
          exact h'
      · rw [if_pos hab] at h
        have hlt : (a 0).toNat < (b 0).toNat := by
          have hne : (a 0).toNat ≠ (b 0).toNat := fun he => hab (UInt8.toNat_inj.mp he)
          omega
        have hle : (b 0).toNat ≤ (c 0).toNat := by
          by_cases hbc : b 0 = c 0
          · rw [hbc]
          · rw [if_pos hbc] at h'
            omega
        have hac : a 0 ≠ c 0 := by
          intro he
          rw [he] at hlt
          omega
        rw [if_pos hac]
        omega

/-- Nothing is compared behind the first NUL. -/
theorem strncmp_of_nul {a b : Mem} {n k i : Nat} (hi : b i = 0) (hn : i < n) (hk : i < k) :
    strncmp a b n = strncmp a b k := by
  induction i generalizing a b n k with
  | zero =>
      cases n with
      | zero => cases hn
      | succ n =>
          cases k with
          | zero => cases hk
          | succ k =>
              simp only [strncmp]
              by_cases hab : a 0 = b 0
              · simp [hab, hi]
              · simp [hab]
  | succ i ih =>
      cases n with
      | zero => cases hn
      | succ n =>
          cases k with
          | zero => cases hk
          | succ k =>
              have hnul : Mem.ptr b 1 i = 0 := by
                rw [Mem.ptr_apply, Nat.add_comm]
                exact hi
              have hrec := @ih (a.ptr 1) (b.ptr 1) n k hnul (by omega) (by omega)
              simp only [strncmp, hrec]

/-- Compared over more characters than it has, a string equals the memory that holds it, and no other. -/
theorem strncmp_ofList {a : Mem} {l : List UInt8} {n : Nat} (h0 : 0 ∉ l) (hn : l.length < n) :
    strncmp a (Mem.ofList l) n = 0 ↔ a.IsStr l := by
  rw [strncmp_eq_zero]
  have hne : ∀ j < l.length, l.getD j 0 ≠ 0 := by
    intro j hj he
    rw [List.getD_eq_getElem?_getD, List.getElem?_eq_getElem hj, Option.getD_some] at he
    exact h0 (he ▸ List.getElem_mem hj)
  constructor
  · intro h i
    induction i using Nat.strong_induction_on with
    | _ i ih =>
        intro hi
        refine h i (by omega) fun j hj => ?_
        rw [ih j hj (by omega)]
        exact hne j (by omega)
  · intro h i _ hj
    by_cases hi : i ≤ l.length
    · exact h i hi
    · have hnul : a l.length = 0 := by
        simpa [List.getD_eq_getElem?_getD] using h l.length (Nat.le_refl _)
      exact absurd hnul (hj l.length (by omega))

/-- Compared over no more characters than it has, a string differs from every memory with a NUL there. -/
theorem strncmp_ofList_ne {a : Mem} {l : List UInt8} {n k : Nat} (h0 : 0 ∉ l) (hn : n ≤ l.length)
    (hk : k < n) (hnul : a k = 0) : strncmp a (Mem.ofList l) n ≠ 0 := by
  rw [Ne, strncmp_eq_zero]
  intro h
  -- at the first NUL of `a` the string has a character
  have hex : ∃ i, a i = 0 := ⟨k, hnul⟩
  have hfirst : Nat.find hex ≤ k := Nat.find_le hnul
  have he := h (Nat.find hex) (by omega) fun j hj => Nat.find_min hex hj
  rw [Nat.find_spec hex, Mem.ofList, List.getD_eq_getElem?_getD,
    List.getElem?_eq_getElem (by omega), Option.getD_some] at he
  exact h0 (he ▸ List.getElem_mem _)

theorem strcmp_eq_zero {a : Mem} {s : CString} : strcmp a s = 0 ↔ a.IsStr s.chars :=
  strncmp_ofList s.noNul (Nat.lt_succ_self _)

theorem Mem.isStr_nil {m : Mem} : m.IsStr [] ↔ m 0 = 0 := by
  constructor
  · exact fun h => h 0 le_rfl
  · intro h i hi
    rw [Nat.le_zero.mp hi, h]
    rfl

theorem Mem.isStr_cons {m : Mem} {c : UInt8} {l : List UInt8} :
    m.IsStr (c :: l) ↔ m 0 = c ∧ (m.ptr 1).IsStr l := by
  constructor
  · refine fun h => ⟨h 0 (Nat.zero_le _), fun i hi => ?_⟩
    have hnext := h (1 + i) (by rw [List.length_cons]; omega)
    rwa [Nat.add_comm, List.getD_cons_succ, Nat.add_comm] at hnext
  · rintro ⟨hc, h⟩ i hi
    cases i with
    | zero => exact hc
    | succ i =>
        have hnext := h i (by rw [List.length_cons] at hi; omega)
        rwa [Mem.ptr_apply, Nat.add_comm] at hnext

/-- Between strings, `strncmp` over more characters than the second one has is the lexicographic order. -/
theorem strncmp_neg_iff {a b : Mem} {l l' : List UInt8} {n : Nat} (ha : a.IsStr l) (hb : b.IsStr l') (h0 : 0 ∉ l)
    (h0' : 0 ∉ l') (hn : l'.length < n) : strncmp a b n < 0 ↔ l < l' := by
  induction l' generalizing a b l n with
  | nil =>
      cases n with
      | zero => cases hn
      | succ n =>
          have hb := Mem.isStr_nil.mp hb
          refine iff_of_false ?_ (List.not_lt_nil _)
          rw [strncmp, hb]
          split
          · simp
          · split
            · omega
            · rename_i hne hzero
              exact absurd (not_not.mp hne) hzero
  | cons y l' ih =>
      cases n with
      | zero => cases hn
      | succ n =>
          obtain ⟨hb, hb'⟩ := Mem.isStr_cons.mp hb
          have hy : y ≠ 0 := fun he => h0' (he ▸ List.mem_cons_self)
          cases l with
          | nil =>
              have ha := Mem.isStr_nil.mp ha
              have hpos : 0 < y.toNat := by
                have hne : y.toNat ≠ 0 := fun he => hy (UInt8.toNat_inj.mp he)
                omega
              refine iff_of_true ?_ (List.nil_lt_cons _ _)
              rw [strncmp, ha, hb, if_pos hy.symm]
              simpa using hpos
          | cons x l =>
              obtain ⟨ha, ha'⟩ := Mem.isStr_cons.mp ha
              have hx : x ≠ 0 := fun he => h0 (he ▸ List.mem_cons_self)
              rw [strncmp, ha, hb, List.cons_lt_cons_iff]
              by_cases hxy : x = y
              · subst hxy
                rw [if_neg (by simp), if_neg hx, ih ha' hb' (fun h => h0 (List.mem_cons_of_mem _ h))
                  (fun h => h0' (List.mem_cons_of_mem _ h)) (by rw [List.length_cons] at hn; omega)]
                simp
              · rw [if_pos hxy]
                have hlt : x < y ↔ x.toNat < y.toNat := UInt8.lt_iff_toNat_lt
                simp only [hxy, hlt, false_and, or_false]
                omega

/-! ## Little-endian integers -/

/-- The unsigned integer in the first `k` bytes, least significant byte first. -/
def readLE (m : Mem) : Nat → Nat
  | 0 => 0
  | k + 1 => (m 0).toNat + 256 * readLE (m.ptr 1) k

/-- The bytes of an unsigned integer, least significant byte first. -/
def leMem (w : Nat) : Mem := fun i => UInt8.ofNat (w / 256 ^ i)

theorem readLE_congr {m m' : Mem} {k : Nat} (h : ∀ i < k, m i = m' i) : readLE m k = readLE m' k := by
  induction k generalizing m m' with
  | zero => rfl
  | succ k ih =>
      have htail : readLE (m.ptr 1) k = readLE (m'.ptr 1) k := ih fun i hi => h (1 + i) (by omega)
      rw [readLE, readLE, h 0 (Nat.succ_pos _), htail]

theorem readLE_leMem (w k : Nat) : readLE (leMem w) k = w % 256 ^ k := by
  induction k generalizing w with
  | zero => simp [readLE, Nat.mod_one]
  | succ k ih =>
      have hptr : (leMem w).ptr 1 = leMem (w / 256) := by
        funext i
        simp only [leMem, Mem.ptr_apply, Nat.div_div_eq_div_mul, pow_add, pow_one]
      have hhead : (leMem w 0).toNat = w % 256 := by simp [leMem]
      rw [readLE, hptr, hhead, ih, pow_succ', Nat.mod_mul]

/-- The `int` in the first four bytes; 4294967296 is 2 ^ 32. -/
def readInt32 (m : Mem) : Int := Int.bmod (readLE m 4) 4294967296

theorem readInt32_congr {m m' : Mem} (h : ∀ i < 4, m i = m' i) : readInt32 m = readInt32 m' := by
  unfold readInt32
  rw [readLE_congr h]

/-- The bytes of an `int`. -/
def int32Mem (v : Int) : Mem := leMem (v % 4294967296).toNat

theorem readInt32_int32Mem {v : Int} (h : -2 ^ 31 ≤ v) (h' : v < 2 ^ 31) :
    readInt32 (int32Mem v) = v := by
  obtain ⟨w, hw⟩ : ∃ w : Nat, (w : Int) = v % 4294967296 :=
    ⟨(v % 4294967296).toNat, Int.toNat_of_nonneg (by omega)⟩
  have hmem : int32Mem v = leMem w := by
    unfold int32Mem
    congr 1
    omega
  have hread : readLE (leMem w) 4 = w := by
    rw [readLE_leMem]
    exact Nat.mod_eq_of_lt (by norm_num; omega)
  have hmod := Int.emod_bmod v 4294967296
  push_cast at hmod
  unfold readInt32
  rw [hmem, hread, hw, hmod]
  exact Int.bmod_eq_of_le (by omega) (by omega)

end Mbroker.Lib
