import Mbroker.Lib.Sorting
import Mbroker.Protocol.BoxNames

/-!
# Sorting the list of boxes

`merge_sort_boxdata_list` of `protocol/protocol.c`: the nodes are relinked where they are. A loop or a recursion
gets a bound on its rounds; `none` says that the bound was too small, or that the code followed a NULL pointer.
-/

namespace Mbroker.Protocol

open Mbroker.Lib

/-- The nodes, by their addresses. -/
abbrev Nodes := Nat → Option BoxData

/-- `strcmp(left->box_name, right->box_name)`, where nothing is compared behind the eight bytes of `box_size`. -/
def strcmpNames (left right : BoxData) : Int := strncmp left.mem right.mem (sizeofBoxName + 9)

/-- Between names with their NUL it is `strcmp`. -/
theorem strcmpNames_eq {left right : BoxData} {n : CString} (h : right.HasName n) :
    strcmpNames left right = strcmp left.mem n := by
  have hstr := h.isStr
  have hnul : right.mem n.strlen = 0 := by
    rw [hstr n.strlen le_rfl, CString.strlen]
    simp
  have hlt : n.strlen < sizeofBoxName + 9 := lt_of_lt_of_le h.1 (Nat.le_add_right _ _)
  have hcut : strncmp left.mem right.mem (sizeofBoxName + 9) = strncmp left.mem right.mem (n.strlen + 1) :=
    strncmp_of_nul hnul hlt (Nat.lt_succ_self _)
  rw [strcmpNames, hcut, strcmp]
  exact strncmp_congr _ fun i hi => hstr i (Nat.le_of_lt_succ hi)

/-! ## The split -/

/-- The loop with `slow` and `fast`, and where `slow` is after it. -/
def splitLoop (heap : Nodes) : Nat → Nat → Option Nat → Option Nat
  | 0, _, _ => none
  | _ + 1, slow, none => some slow
  | n + 1, slow, some fast => do
    match (← heap fast).next with
    | none => some slow
    | some fastNext => do
      let slow' ← (← heap slow).next
      splitLoop heap n slow' (← heap fastNext).next

/-! ## The merge -/

/-- `dummyNext` is what `dummy.next` holds, which is nothing before the first assignment; a `tail` of `none` is
`&dummy`. -/
structure Merge where
  heap : Nodes
  dummyNext : Option (Option Nat)
  tail : Option Nat

namespace Merge

/-- `tail->next = next` -/
def setNext (m : Merge) (next : Option Nat) : Option Merge :=
  match m.tail with
  | none => some { m with dummyNext := some next }
  | some tail => do
    let box ← m.heap tail
    some { m with heap := Function.update m.heap tail (some { box with next := next }) }

/-- `tail = tail->next` -/
def advance (m : Merge) : Option Merge := do
  let next ← match m.tail with
    | none => m.dummyNext
    | some tail => (m.heap tail).map BoxData.next
  let tail ← next
  some { m with tail := some tail }

end Merge

/-- The loop that merges `left` and `right`, and the two assignments behind it. -/
def mergeLoop : Nat → Merge → Option Nat → Option Nat → Option (Nodes × Option Nat)
  | 0, _, _, _ => none
  | n + 1, m, some left, some right => do
    let leftBox ← m.heap left
    let rightBox ← m.heap right
    if strcmpNames leftBox rightBox < 0 then
      let m ← m.setNext (some left)
      let left' := (← m.heap left).next
      mergeLoop n (← m.advance) left' (some right)
    else
      let m ← m.setNext (some right)
      let right' := (← m.heap right).next
      mergeLoop n (← m.advance) (some left) right'
  | _ + 1, m, left, right => do
    let m ← m.setNext (if left ≠ none then left else right)
    some (m.heap, ← m.dummyNext)

/-! ## The sort -/

def mergeSortBoxdataList : Nat → Nodes → Option Nat → Option (Nodes × Option Nat)
  | 0, _, _ => none
  | _ + 1, heap, none => some (heap, none)
  | n + 1, heap, some head => do
    let next := (← heap head).next
    if next = none then some (heap, some head)
    else
      let slow ← splitLoop heap (n + 1) head next
      let slowBox ← heap slow
      let head2 := slowBox.next
      let heap := Function.update heap slow (some { slowBox with next := none })
      let (heap, left) ← mergeSortBoxdataList n heap (some head)
      let (heap, right) ← mergeSortBoxdataList n heap head2
      mergeLoop (n + 1) ⟨heap, none, none⟩ left right

/-! ## What stays as it is -/

namespace Nodes

variable {heap heap' heap'' : Nodes} {p q : Nat} {box : BoxData} {next : Option Nat}

/-- Every node is where it was, with the same fields but for its pointer. -/
def SameData (heap heap' : Nodes) : Prop :=
  ∀ p, (heap' p).map (fun box => { box with next := none }) = (heap p).map fun box => { box with next := none }

namespace SameData

theorem refl : SameData heap heap := fun _ => rfl

theorem trans (h : SameData heap heap') (h' : SameData heap' heap'') : SameData heap heap'' :=
  fun p => (h' p).trans (h p)

theorem update (hp : heap p = some box) : SameData heap (Function.update heap p (some { box with next := next })) := by
  intro q
  by_cases hq : q = p
  · subst hq
    rw [Function.update_self, hp]
    rfl
  · rw [Function.update_of_ne hq]

theorem get (h : SameData heap heap') (hp : heap p = some box) :
    ∃ next, heap' p = some { box with next := next } := by
  have hdata := h p
  rw [hp] at hdata
  cases hp' : heap' p with
  | none =>
      rw [hp'] at hdata
      cases hdata
  | some box' =>
      rw [hp', Option.map_some, Option.map_some, Option.some.injEq] at hdata
      refine ⟨box'.next, ?_⟩
      cases box
      cases box'
      simp only [BoxData.mk.injEq] at hdata
      simp [hdata]

end SameData

/-- The memory from the name of a node on. -/
def memAt (heap : Nodes) (p : Nat) : Mem := ((heap p).map BoxData.mem).getD fun _ => 0

/-- The test of the merge. -/
def less (heap : Nodes) (p q : Nat) : Bool := strncmp (heap.memAt p) (heap.memAt q) (sizeofBoxName + 9) < 0

/-- The order by names. -/
def le (heap : Nodes) (p q : Nat) : Prop := strncmp (heap.memAt p) (heap.memAt q) (sizeofBoxName + 9) ≤ 0

theorem SameData.memAt_eq (h : SameData heap heap') (p : Nat) : heap'.memAt p = heap.memAt p := by
  have hmem : ∀ o : Option BoxData,
      o.map BoxData.mem = (o.map fun box => { box with next := none }).map BoxData.mem := by
    intro o
    cases o <;> rfl
  rw [memAt, memAt, hmem, h p, ← hmem]

theorem SameData.less_eq (h : SameData heap heap') : heap'.less = heap.less := by
  funext p q
  rw [less, less, h.memAt_eq, h.memAt_eq]

theorem SameData.le_eq (h : SameData heap heap') : heap'.le = heap.le := by
  funext p q
  rw [le, le, h.memAt_eq, h.memAt_eq]

theorem less_iff {box' : BoxData} (hp : heap p = some box) (hq : heap q = some box') :
    heap.less p q = true ↔ strcmpNames box box' < 0 := by
  simp [less, memAt, hp, hq, strcmpNames]

theorem le_iff {box' : BoxData} (hp : heap p = some box) (hq : heap q = some box') :
    heap.le p q ↔ strcmpNames box box' ≤ 0 := by
  simp [le, memAt, hp, hq, strcmpNames]

theorem le_trans {r : Nat} (h : heap.le p q) (h' : heap.le q r) : heap.le p r := strncmp_trans h h'

theorem le_of_less (h : heap.less p q = true) : heap.le p q := by
  have hneg : strncmp (heap.memAt p) (heap.memAt q) (sizeofBoxName + 9) < 0 := by simpa [less] using h
  exact hneg.le

theorem le_of_not_less (h : heap.less p q = false) : heap.le q p := by
  have hpos : 0 ≤ strncmp (heap.memAt p) (heap.memAt q) (sizeofBoxName + 9) := by simpa [less] using h
  unfold le
  rw [strncmp_swap]
  omega

end Nodes

/-! ## The split -/

variable {heap heap' : Nodes} {ps ls rs os : List Nat} {a b : Option Nat} {p : Nat}

/-- `fs` is the list from `fast` on, and `ms` what is between `slow` and `fast`. -/
theorem splitLoop_eq : ∀ {fs ms : List Nat} {slow : Nat} {fast : Option Nat},
    Seg heap BoxData.next (some slow) (slow :: (ms ++ fs)) none → Seg heap BoxData.next fast fs none → ms ++ fs ≠ [] →
    ∃ l x r, slow :: (ms ++ fs) = l ++ x :: r ∧ r ≠ [] ∧ ∀ n, fs.length < n → splitLoop heap n slow fast = some x
  | [], ms, slow, fast, _, hf, hne => by
      cases hf
      refine ⟨[], slow, ms ++ [], rfl, hne, fun n hn => ?_⟩
      cases n with
      | zero => cases hn
      | succ n => rfl
  | [f], ms, slow, fast, _, hf, hne => by
      obtain ⟨rfl, box, hbox, hnext⟩ := Seg.cons_iff.mp hf
      refine ⟨[], slow, ms ++ [f], rfl, hne, fun n hn => ?_⟩
      cases n with
      | zero => cases hn
      | succ n => simp [splitLoop, hbox, Seg.nil_iff.mp hnext]
  | f :: f' :: fs, ms, slow, fast, hs, hf, _ => by
      obtain ⟨rfl, box, hbox, hf⟩ := Seg.cons_iff.mp hf
      obtain ⟨hnext, box', hbox', hf⟩ := Seg.cons_iff.mp hf
      obtain ⟨-, slowBox, hslow, hs⟩ := Seg.cons_iff.mp hs
      obtain ⟨slow', ms', hms⟩ : ∃ slow' ms', ms ++ [f, f'] = slow' :: ms' := by
        cases ms with
        | nil => exact ⟨f, [f'], rfl⟩
        | cons m ms => exact ⟨m, ms ++ [f, f'], rfl⟩
      have hlist : ms ++ f :: f' :: fs = slow' :: (ms' ++ fs) := by
        have happ : ms ++ f :: f' :: fs = (ms ++ [f, f']) ++ fs := by simp
        rw [happ, hms]
        rfl
      have hms' : ms' ≠ [] := by
        rintro rfl
        have hlen := congrArg List.length hms
        simp at hlen
      rw [hlist] at hs
      have hslow' : slowBox.next = some slow' := (Seg.cons_iff.mp hs).1
      rw [hslow'] at hs
      obtain ⟨l, x, r, hsplit, hr, hloop⟩ := splitLoop_eq hs hf (by simp [hms'])
      refine ⟨slow :: l, x, r, by rw [hlist, hsplit]; rfl, hr, fun n hn => ?_⟩
      cases n with
      | zero => cases hn
      | succ n =>
          have hrec := hloop n (by simp only [List.length_cons] at hn; omega)
          simp [splitLoop, hbox, hnext, hslow, hslow', hbox', hrec]

/-- A list of two nodes or more is cut behind `slow`, and neither half is empty. -/
theorem exists_halves {q : Nat} {qs : List Nat} (h : Seg heap BoxData.next (some p) (p :: q :: qs) none) :
    ∃ pbox slow slowBox ls rs, heap p = some pbox ∧ pbox.next = some q ∧
      (∀ n, qs.length + 1 < n → splitLoop heap n p pbox.next = some slow) ∧ heap slow = some slowBox ∧
      p :: q :: qs = ls ++ rs ∧ ls ≠ [] ∧ rs ≠ [] ∧ slow ∈ ls ∧
      Seg (Function.update heap slow (some { slowBox with next := none })) BoxData.next (some p) ls none ∧
      Seg (Function.update heap slow (some { slowBox with next := none })) BoxData.next slowBox.next rs none := by
  obtain ⟨-, pbox, hp, hrest⟩ := Seg.cons_iff.mp h
  have hseg : Seg heap BoxData.next (some p) (p :: ([] ++ q :: qs)) none := h
  obtain ⟨l, x, rs, hsplit, hrs, hslow⟩ := splitLoop_eq hseg hrest (by simp)
  have hsplit : p :: q :: qs = (l ++ [x]) ++ rs := by rw [List.append_assoc]; exact hsplit
  have hnd := h.nodup
  rw [hsplit] at h hnd
  obtain ⟨hndl, -, hdisj⟩ := List.nodup_append.mp hnd
  obtain ⟨c, hfirst, hsecond⟩ := Seg.append_iff.mp h
  obtain ⟨c', hl, hx⟩ := Seg.append_iff.mp hfirst
  obtain ⟨rfl, xbox, hxbox, hc⟩ := Seg.cons_iff.mp hx
  obtain rfl := Seg.nil_iff.mp hc
  have hxl : x ∉ l := fun hmem => (List.nodup_append.mp hndl).2.2 x hmem x List.mem_cons_self rfl
  refine ⟨pbox, x, xbox, l ++ [x], rs, hp, (Seg.cons_iff.mp hrest).1, hslow, hxbox, hsplit, by simp, hrs, by simp,
    hl.relink hxl rfl, hsecond.congr fun y hy => Function.update_of_ne ?_ _ _⟩
  rintro rfl
  exact hdisj y (by simp) y hy rfl

/-! ## The merge -/

namespace Merge

variable {m : Merge}

/-- The chain from the dummy on is `os`, as far as `tail`. -/
inductive Out (m : Merge) : List Nat → Prop
  | start : m.tail = none → Out m []
  | chain {d os p box} : m.tail = some p → m.dummyNext = some d → Seg m.heap BoxData.next d os (some p) →
      m.heap p = some box → Out m (os ++ [p])

/-- The assignment to `tail->next` makes the chain lead on to `next`. -/
theorem Out.setNext (h : m.Out os) (hnd : os.Nodup) (next : Option Nat) :
    ∃ m' d, m.setNext next = some m' ∧ m'.tail = m.tail ∧ m'.dummyNext = some d ∧
      Seg m'.heap BoxData.next d os next ∧ Nodes.SameData m.heap m'.heap ∧ ∀ q ∉ os, m'.heap q = m.heap q := by
  cases h with
  | start ht =>
      exact ⟨{ m with dummyNext := some next }, next, by simp [Merge.setNext, ht], rfl, rfl, .nil, .refl,
        fun _ _ => rfl⟩
  | @chain d os p box ht hd hseg hp =>
      have hnot : p ∉ os := fun hmem => by
        rw [List.nodup_append] at hnd
        exact hnd.2.2 p hmem p List.mem_cons_self rfl
      refine ⟨{ m with heap := Function.update m.heap p (some { box with next := next }) }, d,
        by simp [Merge.setNext, ht, hp], rfl, hd, hseg.relink hnot rfl, .update hp, fun q hq => ?_⟩
      refine Function.update_of_ne ?_ _ _
      rintro rfl
      exact hq (by simp)

theorem Out.push (h : m.Out os) (hnd : os.Nodup) {box : BoxData} (hp : m.heap p = some box) (hpo : p ∉ os) :
    ∃ m' m'', m.setNext (some p) = some m' ∧ m'.advance = some m'' ∧ m''.heap = m'.heap ∧ m''.Out (os ++ [p]) ∧
      Nodes.SameData m.heap m'.heap ∧ ∀ q ∉ os, m'.heap q = m.heap q := by
  obtain ⟨m', d, hset, ht, hd, hseg, hsame, hframe⟩ := h.setNext hnd (some p)
  have hadv : m'.advance = some { m' with tail := some p } := by
    cases h with
    | start ht' =>
        rw [ht'] at ht
        cases hseg
        simp [advance, ht, hd]
    | @chain d' os q qbox ht' hd' hseg' hq =>
        rw [ht'] at ht
        obtain ⟨c, -, hc⟩ := Seg.append_iff.mp hseg
        obtain ⟨-, box', hq', hnext⟩ := Seg.cons_iff.mp hc
        simp [advance, ht, hq', Seg.nil_iff.mp hnext]
  exact ⟨m', _, hset, hadv, rfl, .chain rfl hd hseg ((hframe p hpo).trans hp), hsame, hframe⟩

end Merge

/-- The last assignment puts a whole list behind the chain. -/
theorem Merge.Out.close {m : Merge} (h : m.Out os) {ts : List Nat} (hs : Seg m.heap BoxData.next a ts none)
    (hnd : (os ++ ts).Nodup) :
    ∃ m' d, m.setNext a = some m' ∧ m'.dummyNext = some d ∧ Seg m'.heap BoxData.next d (os ++ ts) none ∧
      Nodes.SameData m.heap m'.heap ∧ ∀ q ∉ os ++ ts, m'.heap q = m.heap q := by
  obtain ⟨hos, -, hdisj⟩ := List.nodup_append.mp hnd
  obtain ⟨m', d, hset, -, hd, hseg, hsame, hframe⟩ := h.setNext hos a
  have hts : Seg m'.heap BoxData.next a ts none :=
    hs.congr fun q hq => hframe q fun hqo => hdisj q hqo q hq rfl
  exact ⟨m', d, hset, hd, Seg.append_iff.mpr ⟨a, hseg, hts⟩, hsame,
    fun q hq => hframe q fun hqo => hq (List.mem_append_left _ hqo)⟩

theorem mergeLoop_left (n : Nat) (m : Merge) (right : Option Nat) :
    mergeLoop (n + 1) m none right = (m.setNext right).bind fun m => m.dummyNext.bind fun d => some (m.heap, d) := by
  cases right <;> rfl

theorem mergeLoop_right (n : Nat) (m : Merge) (left : Option Nat) :
    mergeLoop (n + 1) m left none = (m.setNext left).bind fun m => m.dummyNext.bind fun d => some (m.heap, d) := by
  cases left <;> rfl

/-- The loop makes one list of the chain so far and the two lists merged. -/
theorem mergeLoop_eq {m : Merge} (ho : m.Out os) (hl : Seg m.heap BoxData.next a ls none)
    (hr : Seg m.heap BoxData.next b rs none) (hnd : (os ++ (ls ++ rs)).Nodup) :
    ∃ heap' head', (∀ n, ls.length + rs.length < n → mergeLoop n m a b = some (heap', head')) ∧
      Seg heap' BoxData.next head' (os ++ ls.merge rs (Nodes.less m.heap)) none ∧ Nodes.SameData m.heap heap' ∧
      ∀ q ∉ os ++ (ls ++ rs), heap' q = m.heap q := by
  induction ls generalizing m os rs a b with
  | nil =>
      cases hl
      obtain ⟨m', d, hset, hd, hseg, hsame, hframe⟩ := ho.close hr hnd
      refine ⟨m'.heap, d, fun n hn => ?_, by simpa using hseg, hsame, hframe⟩
      cases n with
      | zero => cases hn
      | succ n => rw [mergeLoop_left, hset, Option.bind_some, hd, Option.bind_some]
  | cons l ls ihl =>
      induction rs generalizing m os b with
      | nil =>
          cases hr
          rw [List.append_nil] at hnd
          obtain ⟨m', d, hset, hd, hseg, hsame, hframe⟩ := ho.close hl hnd
          refine ⟨m'.heap, d, fun n hn => ?_, by simpa using hseg, hsame, by simpa using hframe⟩
          cases n with
          | zero => cases hn
          | succ n => rw [mergeLoop_right, hset, Option.bind_some, hd, Option.bind_some]
      | cons r rs ihr =>
          obtain ⟨hos, hrest, hdisj⟩ := List.nodup_append.mp hnd
          obtain ⟨rfl, lbox, hlbox, hl'⟩ := Seg.cons_iff.mp hl
          obtain ⟨rfl, rbox, hrbox, hr'⟩ := Seg.cons_iff.mp hr
          have hoff : ∀ q ∈ (l :: ls) ++ r :: rs, q ∉ os := fun q hq hqo => hdisj q hqo q hq rfl
          cases hless : Nodes.less m.heap l r with
          | true =>
              -- `left` goes behind the chain
              obtain ⟨m', m'', hset, hadv, hheap, hout, hsame, hframe⟩ := ho.push hos hlbox (hoff l (by simp))
              have hl₁ : Seg m''.heap BoxData.next lbox.next ls none :=
                hl'.congr fun q hq => by rw [hheap, hframe q (hoff q (by simp [hq]))]
              have hr₁ : Seg m''.heap BoxData.next (some r) (r :: rs) none :=
                hr.congr fun q hq => by rw [hheap, hframe q (hoff q (List.mem_append_right _ hq))]
              obtain ⟨heap', head', hloop, hseg, hsame', hframe'⟩ := ihl hout hl₁ hr₁ (by simpa using hnd)
              rw [hheap] at hsame' hframe' hseg
              refine ⟨heap', head', fun n hn => ?_, ?_, hsame.trans hsame', fun q hq => ?_⟩
              · cases n with
                | zero => cases hn
                | succ n =>
                    have hrec := hloop n (by simp only [List.length_cons] at hn ⊢; omega)
                    have hlt := (Nodes.less_iff hlbox hrbox).mp hless
                    simp [mergeLoop, hlbox, hrbox, hlt, hset, hadv, hframe l (hoff l (by simp)), hrec]
              · rw [List.cons_merge_cons_pos _ _ _ hless]
                simpa [hsame.less_eq] using hseg
              · rw [hframe' q (by simpa using hq), hframe q fun hqo => hq (List.mem_append_left _ hqo)]
          | false =>
              -- `right` goes behind the chain
              have hro : r ∉ os := hoff r (by simp)
              obtain ⟨m', m'', hset, hadv, hheap, hout, hsame, hframe⟩ := ho.push hos hrbox hro
              have hl₁ : Seg m''.heap BoxData.next (some l) (l :: ls) none :=
                hl.congr fun q hq => by rw [hheap, hframe q (hoff q (List.mem_append_left _ hq))]
              have hr₁ : Seg m''.heap BoxData.next rbox.next rs none :=
                hr'.congr fun q hq => by rw [hheap, hframe q (hoff q (by simp [hq]))]
              have hperm : (os ++ (l :: ls ++ r :: rs)).Perm (os ++ [r] ++ (l :: ls ++ rs)) := by
                rw [List.append_assoc]
                exact List.Perm.append_left os List.perm_middle
              obtain ⟨heap', head', hloop, hseg, hsame', hframe'⟩ := ihr hout hl₁ hr₁ (hperm.nodup_iff.mp hnd)
              rw [hheap] at hsame' hframe' hseg
              refine ⟨heap', head', fun n hn => ?_, ?_, hsame.trans hsame', fun q hq => ?_⟩
              · cases n with
                | zero => cases hn
                | succ n =>
                    have hrec := hloop n (by simp only [List.length_cons] at hn ⊢; omega)
                    have hge : ¬ strcmpNames lbox rbox < 0 := by
                      rw [← Nodes.less_iff hlbox hrbox, hless]
                      exact Bool.false_ne_true
                    simp [mergeLoop, hlbox, hrbox, hge, hset, hadv, hframe r hro, hrec]
              · rw [List.cons_merge_cons_neg _ _ _ (by simp [hless])]
                simpa [hsame.less_eq] using hseg
              · rw [hframe' q fun hq' => hq (hperm.mem_iff.mpr hq'),
                  hframe q fun hqo => hq (List.mem_append_left _ hqo)]

/-! ## The sort -/

/-- The sort relinks the nodes as a merge sort orders them, and changes nothing else. -/
theorem mergeSortBoxdataList_merges (h : Seg heap BoxData.next a ps none) :
    ∃ heap' head' ps', (∀ n, ps.length < n → mergeSortBoxdataList n heap a = some (heap', head')) ∧
      Seg heap' BoxData.next head' ps' none ∧ MergeSorts heap.less ps ps' ∧ heap.SameData heap' ∧
      ∀ q ∉ ps, heap' q = heap q := by
  obtain ⟨k, hk⟩ : ∃ k, k = ps.length := ⟨_, rfl⟩
  induction k using Nat.strong_induction_on generalizing heap a ps with
  | _ k ih =>
      match ps, h with
      | [], h =>
          cases h
          refine ⟨heap, none, [], fun n hn => ?_, .nil, .nil, .refl, fun _ _ => rfl⟩
          cases n with
          | zero => cases hn
          | succ n => rfl
      | [p], h =>
          obtain ⟨rfl, box, hp, hnext⟩ := Seg.cons_iff.mp h
          refine ⟨heap, some p, [p], fun n hn => ?_, h, .single, .refl, fun _ _ => rfl⟩
          cases n with
          | zero => cases hn
          | succ n => simp [mergeSortBoxdataList, hp, Seg.nil_iff.mp hnext]
      | p :: q :: qs, h =>
          obtain rfl := (Seg.cons_iff.mp h).1
          obtain ⟨pbox, slow, slowBox, ls, rs, hp, hnext, hslow, hslowBox, hsplit, hls, hrs, hmem, hleft, hright⟩ :=
            exists_halves h
          have hnd := h.nodup
          rw [hsplit] at hnd hk ⊢
          obtain ⟨hndl, hndr, hdisj⟩ := List.nodup_append.mp hnd
          have hlen : (ls ++ rs).length = ls.length + rs.length := List.length_append
          have hlpos := List.length_pos_iff.mpr hls
          have hrpos := List.length_pos_iff.mpr hrs
          -- the first half is sorted, then the second
          obtain ⟨heap₁, left, ls', hsort₁, hls', hmerges₁, hsame₁, hframe₁⟩ := ih ls.length (by omega) hleft rfl
          have hperm₁ := hmerges₁.perm
          have hright₁ : Seg heap₁ BoxData.next slowBox.next rs none :=
            hright.congr fun y hy => hframe₁ y fun hyl => hdisj y hyl y hy rfl
          obtain ⟨heap₂, right, rs', hsort₂, hrs', hmerges₂, hsame₂, hframe₂⟩ :=
            ih rs.length (by omega) hright₁ rfl
          have hperm₂ := hmerges₂.perm
          have hls₂ : Seg heap₂ BoxData.next left ls' none :=
            hls'.congr fun y hy => hframe₂ y fun hyr => hdisj y (hperm₁.mem_iff.mp hy) y hyr rfl
          have hnd' : ([] ++ (ls' ++ rs')).Nodup := (hperm₁.append hperm₂).nodup_iff.mpr hnd
          obtain ⟨heap₃, head', hmerge, hseg, hsame₃, hframe₃⟩ :=
            mergeLoop_eq (m := ⟨heap₂, none, none⟩) (.start rfl) hls₂ hrs' hnd'
          have hsame₀ : heap.SameData (Function.update heap slow (some { slowBox with next := none })) :=
            .update hslowBox
          have hsame : heap.SameData heap₂ := (hsame₀.trans hsame₁).trans hsame₂
          have hless : Nodes.less heap₂ = heap.less := hsame.less_eq
          refine ⟨heap₃, head', ls'.merge rs' heap.less, fun n hn => ?_, ?_, ?_, hsame.trans hsame₃, ?_⟩
          · cases n with
            | zero => cases hn
            | succ n =>
                have hlen' : (p :: q :: qs).length = (ls ++ rs).length := by rw [hsplit]
                simp only [List.length_cons] at hlen'
                have h₀ := hslow (n + 1) (by omega)
                have h₁ := hsort₁ n (by omega)
                have h₂ := hsort₂ n (by omega)
                have h₃ := hmerge (n + 1) (by rw [hperm₁.length_eq, hperm₂.length_eq]; omega)
                rw [hnext] at h₀
                simp [mergeSortBoxdataList, hp, hnext, h₀, hslowBox, h₁, h₂, h₃]
          · rw [← hless]
            exact hseg
          · rw [hsame₀.less_eq] at hmerges₁
            rw [(hsame₀.trans hsame₁).less_eq] at hmerges₂
            exact hmerges₁.halves hmerges₂
          · intro y hy
            rw [List.mem_append, not_or] at hy
            have hy₃ : heap₃ y = heap₂ y :=
              hframe₃ y (by simpa [hperm₁.mem_iff, hperm₂.mem_iff] using hy)
            have hy₀ : y ≠ slow := by
              rintro rfl
              exact hy.1 hmem
            rw [hy₃, hframe₂ y hy.2, hframe₁ y hy.1, Function.update_of_ne hy₀]

/-- The nodes are in order then. -/
theorem mergeSortBoxdataList_eq (h : Seg heap BoxData.next a ps none) :
    ∃ heap' head' ps', (∀ n, ps.length < n → mergeSortBoxdataList n heap a = some (heap', head')) ∧
      Seg heap' BoxData.next head' ps' none ∧ ps'.Perm ps ∧ ps'.Pairwise heap.le ∧ heap.SameData heap' ∧
      ∀ q ∉ ps, heap' q = heap q := by
  obtain ⟨heap', head', ps', hsort, hseg, hmerges, hsame, hframe⟩ := mergeSortBoxdataList_merges h
  have hord : ps'.Pairwise heap.le :=
    hmerges.pairwise (fun _ _ _ => Nodes.le_trans) (fun _ _ _ => Nodes.le_of_less) fun _ _ _ => Nodes.le_of_not_less
  exact ⟨heap', head', ps', hsort, hseg, hmerges.perm, hord, hsame, hframe⟩

end Mbroker.Protocol
