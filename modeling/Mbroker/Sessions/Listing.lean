import Mbroker.Protocol.BoxNames
import Mbroker.Protocol.ListCalls
import Mbroker.Sessions.Model

/-!
# The records of a listing

What the loop of case 7 writes for the list as it is when it is locked.
-/

namespace Mbroker.Sessions

open Mbroker.Lib Mbroker.Protocol

variable {list list' : BoxList} {ps : List Nat} {rs : List ListingResponse} {c : ListCall} {cs : List ListCall}
  {a : Option Nat} {b : Broker} {w : Nat}

/-- The records of the loop, from `boxData` on, in at most `n` rounds. -/
def listingLoop (list : BoxList) : Nat → Option Nat → Option (List ListingResponse)
  | 0, _ => none
  | _ + 1, none => some []
  | n + 1, some boxData => do
    let box ← list.heap boxData
    let rest ← listingLoop list n box.next
    some (listingResponse list boxData box :: rest)

def listing (list : BoxList) : Option (List ListingResponse) := listingLoop list (list.allocated + 1) list.head

/-- The record is the one for the box at `p`. -/
def IsRecord (list : BoxList) (p : Nat) (r : ListingResponse) : Prop :=
  ∃ box, list.heap p = some box ∧ r = listingResponse list p box

theorem listingResponse_boxName {box : BoxData} {name : CString} (h : box.HasName (newBoxName name)) (p : Nat) :
    (listingResponse list p box).boxName = name := by
  have hstr := h.isStr
  have htail : (box.mem.ptr 1).IsStr name.chars := by
    intro i hi
    have hnext := hstr (1 + i) (by simp only [newBoxName, List.length_cons]; omega)
    rw [Mem.ptr_apply, hnext, newBoxName, Nat.add_comm, List.getD_cons_succ]
  have hlen : name.chars.length ≤ sizeofBoxName := by
    have hlt := h.1
    simp only [newBoxName, CString.strlen, List.length_cons] at hlt
    omega
  cases name with
  | mk chars noNul =>
      simp only [listingResponse, removeStringsFromBuffer, CString.mk.injEq]
      exact htail.takeWhile_bytes noNul hlen

theorem listingLoop_eq (h : Seg list.heap BoxData.next a ps none) {n : Nat} (hn : ps.length < n) :
    ∃ rs, listingLoop list n a = some rs ∧ List.Forall₂ (IsRecord list) ps rs := by
  induction ps generalizing a n with
  | nil =>
      cases h
      cases n with
      | zero => cases hn
      | succ n => exact ⟨[], rfl, .nil⟩
  | cons p ps ih =>
      obtain ⟨rfl, box, hp, h⟩ := Seg.cons_iff.mp h
      cases n with
      | zero => cases hn
      | succ n =>
          obtain ⟨rs, hrs, hrec⟩ := ih h (by simpa using hn)
          exact ⟨listingResponse list p box :: rs, by simp [listingLoop, hp, hrs], .cons ⟨box, hp, rfl⟩ hrec⟩

theorem listing_eq (h : list.Holds ps) : ∃ rs, listing list = some rs ∧ List.Forall₂ (IsRecord list) ps rs :=
  listingLoop_eq h.seg (by rw [h.allocated]; exact Nat.lt_succ_self _)

/-! ## Steps of the worker -/

/-- A worker that goes on with the loop writes these records, and is done. -/
theorem listingLoop_steps (hw : b.phase w = .listing a) (h : Seg b.boxList.heap BoxData.next a ps none) {n : Nat}
    (hn : ps.length < n) : ∃ b' rs, listingLoop b.boxList n a = some rs ∧
      Steps Step b (List.replicate (rs.length + 1) (.listBox w)) b' ∧ b'.output w = b.output w ++ rs.map .listing ∧
      b'.phase w = .idle := by
  induction ps generalizing a b n with
  | nil =>
      cases h
      cases n with
      | zero => cases hn
      | succ n =>
          refine ⟨_, [], rfl, .cons (by simp only [Step, step, hw]; rfl) .nil, ?_, Broker.setPhase_self _ _ _⟩
          simp [Broker.setPhase]
  | cons p ps ih =>
      obtain ⟨rfl, box, hp, h⟩ := Seg.cons_iff.mp h
      obtain ⟨b₁, hb₁⟩ : ∃ b₁, b₁ =
          (b.write w [.listing (listingResponse b.boxList p box)]).setPhase w (.listing box.next) := ⟨_, rfl⟩
      have hstep : Step b (.listBox w) b₁ := by simp only [Step, step, hw, hp, Option.map_some, hb₁]
      have hlist : b₁.boxList = b.boxList := by rw [hb₁]; rfl
      have hphase : b₁.phase w = .listing box.next := by rw [hb₁]; exact Broker.setPhase_self _ _ _
      have hout : b₁.output w = b.output w ++ [.listing (listingResponse b.boxList p box)] := by
        rw [hb₁]
        exact Function.update_self _ _ _
      cases n with
      | zero => cases hn
      | succ n =>
          obtain ⟨b', rs, hrs, hrun, hout', hidle⟩ := ih hphase (by rw [hlist]; exact h) (n := n) (by simpa using hn)
          rw [hlist] at hrs
          refine ⟨b', listingResponse b.boxList p box :: rs, by simp [listingLoop, hp, hrs], .cons hstep hrun, ?_,
            hidle⟩
          rw [hout', hout]
          simp

theorem listing_steps (hw : b.phase w = .listing b.boxList.head) (h : b.boxList.Holds ps) :
    ∃ b' rs, listing b.boxList = some rs ∧ Steps Step b (List.replicate (rs.length + 1) (.listBox w)) b' ∧
      b'.output w = b.output w ++ rs.map .listing ∧ b'.phase w = .idle :=
  listingLoop_steps hw h.seg (by rw [h.allocated]; exact Nat.lt_succ_self _)

/-! ## The field `last` -/

/-- The last record, and no other one, has the flag. -/
def LastMarked (rs : List ListingResponse) : Prop :=
  ∀ init r, rs = init ++ [r] → r.last = 1 ∧ ∀ r' ∈ init, r'.last = 0

theorem IsRecord.last_eq {p q : Nat} {r : ListingResponse} (h : IsRecord list p r) (ht : list.tail = some q) :
    r.last = if p = q then 1 else 0 := by
  obtain ⟨box, -, rfl⟩ := h
  simp [listingResponse, ht]

/-- A record has the flag exactly if its box is the last one. -/
theorem LastMarked.of_records (hrec : List.Forall₂ (IsRecord list) ps rs) (hnd : ps.Nodup)
    (ht : list.tail = ps.getLast?) : LastMarked rs := by
  rintro init r rfl
  have hinit := List.forall₂_take_append ps init [r] hrec
  have hlast := List.forall₂_drop_append ps init [r] hrec
  have hsplit := List.take_append_drop init.length ps
  obtain ⟨q, hqs, hdrop⟩ : ∃ q, IsRecord list q r ∧ ps.drop init.length = [q] := by
    cases hdrop : ps.drop init.length with
    | nil =>
        rw [hdrop] at hlast
        cases hlast
    | cons q qs =>
        rw [hdrop] at hlast
        cases hlast with
        | cons hq hnil =>
            cases hnil
            exact ⟨q, hq, rfl⟩
  rw [hdrop] at hsplit
  have htail : list.tail = some q := by rw [ht, ← hsplit, List.getLast?_concat]
  refine ⟨by rw [hqs.last_eq htail, if_pos rfl], ?_⟩
  have hne : ∀ p ∈ ps.take init.length, p ≠ q := by
    rintro p hp rfl
    rw [← hsplit, List.nodup_append] at hnd
    exact hnd.2.2 p hp p List.mem_cons_self rfl
  clear hsplit hrec hlast hdrop
  generalize ps.take init.length = qs at hinit hne
  induction hinit with
  | nil => nofun
  | cons hp _ ih =>
      intro r' hr'
      rcases List.mem_cons.mp hr' with rfl | hr'
      · rw [hp.last_eq htail, if_neg (hne _ List.mem_cons_self)]
      · exact ih (fun p hp => hne p (List.mem_cons_of_mem _ hp)) r' hr'

/-- A list from which every listing has the flag on its last record, and on no other. -/
def ListsLast (list : BoxList) : Prop := ∃ rs, listing list = some rs ∧ LastMarked rs

theorem listsLast_of_wellFormed (h : list.WellFormed) : ListsLast list := by
  obtain ⟨ps, hchain, ht⟩ := h
  obtain ⟨rs, hrs, hrec⟩ := listing_eq hchain.holds
  exact ⟨rs, hrs, .of_records hrec hchain.nodup ht⟩

end Mbroker.Sessions
