import Mbroker.Sessions.Accounts
import Mbroker.Sessions.Listing

/-!
# The names of the boxes

The name of a creation request goes through `new_box_name` into `box_name`, where `find_box` and the listings look for
it: when it is there whole, and the only one.
-/

namespace Mbroker.Sessions

open Mbroker.Lib Mbroker.Fs Mbroker.Protocol

variable {b b' : Broker} {e : Event} {x x' : Broker × Account} {list list' : BoxList} {ps : List Nat}
  {origin : Nat → CString} {name n : CString} {p : Nat}

/-! ## What is stated -/

/-- The box at `p` has the name of the request, which fits with its NUL; `find_box` finds it by its name, and a
listing gives the name. -/
structure NamedWhole (list : BoxList) (p : Nat) (boxName : CString) : Prop where
  fits : (newBoxName boxName).strlen < sizeofBoxName
  found : findBox list list.head (newBoxName boxName) = some (some p)
  stored : ∃ box, list.heap p = some box ∧ box.HasName (newBoxName boxName) ∧
    (listingResponse list p box).boxName = boxName

/-- Every box in the list was created with the name of a request, and is named so if the name and its NUL fit the
field of the request. -/
def NamesWhole (x : Broker × Account) : Prop :=
  ∃ ps, x.1.boxList.Holds ps ∧ ∀ p ∈ ps, ∃ boxName, x.2.origin p = newBoxName boxName ∧
    (boxName.strlen < sizeofBoxName → NamedWhole x.1.boxList p boxName)

/-- The name of a new box, with the '/' and the NUL, fits `box_name`, and there is no box with it. -/
def InsertsName (b : Broker) : Event → Prop
  | .insert w _ _ => match b.phase w with
    | .created name => name.strlen ≤ sizeofBoxName →
        name.strlen < sizeofBoxName ∧ findBox b.boxList b.boxList.head name = some none
    | _ => True
  | _ => True

instance (b : Broker) : DecidablePred (InsertsName b) := by
  intro e
  induction e using Event.casesOn with
  | insert w addr contents =>
      dsimp only [InsertsName]
      induction b.phase w using Phase.casesOn with
      | created name => infer_instance
      | _ => exact isTrue trivial
  | _ => exact isTrue trivial

/-! ## The boxes -/

/-- A name that does not fit fills the field without a NUL. -/
def KeepsName (box : BoxData) (name : CString) : Prop :=
  if name.strlen ≤ sizeofBoxName then box.HasName name else ∀ i < sizeofBoxName, box.boxName i ≠ 0

/-- A name that fits is compared as a whole, whatever `box_size` is. -/
theorem KeepsName.named_iff {box : BoxData} (h : KeepsName box name) (hn : n.strlen < sizeofBoxName) :
    box.named n = true ↔ name = n := by
  unfold KeepsName at h
  split at h
  · exact h.named_iff
  · rename_i hlong
    constructor
    · intro hnamed
      rw [BoxData.named, decide_eq_true_eq, strcmp_eq_zero] at hnamed
      have hnul : box.mem n.strlen = 0 := by
        rw [hnamed n.strlen (Nat.le_refl _)]
        simp [CString.strlen]
      rw [BoxData.mem, if_pos hn] at hnul
      exact absurd hnul (h _ hn)
    · rintro rfl
      exact absurd hn.le hlong

theorem KeepsName.congr {box box' : BoxData} (h : KeepsName box name) (hname : box'.boxName = box.boxName) :
    KeepsName box' name := by
  unfold KeepsName BoxData.HasName at h ⊢
  rw [hname]
  exact h

/-- What `strcpy` writes of a name that is too long has no NUL within the field. -/
theorem keeps_of_long (contents : Mem) (h : sizeofBoxName < name.strlen) :
    ∀ i < sizeofBoxName, contents.copy 0 name.mem (name.strlen + 1) i ≠ 0 := by
  intro i hi
  have hlt : i < name.chars.length := lt_trans hi h
  rw [Mem.copy_apply_of_mem (Nat.zero_le i) (by omega), Nat.sub_zero, CString.mem, Mem.ofList,
    List.getD_eq_getElem?_getD, List.getElem?_eq_getElem hlt, Option.getD_some]
  intro hnul
  exact name.noNul (hnul ▸ List.getElem_mem _)

/-- The boxes at `ps` have the names they were created with, and of those that fit no two are the same. -/
structure NamesKept (list : BoxList) (origin : Nat → CString) (ps : List Nat) : Prop where
  holds : list.Holds ps
  request : ∀ p ∈ ps, ∃ boxName, origin p = newBoxName boxName
  name : ∀ p ∈ ps, ∃ box, list.heap p = some box ∧ KeepsName box (origin p)
  distinct : ∀ p ∈ ps, ∀ q ∈ ps, (origin p).strlen ≤ sizeofBoxName → origin p = origin q → p = q

namespace NamesKept

theorem empty : NamesKept .empty origin [] := ⟨BoxList.empty_holds, nofun, nofun, nofun⟩

/-- `find_box` goes by the names the boxes were created with. -/
theorem isNamed_iff (h : NamesKept list origin ps) (hp : p ∈ ps) (hn : n.strlen < sizeofBoxName) :
    list.isNamed n p = true ↔ origin p = n := by
  obtain ⟨box, hbox, hkeeps⟩ := h.name p hp
  rw [BoxList.isNamed, hbox, Option.any_some]
  exact hkeeps.named_iff hn

theorem findBox_eq (h : NamesKept list origin ps) (hp : p ∈ ps) (hn : (origin p).strlen < sizeofBoxName) :
    findBox list list.head (origin p) = some (some p) := by
  rw [h.holds.findBox]
  cases hf : ps.find? (list.isNamed (origin p)) with
  | none => exact absurd ((h.isNamed_iff hp hn).mpr rfl) (List.find?_eq_none.mp hf p hp)
  | some q =>
      have hq := List.mem_of_find?_eq_some hf
      have hname := (h.isNamed_iff hq hn).mp (List.find?_some hf)
      rw [h.distinct p hp q hq hn.le hname.symm]

theorem namedWhole (h : NamesKept list origin ps) (hp : p ∈ ps) (ho : origin p = newBoxName n)
    (hn : n.strlen < sizeofBoxName) : NamedWhole list p n := by
  obtain ⟨box, hbox, hkeeps⟩ := h.name p hp
  have hlen : (origin p).strlen ≤ sizeofBoxName := by
    rw [ho]
    exact hn
  rw [KeepsName, if_pos hlen] at hkeeps
  have hfound := h.findBox_eq hp hkeeps.1
  rw [ho] at hkeeps hfound
  exact ⟨hkeeps.1, hfound, box, hbox, hkeeps, listingResponse_boxName hkeeps p⟩

/-! ## Changes of the list -/

/-- Some boxes may go; those that stay keep their names. -/
theorem shrink (h : NamesKept list origin ps) {ps' : List Nat} (hholds : list'.Holds ps')
    (hsub : ∀ p ∈ ps', p ∈ ps) (hk : BoxList.Keeps BoxData.boxName list list') : NamesKept list' origin ps' := by
  refine ⟨hholds, fun p hp => h.request p (hsub p hp), fun p hp => ?_,
    fun p hp q hq => h.distinct p (hsub p hp) q (hsub q hq)⟩
  obtain ⟨box', hbox'⟩ := hholds.seg.allocated hp
  obtain ⟨box, hbox, hname⟩ := hk p box' hbox'
  obtain ⟨box₀, hbox₀, hkeeps⟩ := h.name p (hsub p hp)
  rw [hbox] at hbox₀
  cases hbox₀
  exact ⟨box', hbox', hkeeps.congr hname⟩

theorem setBox (h : NamesKept list origin ps) {box box' : BoxData} (hp : list.heap p = some box)
    (hnext : box'.next = box.next) (hname : box'.boxName = box.boxName) : NamesKept (list.setBox p box') origin ps :=
  h.shrink (h.holds.setBox hp hnext) (fun _ hq => hq) (.setBox hp hname)

theorem deleteBox (h : NamesKept list origin ps) (he : Protocol.deleteBox list name = some list') :
    ∃ ps', NamesKept list' origin ps' := by
  obtain ⟨list₁, he₁, hholds, -⟩ := @BoxList.Holds.deleteBox _ _ name h.holds
  rw [he] at he₁
  cases he₁
  exact ⟨_, h.shrink hholds (fun _ hp => List.mem_of_mem_eraseP hp) (.deleteBox (fun _ _ => rfl) he)⟩

/-- A name that fits must be new; one that is too long is in nobody's way. -/
theorem insert (h : NamesKept list origin ps) {addr : Nat} {contents : Mem} (hfree : list.heap addr = none)
    (hrequest : ∃ boxName, name = newBoxName boxName)
    (hg : name.strlen ≤ sizeofBoxName → name.strlen < sizeofBoxName ∧ findBox list list.head name = some none) :
    NamesKept (insertAtBeginning list addr contents name 0 0 0) (Function.update origin addr name) (addr :: ps) := by
  have hne : ∀ p ∈ ps, p ≠ addr := by
    rintro p hp rfl
    obtain ⟨box, hbox, -⟩ := h.name p hp
    rw [hfree] at hbox
    cases hbox
  have hold : ∀ p ∈ ps, Function.update origin addr name p = origin p := fun p hp =>
    Function.update_of_ne (hne p hp) _ _
  have hnew : name.strlen ≤ sizeofBoxName → ∀ p ∈ ps, origin p ≠ name := by
    intro hlen p hp ho
    obtain ⟨hlt, hnone⟩ := hg hlen
    have hfound := h.findBox_eq hp (by rw [ho]; exact hlt)
    rw [ho, hnone] at hfound
    cases hfound
  refine ⟨h.holds.insert hfree, fun p hp => ?_, fun p hp => ?_, fun p hp q hq hlen ho => ?_⟩
  · rcases List.mem_cons.mp hp with rfl | hp
    · rwa [Function.update_self]
    · rw [hold p hp]
      exact h.request p hp
  · rcases List.mem_cons.mp hp with rfl | hp
    · rw [Function.update_self]
      unfold KeepsName
      split
      · rename_i hlen
        obtain ⟨box, hbox, hname, -⟩ := BoxList.insertAtBeginning_heap_self list p contents 0 0 0 (hg hlen).1
        exact ⟨box, hbox, hname⟩
      · rename_i hlong
        exact ⟨_, Function.update_self _ _ _, keeps_of_long contents (not_le.mp hlong)⟩
    · obtain ⟨box, hbox, hkeeps⟩ := h.name p hp
      rw [hold p hp]
      exact ⟨box, BoxList.insertAtBeginning_heap_of_some hfree hbox, hkeeps⟩
  · rcases List.mem_cons.mp hp with rfl | hp' <;> rcases List.mem_cons.mp hq with rfl | hq'
    · rfl
    · rw [Function.update_self] at hlen ho
      rw [hold q hq'] at ho
      exact absurd ho.symm (hnew hlen q hq')
    · rw [hold p hp'] at hlen ho
      rw [Function.update_self] at ho
      exact absurd ho (hnew (ho ▸ hlen) p hp')
    · rw [hold p hp'] at hlen ho
      rw [hold q hq'] at ho
      exact h.distinct p hp' q hq' hlen ho

end NamesKept

/-! ## Steps -/

/-- Whether the name of every creation and removal in progress is that of a request. -/
def Requested (b : Broker) : Prop := ∀ w name, (b.phase w).boxName = some name → ∃ boxName, name = newBoxName boxName

theorem Broker.Started.requested (h : b.Started) : Requested b := by
  intro w name hw
  rw [h.phase w] at hw
  cases hw

theorem Outcome.requested (ho : Outcome b e b') (h : Requested b) : Requested b' := by
  intro w name hw
  obtain hold | ⟨boxName, hname, -⟩ := ho.boxNames w name hw
  · exact h w name hold
  · exact ⟨boxName, hname⟩

variable {r : Account}

theorem record_origin (he : ∀ w addr contents, e ≠ .insert w addr contents) :
    (record r b e b').origin = r.origin := by
  unfold record
  split
  · rename_i w addr contents
    exact absurd rfl (he w addr contents)
  · split <;> rfl

theorem record_insert {w addr : Nat} {contents : Mem} (hw : b.phase w = .created name) :
    (record r b (.insert w addr contents) b').origin = Function.update r.origin addr name := by
  simp only [record, hw]

theorem Outcome.namesKept (ho : Outcome b e b') (hr : Requested b) (h : NamesKept b.boxList r.origin ps)
    (hg : InsertsName b e) : ∃ ps', NamesKept b'.boxList (record r b e b').origin ps' := by
  cases ho with
  | @insert w name addr contents hw hfree hlock =>
      simp only [InsertsName, hw] at hg
      rw [record_insert hw]
      exact ⟨_, h.insert hfree (hr w name (by rw [hw]; rfl)) hg⟩
  | deleteBox hw hlock he =>
      rw [record_origin (by simp)]
      exact h.deleteBox he
  | setPublishers hw hbox | countSubscriber hw hbox | sample hw hbox | resetPublishers hw hbox
  | uncountSubscriber hw hbox | publishFull hw hbox | publish hw hbox =>
      rw [record_origin (by simp)]
      exact ⟨ps, h.setBox hbox rfl rfl⟩
  | lockList hw | unlockList hw =>
      rw [record_origin (by simp)]
      exact ⟨ps, h.shrink ⟨h.holds.seg, h.holds.allocated⟩ (fun _ hp => hp) fun _ box hbox => ⟨box, hbox, rfl⟩⟩
  | _ =>
      rw [record_origin (by simp)]
      exact ⟨ps, h⟩

/-- A box with a name that is too long, or that another box has, is not named whole. -/
theorem Outcome.insertsName (ho : Outcome b e b') (h : NamesKept b.boxList r.origin ps)
    (hwhole : NamesWhole (b', record r b e b')) : InsertsName b e := by
  cases ho with
  | @insert w name addr contents hw hfree hlock =>
      simp only [InsertsName, hw]
      intro hlen
      obtain ⟨ps', hholds, hall⟩ := hwhole
      obtain rfl := hholds.unique (h.holds.insert hfree)
      rw [record_insert hw] at hall
      -- whoever has the name is found by it, so that only one box can have it
      have hfound : ∀ p ∈ addr :: ps, Function.update r.origin addr name p = name → name.strlen < sizeofBoxName ∧
          findBox (insertAtBeginning b.boxList addr contents name 0 0 0) (some addr) name = some (some p) := by
        intro p hp ho
        obtain ⟨boxName, hname, hwhole⟩ := hall p hp
        rw [ho] at hname
        subst hname
        have hnamed := hwhole hlen
        exact ⟨hnamed.fits, hnamed.found⟩
      obtain ⟨hlt, haddr⟩ := hfound addr List.mem_cons_self (Function.update_self _ _ _)
      refine ⟨hlt, ?_⟩
      rw [h.holds.findBox]
      cases hf : ps.find? (b.boxList.isNamed name) with
      | none => rfl
      | some q =>
          have hq := List.mem_of_find?_eq_some hf
          have hne : q ≠ addr := by
            rintro rfl
            obtain ⟨box, hbox, -⟩ := h.name q hq
            rw [hfree] at hbox
            cases hbox
          have ho := (h.isNamed_iff hq hlt).mp (List.find?_some hf)
          have hq' := (hfound q (List.mem_cons_of_mem _ hq) ((Function.update_of_ne hne _ _).trans ho)).2
          rw [haddr] at hq'
          cases hq'
          exact absurd rfl hne
  | _ => trivial

/-- The first two boxes of the list are found by their names. -/
theorem NamesWhole.found (h : NamesWhole x) {boxName : CString} (ho : x.2.origin p = newBoxName boxName)
    (hn : boxName.strlen < sizeofBoxName)
    (hp : x.1.boxList.head = some p ∨
      ∃ q box, x.1.boxList.head = some q ∧ x.1.boxList.heap q = some box ∧ box.next = some p) :
    findBox x.1.boxList x.1.boxList.head (newBoxName boxName) = some (some p) := by
  obtain ⟨ps, hholds, hall⟩ := h
  have hmem : p ∈ ps := by
    have hseg := hholds.seg
    obtain hhead | ⟨q, box, hhead, hbox, hnext⟩ := hp
    · rw [hhead] at hseg
      cases hseg
      exact List.mem_cons_self
    · rw [hhead] at hseg
      cases hseg with
      | cons hbox' hseg =>
          rw [hbox] at hbox'
          cases hbox'
          rw [hnext] at hseg
          cases hseg
          exact List.mem_cons_of_mem _ List.mem_cons_self
  obtain ⟨boxName', ho', hwhole⟩ := hall p hmem
  rw [ho] at ho'
  have hlen : boxName'.strlen < sizeofBoxName := by
    have hlen := congrArg CString.strlen ho'
    simp only [newBoxName, CString.strlen, List.length_cons] at hlen hn ⊢
    omega
  rw [ho']
  exact (hwhole hlen).found

theorem NamesKept.namesWhole (h : NamesKept x.1.boxList x.2.origin ps) : NamesWhole x := by
  refine ⟨ps, h.holds, fun p hp => ?_⟩
  obtain ⟨boxName, ho⟩ := h.request p hp
  exact ⟨boxName, ho, h.namedWhole hp ho⟩

end Mbroker.Sessions
