import Mbroker.Sessions.Append
import Mbroker.Sessions.Boxes
import Mbroker.Sessions.Stores

/-!
# What is in a box, and what its size says

Requests handled one at a time, and no box is removed. Beside the broker stands an account of which name each box was
created with, and of the messages that were stored under each name.
-/

namespace Mbroker.Sessions

open Mbroker.Lib Mbroker.Fs Mbroker.Protocol

variable {b b' b₁ : Broker} {e : Event} {x x' : Broker × Account} {L L' : Layout} {a a' : FileSystem} {w : Nat}
  {phase : Phase} {ps ps' : List Nat}

/-! ## What is stated -/

structure Account where
  origin : Nat → CString
  texts : CString → List CString

/-- Nothing was created. -/
def Account.empty : Account := ⟨fun _ => newBoxName (ascii ""), fun _ => []⟩

def record (r : Account) (b : Broker) (e : Event) (b' : Broker) : Account :=
  match e with
  | .insert w addr _ => match b.phase w with
    | .created name => { r with origin := Function.update r.origin addr name }
    | _ => r
  | _ => match stored b e b' with
    | some (s, message) =>
      { r with texts := Function.update r.texts s.newBoxName (r.texts s.newBoxName ++ [message]) }
    | none => r

/-- A step of the broker, with the account beside it. -/
def AccountStep (x : Broker × Account) (e : Event) (x' : Broker × Account) : Prop :=
  withRecord step record x e = some x'

/-- The texts, each with its NUL. -/
def textBytes (texts : List CString) : List UInt8 := texts.flatMap fun m => m.chars ++ [0]

def textSize (texts : List CString) : Nat := (texts.map CString.strlen).sum

/-- The file of every box holds the messages stored in it, whole and in order, and `box_size` is their length. -/
def Accounted (x : Broker × Account) : Prop :=
  ∃ ps, x.1.boxList.Holds ps ∧ ∀ p ∈ ps, ∃ box, x.1.boxList.heap p = some box ∧
    x.1.fs.content (x.2.origin p) = some (textBytes (x.2.texts (x.2.origin p))) ∧
    box.boxSize = textSize (x.2.texts (x.2.origin p))

/-- A request is taken only when no other one is being handled, a creation is given a handle exactly for a file that
it makes, and nothing is removed. -/
def InTurn (x : Broker × Account) : Event → Prop
  | .take _ _ => x.1.AllIdle
  | .tfsOpen w => CreatesBox x.1 (.tfsOpen w)
  | .tfsUnlink _ => False
  | _ => True

/-- A message of which something is stored fits the file whole, and the session's box is the one that was created
with its name. -/
def FitsBox (x : Broker × Account) : Event → Prop
  | .publish w => match x.1.phase w with
    | .pubWriting s message => x.1.fs.HasRoom s.fileHandle →
        (∀ c ∈ x.1.fs.content s.newBoxName, c.length + (message.strlen + 1) ≤ x.1.fs.blockSize) ∧
          (x.2.origin s.boxData = s.newBoxName ∨ message.strlen = 0)
    | _ => True
  | _ => True

instance (x : Broker × Account) : DecidablePred (InTurn x) := by
  intro e
  induction e using Event.casesOn with
  | take w d => exact inferInstanceAs (Decidable x.1.AllIdle)
  | tfsOpen w => exact inferInstanceAs (Decidable (CreatesBox x.1 (.tfsOpen w)))
  | tfsUnlink w => exact isFalse id
  | _ => exact isTrue trivial

instance (x : Broker × Account) : DecidablePred (FitsBox x) := by
  intro e
  induction e using Event.casesOn with
  | publish w =>
      dsimp only [FitsBox]
      induction x.1.phase w using Phase.casesOn with
      | pubWriting s message => infer_instance
      | _ => exact isTrue trivial
  | _ => exact isTrue trivial

/-! ## Texts -/

@[simp] theorem textSize_nil : textSize [] = 0 := rfl

theorem textBytes_append (texts : List CString) (m : CString) :
    textBytes (texts ++ [m]) = textBytes texts ++ (m.chars ++ [0]) := by
  simp [textBytes]

theorem textSize_append (texts : List CString) (m : CString) : textSize (texts ++ [m]) = textSize texts + m.strlen := by
  simp [textSize]

theorem textSize_le (texts : List CString) : textSize texts ≤ (textBytes texts).length := by
  induction texts with
  | nil => exact Nat.le_refl _
  | cons m texts ih =>
      have hsize : textSize (m :: texts) = m.strlen + textSize texts := by simp [textSize]
      have hbytes : (textBytes (m :: texts)).length = m.strlen + 1 + (textBytes texts).length := by
        simp [textBytes, CString.strlen]
        omega
      omega

/-! ## The invariant -/

/-- Only the worker `w` may be handling a request. The boxes at `ps` are those of the files, but for a creation that
is pending; what was stored under a name is in its file, and counted for its box. -/
structure InOrder (x : Broker × Account) (w : Nat) (L : Layout) (a : FileSystem) (ps : List Nat) : Prop where
  others : ∀ v, v ≠ w → x.1.phase v = .idle
  atEnd : AtEnd x.1 (fun _ => false) L a
  fits : TextsFit x.1
  holds : x.1.boxList.Holds ps
  listed : ∀ v p, (x.1.phase v).boxData = some p → p ∈ ps
  agree : SameNames ((x.1.phase w).pending.apply (ps.map x.2.origin)) (· ∈ a.names)
  kept : ∀ name, x.1.phase w ≠ .removed name
  fresh : ∀ name, x.1.phase w = .created name → x.2.texts name = []
  content : ∀ p, validPathname p = true → p.tail.chars ∈ a.names → a.content p.tail.chars = textBytes (x.2.texts p)
  unused : ∀ p, validPathname p = true → p.tail.chars ∉ a.names → x.2.texts p = []
  sizes : ∀ p ∈ ps, ∃ box, x.1.boxList.heap p = some box ∧ box.boxSize = textSize (x.2.texts (x.2.origin p))

theorem Broker.Started.inOrder (h : b.Started) : InOrder (b, .empty) 0 Layout.empty FileSystem.empty [] where
  others := fun v _ => h.phase v
  atEnd := h.atEnd
  fits := h.textsFit
  holds := by
    rw [h.boxList]
    exact BoxList.empty_holds
  listed := fun v p hv => by
    rw [h.phase v] at hv
    cases hv
  agree := by
    rw [h.phase 0]
    exact ⟨List.nodup_nil, by simp [Pending.apply, Phase.pending, FileSystem.empty]⟩
  kept := fun name hw => by
    rw [h.phase 0] at hw
    cases hw
  fresh := fun _ _ => rfl
  content := fun p _ hp => by simp [FileSystem.empty] at hp
  unused := fun _ _ _ => rfl
  sizes := nofun

theorem valid_of_slash {p : CString} {m : List UInt8} (hm : m ≠ []) (h : p.chars = slash :: m) :
    validPathname p = true ∧ p.tail.chars = m := by
  have hpos : 0 < m.length := List.length_pos_iff.mpr hm
  refine ⟨?_, by simp [CString.tail, h]⟩
  simp [validPathname, CString.strlen, CString.mem, Mem.ofList, h, hpos]

theorem Phase.ne_removed {phase : Phase} (h : phase.pending = .nothing) (n : CString) : phase ≠ .removed n := by
  rintro rfl
  cases h

theorem Phase.ne_created {phase : Phase} (h : phase.pending = .nothing) (n : CString) : phase ≠ .created n := by
  rintro rfl
  cases h

namespace InOrder

variable {v : Nat} {old : Phase} {r : Account}

theorem othersIdle (h : InOrder x w L a ps) : OthersIdle x.1 w := h.others

theorem busy (h : InOrder x w L a ps) (hv : x.1.phase v = old) (hold : old.isIdle = false) :
    v = w ∧ v < x.1.numThreads :=
  ⟨h.othersIdle.eq_of_busy hv hold, h.atEnd.files.outsideIdle.lt hv hold⟩

theorem origin_mem (h : InOrder x w L a ps) {p : Nat} (hp : p ∈ ps) :
    validPathname (x.2.origin p) = true ∧ (x.2.origin p).tail.chars ∈ a.names := by
  have hmem : x.2.origin p ∈ (x.1.phase w).pending.apply (ps.map x.2.origin) := by
    have hp := List.mem_map_of_mem (f := x.2.origin) hp
    have hkept := h.kept
    cases hw : (x.1.phase w).pending with
    | nothing => exact hp
    | insert n => exact List.mem_cons_of_mem _ hp
    | delete n =>
        cases hphase : x.1.phase w with
        | removed name => exact absurd hphase (hkept name)
        | _ =>
            rw [hphase] at hw
            cases hw
  obtain ⟨m, hm, hchars⟩ := (h.agree.2 _).mp hmem
  have hne : m ≠ [] := List.length_pos_iff.mp (h.atEnd.files.view.refines.wellFormed.name m hm).2.1
  obtain ⟨hvalid, htail⟩ := valid_of_slash hne hchars
  exact ⟨hvalid, by rw [htail]; exact hm⟩

theorem accounted (h : InOrder x w L a ps) : Accounted x := by
  refine ⟨ps, h.holds, fun p hp => ?_⟩
  obtain ⟨box, hbox, hsize⟩ := h.sizes p hp
  obtain ⟨hvalid, hmem⟩ := h.origin_mem hp
  refine ⟨box, hbox, ?_, hsize⟩
  rw [h.atEnd.files.view.content_eq, if_pos ⟨hvalid, hmem⟩, h.content _ hvalid hmem]

/-- When no request is being handled, any worker may take the next one. -/
theorem switch (h : InOrder x w L a ps) (hidle : x.1.AllIdle) (v : Nat) : InOrder x v L a ps := by
  have hall := hidle.phase h.atEnd.files.outsideIdle
  have hagree := h.agree
  rw [hall w] at hagree
  refine { h with others := fun u _ => hall u, agree := ?_, kept := fun n hn => ?_, fresh := fun n hn => ?_ }
  · rw [hall v]
    exact hagree
  · rw [hall v] at hn
    cases hn
  · rw [hall v] at hn
    cases hn

theorem next (h : InOrder x w L a ps) (hb : b₁.phase = x.1.phase)
    (hend : AtEnd (b₁.setPhase w phase) (fun _ => false) L' a')
    (hfits : TextsFit (b₁.setPhase w phase)) (hholds : b₁.boxList.Holds ps')
    (hlisted : ∀ v p, ((b₁.setPhase w phase).phase v).boxData = some p → p ∈ ps')
    (hagree : SameNames (phase.pending.apply (ps'.map r.origin)) (· ∈ a'.names)) (hkept : ∀ n, phase ≠ .removed n)
    (hfresh : ∀ n, phase = .created n → r.texts n = [])
    (hcontent : ∀ p, validPathname p = true → p.tail.chars ∈ a'.names → a'.content p.tail.chars = textBytes (r.texts p))
    (hunused : ∀ p, validPathname p = true → p.tail.chars ∉ a'.names → r.texts p = [])
    (hsizes : ∀ p ∈ ps', ∃ box, b₁.boxList.heap p = some box ∧ box.boxSize = textSize (r.texts (r.origin p))) :
    InOrder (b₁.setPhase w phase, r) w L' a' ps' where
  others := h.othersIdle.setPhase hb
  atEnd := hend
  fits := hfits
  holds := hholds
  listed := hlisted
  agree := by
    simp only [Broker.setPhase_self]
    exact hagree
  kept := fun n hn => by
    simp only [Broker.setPhase_self] at hn
    exact hkept n hn
  fresh := fun n hn => by
    simp only [Broker.setPhase_self] at hn
    exact hfresh n hn
  content := hcontent
  unused := hunused
  sizes := hsizes

theorem sizes_keep (h : InOrder x w L a ps) (hholds : b₁.boxList.Holds ps)
    (hk : BoxList.Keeps BoxData.boxSize x.1.boxList b₁.boxList) :
    ∀ p ∈ ps, ∃ box, b₁.boxList.heap p = some box ∧ box.boxSize = textSize (x.2.texts (x.2.origin p)) := by
  intro p hp
  obtain ⟨box', hbox'⟩ := hholds.seg.allocated hp
  obtain ⟨box, hbox, hsize⟩ := hk p box' hbox'
  obtain ⟨box₀, hbox₀, hsize₀⟩ := h.sizes p hp
  rw [hbox] at hbox₀
  cases hbox₀
  exact ⟨box', hbox', hsize.trans hsize₀⟩

theorem plain (h : InOrder x w L a ps) (hv : x.1.phase v = old) (hold : old.isIdle = false) (hb : b₁.phase = x.1.phase)
    (hend : AtEnd (b₁.setPhase v phase) (fun _ => false) L' a') (hfits : TextsFit (b₁.setPhase v phase))
    (hlisted : ∀ v' p, ((b₁.setPhase v phase).phase v').boxData = some p → p ∈ ps)
    (hsame : a'.names = a.names ∧ a'.content = a.content) (hholds : b₁.boxList.Holds ps)
    (hk : BoxList.Keeps BoxData.boxSize x.1.boxList b₁.boxList) (hp : old.pending = .nothing)
    (hp' : phase.pending = .nothing) : ∃ w L a ps, InOrder (b₁.setPhase v phase, x.2) w L a ps := by
  obtain ⟨rfl, hlt⟩ := h.busy hv hold
  obtain ⟨hnames, hcontent⟩ := hsame
  have hagree := h.agree
  rw [hv, hp] at hagree
  refine ⟨v, L', a', ps, h.next hb hend hfits hholds hlisted ?_ (Phase.ne_removed hp')
    (fun n hn => absurd hn (Phase.ne_created hp' n)) ?_ ?_ (h.sizes_keep hholds hk)⟩
  · rw [hp', hnames]
    exact hagree
  · rw [hnames, hcontent]
    exact h.content
  · rw [hnames]
    exact h.unused

/-- As long as one request is handled at a time, no session is outdated. -/
theorem outdate_eq (h : InOrder x w L a ps) (ho : Outcome x.1 e b') :
    outdate (fun _ => false) x.1 e b' = fun _ => false := by
  cases ho with
  | openPub hw | openSub hw | openCreate hw => exact Function.update_eq_self _ _
  | @publish v s message box n fs hv hbox hlock he hn =>
      obtain ⟨rfl, -⟩ := h.busy hv rfl
      funext u
      simp only [outdate, stored_publish hv, Bool.false_or]
      by_cases hu : u = v
      · simp [hu]
      · simp [h.others u hu, Phase.opened]
  | @publishFull v s message box n fs hv hbox hlock he hn =>
      simp only [outdate, stored_publishFull hv]
  | _ => rfl

/-! ## Steps -/

/-- A creation adds a file exactly if it goes on to add a box. -/
theorem openCreate (h : InOrder x w L a ps) {name : CString} {res : Int × State} (hv : x.1.phase v = .create name)
    (he : Fs.tfsOpen x.1.fs (some name) tfsOCreat = .ok res) (hg : CreatesBox x.1 (.tfsOpen v))
    (hphase : phase = if res.1 = -1 then .responding createError else .created name)
    (hend : AtEnd ({ x.1 with fs := res.2 }.setPhase v phase) (fun _ => false) L' a')
    (heffect : FileEffect x.1 (.tfsOpen v) ({ x.1 with fs := res.2 }.setPhase v phase) a a')
    (hfits : TextsFit ({ x.1 with fs := res.2 }.setPhase v phase))
    (hlisted : ∀ v' p, (({ x.1 with fs := res.2 }.setPhase v phase).phase v').boxData = some p → p ∈ ps) :
    ∃ w L a ps, InOrder ({ x.1 with fs := res.2 }.setPhase v phase, x.2) w L a ps := by
  obtain ⟨rfl, hlt⟩ := h.busy hv rfl
  have hagree := h.agree
  rw [hv] at hagree
  obtain ⟨L'', hinv, hmade⟩ := hg.tfsOpen hv h.atEnd.files.view.inv he
  -- the names after the call, from the account of the files and from what the call did
  have hnames : a'.names = L''.names := by
    rw [hend.files.view.names]
    ext n
    rw [← hend.files.view.inv.root.mem_liveNames, ← hinv.root.mem_liveNames]
    rfl
  rw [← h.atEnd.files.view.names] at hmade
  cases heffect with
  | same _ hsame hcontent =>
      obtain ⟨hr, -⟩ | ⟨-, -, hn, hnew⟩ := hmade
      swap
      · rw [← hnames, hsame] at hnew
        exact absurd (hnew ▸ Finset.mem_insert_self _ _) hn
      rw [if_pos hr] at hphase
      subst hphase
      refine ⟨v, L', a', ps, h.next rfl hend hfits h.holds hlisted ?_ (Phase.ne_removed rfl)
        (fun n hn => absurd hn (Phase.ne_created rfl n)) ?_ ?_ h.sizes⟩
      · rw [hsame]
        exact hagree
      · rw [hsame, hcontent]
        exact h.content
      · rw [hsame]
        exact h.unused
  | @created _ name' hev hw hnew hinsert hcontent =>
      cases hev
      rw [hv] at hw
      cases hw
      obtain ⟨-, hold⟩ | ⟨hr, hp, -, -⟩ := hmade
      · rw [← hnames, hinsert] at hold
        exact absurd (hold ▸ Finset.mem_insert_self _ _) hnew
      rw [if_neg hr] at hphase
      subst hphase
      have hempty := h.unused name hp hnew
      refine ⟨v, L', a', ps, h.next rfl hend hfits h.holds hlisted ?_ nofun (fun n hn => ?_) (fun p hvalid hmem => ?_)
        (fun p hvalid hmem => ?_) h.sizes⟩
      · rw [hinsert]
        exact SameNames.created hagree hp hnew
      · cases hn
        exact hempty
      · rw [hcontent]
        rw [hinsert, Finset.mem_insert] at hmem
        by_cases hname : p.tail.chars = name.tail.chars
        · obtain rfl : p = name := eq_of_slash hp (by rw [← hname]; exact slash_tail hvalid)
          rw [Function.update_self, hempty]
          rfl
        · rw [Function.update_of_ne hname]
          exact h.content p hvalid (hmem.resolve_left hname)
      · rw [hinsert, Finset.mem_insert, not_or] at hmem
        exact h.unused p hvalid hmem.2
  | removed hev => cases hev
  | grown hev => cases hev

/-- A box goes into the list when its file is there and holds nothing. -/
theorem insert (h : InOrder x w L a ps) {name : CString} {addr : Nat} {contents : Mem}
    (hv : x.1.phase v = .created name)
    (hfree : x.1.boxList.heap addr = none) {list : BoxList}
    (hlist : list = insertAtBeginning x.1.boxList addr contents name 0 0 0)
    (hend : AtEnd ({ x.1 with boxList := list }.setPhase v (.responding createOk)) (fun _ => false) L' a')
    (hfits : TextsFit ({ x.1 with boxList := list }.setPhase v (.responding createOk)))
    (hsame : a'.names = a.names ∧ a'.content = a.content) :
    ∃ w L a ps, InOrder ({ x.1 with boxList := list }.setPhase v (.responding createOk),
      { x.2 with origin := Function.update x.2.origin addr name }) w L a ps := by
  obtain ⟨rfl, hlt⟩ := h.busy hv rfl
  obtain ⟨hnames, hcontent⟩ := hsame
  have hagree := h.agree
  rw [hv] at hagree
  have hne : ∀ p ∈ ps, p ≠ addr := by
    rintro p hp rfl
    obtain ⟨box, hbox⟩ := h.holds.seg.allocated hp
    rw [hfree] at hbox
    cases hbox
  have horigin : (addr :: ps).map (Function.update x.2.origin addr name) = name :: ps.map x.2.origin := by
    rw [List.map_cons, Function.update_self]
    exact congrArg _ (List.map_congr_left fun p hp => Function.update_of_ne (hne p hp) _ _)
  have hholds : list.Holds (addr :: ps) := by
    rw [hlist]
    exact h.holds.insert hfree
  refine ⟨v, L', a', addr :: ps, h.next rfl hend hfits hholds (fun u p hp => ?_) ?_
    (Phase.ne_removed rfl) (fun n hn => absurd hn (Phase.ne_created rfl n)) ?_ ?_ (fun p hp => ?_)⟩
  · obtain ⟨-, hold⟩ := setPhase_none (f := Phase.boxData) (b := x.1) rfl rfl hp
    exact List.mem_cons_of_mem _ (h.listed u p hold)
  · rw [horigin, hnames]
    exact hagree
  · rw [hnames, hcontent]
    exact h.content
  · rw [hnames]
    exact h.unused
  · subst hlist
    rcases List.mem_cons.mp hp with rfl | hp
    · refine ⟨_, Function.update_self _ _ _, ?_⟩
      simp only [Function.update_self, h.fresh name hv, textSize_nil]
    · simp only [Function.update_of_ne (hne p hp), insertAtBeginning]
      exact h.sizes p hp

theorem session_file (h : InOrder x w L a ps) {s : Session} {message : CString}
    (hv : x.1.phase v = .pubWriting s message)
    (hroom : x.1.fs.HasRoom s.fileHandle) : validPathname s.newBoxName = true ∧ s.newBoxName.tail.chars ∈ a.names ∧
      x.1.fs.content s.newBoxName = some (a.content s.newBoxName.tail.chars) := by
  obtain ⟨i, hi, -⟩ := hroom
  obtain ⟨hfh, -⟩ := getOpenFileEntry_eq_some.mp hi
  obtain ⟨hvalid, hmem, -⟩ := h.atEnd.files.handle (p := s.newBoxName) (i := i) (by rw [hv, ← hfh]; rfl)
  exact ⟨hvalid, hmem, by rw [h.atEnd.files.view.content_eq, if_pos ⟨hvalid, hmem⟩]⟩

theorem size_le (h : InOrder x w L a ps) {p : Nat} {box : BoxData} (hp : p ∈ ps)
    (hbox : x.1.boxList.heap p = some box) :
    box.boxSize = textSize (x.2.texts (x.2.origin p)) ∧ box.boxSize ≤ 1024 := by
  obtain ⟨box', hbox', hsize⟩ := h.sizes p hp
  rw [hbox] at hbox'
  cases hbox'
  obtain ⟨hvalid, hmem⟩ := h.origin_mem hp
  have hbytes := textSize_le (x.2.texts (x.2.origin p))
  have hblock := h.atEnd.files.view.content_le hmem
  rw [h.content _ hvalid hmem] at hblock
  have hbs : x.1.fs.blockSize = 1024 := by
    rw [State.blockSize, h.atEnd.files.params]
    rfl
  exact ⟨hsize, by omega⟩

/-- The account after a message was stored. -/
def stores (r : Account) (s : Session) (message : CString) : Account :=
  { r with texts := Function.update r.texts s.newBoxName (r.texts s.newBoxName ++ [message]) }

/-- The size that is due to a name after a message was stored. -/
theorem textSize_stores (r : Account) (s : Session) (message : CString) (n : CString) :
    textSize ((stores r s message).texts n) =
      textSize (r.texts n) + if n = s.newBoxName then message.strlen else 0 := by
  simp only [stores]
  by_cases hn : n = s.newBoxName
  · subst hn
    rw [Function.update_self, textSize_append, if_pos rfl]
  · rw [Function.update_of_ne hn, if_neg hn, Nat.add_zero]

theorem origin_inj (h : InOrder x w L a ps) {s : Session} {message : CString} (hw : x.1.phase w = .pubWriting s message)
    {p q : Nat} (hp : p ∈ ps) (hq : q ∈ ps) (he : x.2.origin p = x.2.origin q) : p = q := by
  have hnodup := h.agree.1
  rw [hw] at hnodup
  exact List.inj_on_of_nodup_map hnodup hp hq he

section Publish

variable {s : Session} {message : CString} {box : BoxData} {n : Int} {fs : State}

/-- A message that fits is stored whole, and counted for the box of its file. -/
theorem publish (h : InOrder x w L a ps) (hv : x.1.phase v = .pubWriting s message)
    (hbox : x.1.boxList.heap s.boxData = some box)
    (he : Fs.tfsWrite x.1.fs s.fileHandle message.mem (message.strlen + 1) = .ok (n, fs)) (hn : 0 < n)
    (hg : FitsBox x (.publish v)) (hb : b₁ = ({ x.1 with fs := fs } : Broker).setBox s.boxData
      { box with boxSize := toSize (box.boxSize + message.strlen) })
    (hend : AtEnd (b₁.setPhase v (.pubReading s)) (fun _ => false) L' a')
    (heffect : FileEffect x.1 (.publish v) (b₁.setPhase v (.pubReading s)) a a')
    (hfits : TextsFit (b₁.setPhase v (.pubReading s)))
    (hlisted : ∀ v' p, ((b₁.setPhase v (.pubReading s)).phase v').boxData = some p → p ∈ ps) :
    ∃ w L a ps, InOrder (b₁.setPhase v (.pubReading s), stores x.2 s message) w L a ps := by
  obtain ⟨rfl, hlt⟩ := h.busy hv rfl
  have hroom := (h.atEnd.files.view.inv.tfsWrite_pos_iff (Nat.succ_pos _) he).mp hn
  obtain ⟨hvalid, hmem, hfile⟩ := h.session_file hv hroom
  have hagree := h.agree
  rw [hv] at hagree
  simp only [FitsBox, hv] at hg
  obtain ⟨hwhole, hplace⟩ := hg hroom
  have hwhole := hwhole _ hfile
  have hphase : b₁.phase = x.1.phase := by
    rw [hb]
    rfl
  have hlist : b₁.boxList =
      x.1.boxList.setBox s.boxData { box with boxSize := toSize (box.boxSize + message.strlen) } := by
    rw [hb]
    rfl
  have hholds : b₁.boxList.Holds ps := by
    rw [hlist]
    exact h.holds.setBox hbox rfl
  have hmine : s.boxData ∈ ps := h.listed v s.boxData (by rw [hv]; rfl)
  have htext : message.strlen ≤ 1024 := h.fits v message (by rw [hv]; rfl)
  obtain ⟨hsize, hmax⟩ := h.size_le hmine hbox
  have hsum : toSize (box.boxSize + message.strlen) = box.boxSize + message.strlen := toSize_of_lt (by omega)
  obtain ⟨hnames, hcontent⟩ := heffect.grown_of_stored hv (by simp [stored_publish hv])
  rw [Nat.min_eq_left (by omega), CString.bytes_mem] at hcontent
  refine ⟨v, L', a', ps, h.next hphase hend hfits hholds hlisted ?_ (Phase.ne_removed rfl)
    (fun n hn => absurd hn (Phase.ne_created rfl n)) (fun p hp hpm => ?_) (fun p hp hpm => ?_) (fun p hp => ?_)⟩
  · rw [hnames]
    exact hagree
  · rw [hcontent]
    simp only [stores]
    by_cases hname : p = s.newBoxName
    · rw [hname, Function.update_self, Function.update_self, textBytes_append, h.content _ hvalid hmem]
    · have htail : p.tail.chars ≠ s.newBoxName.tail.chars := fun he =>
        hname (eq_of_slash hvalid (by rw [← he]; exact slash_tail hp))
      rw [Function.update_of_ne htail, Function.update_of_ne hname]
      exact h.content p hp (by rw [← hnames]; exact hpm)
  · simp only [stores]
    have hname : p ≠ s.newBoxName := by
      rintro rfl
      exact hpm (by rw [hnames]; exact hmem)
    rw [Function.update_of_ne hname]
    exact h.unused p hp (by rw [← hnames]; exact hpm)
  · rw [textSize_stores, hlist]
    change ∃ box, _ ∧ _ = textSize (x.2.texts (x.2.origin p)) + if x.2.origin p = s.newBoxName then _ else 0
    by_cases hpq : p = s.boxData
    · refine ⟨_, by rw [hpq]; exact BoxList.setBox_heap_same, ?_⟩
      change toSize (box.boxSize + message.strlen) = _
      rw [hsum, hsize, hpq]
      split
      · rfl
      · rename_i hne
        rw [hplace.resolve_left hne]
    · obtain ⟨pbox, hpbox, hpsize⟩ := h.sizes p hp
      refine ⟨pbox, (BoxList.setBox_heap_ne hpq).trans hpbox, ?_⟩
      rw [hpsize]
      split
      · rename_i hname
        -- the box of the name is another one, so the text is empty
        have hz : message.strlen = 0 := hplace.resolve_left fun hs =>
          hpq (h.origin_inj hv hp hmine (hname.trans hs.symm))
        omega
      · rfl

/-- What the file and the box say after a message was stored shows that it fitted. -/
theorem fitsBox_of_accounted (h : InOrder x w L a ps) (hv : x.1.phase v = .pubWriting s message)
    (hbox : x.1.boxList.heap s.boxData = some box) (hb : b₁ = ({ x.1 with fs := fs } : Broker).setBox s.boxData
      { box with boxSize := toSize (box.boxSize + message.strlen) })
    (hend : AtEnd (b₁.setPhase v (.pubReading s)) (fun _ => false) L' a')
    (heffect : FileEffect x.1 (.publish v) (b₁.setPhase v (.pubReading s)) a a')
    (hacc : Accounted (b₁.setPhase v (.pubReading s), stores x.2 s message)) : FitsBox x (.publish v) := by
  obtain ⟨rfl, hlt⟩ := h.busy hv rfl
  simp only [FitsBox, hv]
  intro hroom
  obtain ⟨hvalid, hmem, hfile⟩ := h.session_file hv hroom
  have hlist : b₁.boxList =
      x.1.boxList.setBox s.boxData { box with boxSize := toSize (box.boxSize + message.strlen) } := by
    rw [hb]
    rfl
  have hholds : b₁.boxList.Holds ps := by
    rw [hlist]
    exact h.holds.setBox hbox rfl
  obtain ⟨ps', hps', hboxes⟩ := hacc
  obtain rfl : ps' = ps := BoxList.Holds.unique hps' hholds
  have hagree := h.agree
  rw [hv] at hagree
  -- the box that was created with the name
  obtain ⟨q, hq, hqname⟩ := List.mem_map.mp ((hagree.2 s.newBoxName).mpr ⟨_, hmem, slash_tail hvalid⟩)
  obtain ⟨qbox, hqbox, hqfile, hqsize⟩ := hboxes q hq
  have hqbox : b₁.boxList.heap q = some qbox := hqbox
  have hqfile : (b₁.setPhase v (.pubReading s)).fs.content (x.2.origin q) =
      some (textBytes ((stores x.2 s message).texts (x.2.origin q))) := hqfile
  have hqsize : qbox.boxSize = textSize ((stores x.2 s message).texts (x.2.origin q)) := hqsize
  refine ⟨fun c hc => ?_, ?_⟩
  · rw [hfile] at hc
    cases hc
    obtain ⟨hnames, hcontent⟩ := heffect.grown_of_stored hv (by simp [stored_publish hv])
    rw [hqname, hend.files.view.content_eq, hnames, if_pos ⟨hvalid, hmem⟩, hcontent, Function.update_self] at hqfile
    simp only [stores, Function.update_self, textBytes_append, h.content _ hvalid hmem, Option.some.injEq] at hqfile
    have hlen := congrArg List.length hqfile
    simp only [List.length_append, Mem.length_bytes, List.length_cons, List.length_nil] at hlen
    have hstr : message.strlen = message.chars.length := rfl
    rw [h.content _ hvalid hmem]
    omega
  · by_cases hqs : q = s.boxData
    · rw [← hqs]
      exact Or.inl hqname
    · right
      rw [hlist, BoxList.setBox_heap_ne hqs] at hqbox
      obtain ⟨box₀, hbox₀, hsize₀⟩ := h.sizes q hq
      rw [hqbox] at hbox₀
      cases hbox₀
      rw [textSize_stores, hqname, if_pos rfl, hsize₀, hqname] at hqsize
      omega

end Publish

/-- A step keeps the account, except that a message has to fit the box it is stored in. -/
theorem step (h : InOrder x w L a ps) (hturn : InTurn x e) (ho : Outcome x.1 e b') :
    (FitsBox x e → ∃ w L a ps, InOrder (b', record x.2 x.1 e b') w L a ps) ∧
      (Accounted (b', record x.2 x.1 e b') → FitsBox x e) := by
  have hdate : InDate (x.1, fun _ => false) e := by
    cases e with
    | tfsUnlink w => exact hturn.elim
    | publish w => exact ⟨trivial, rfl⟩
    | _ => exact ⟨trivial, trivial⟩
  obtain ⟨L', a', hend, heffect⟩ := h.atEnd.step h.fits hdate ho
  rw [h.outdate_eq ho] at hend
  have hfits := ho.textsFit h.fits
  have hlisted : ∀ v p, (b'.phase v).boxData = some p → p ∈ ps := by
    intro v p hp
    obtain hold | hnew := ho.boxData h.holds v p hp
    · exact h.listed v p hold
    · exact hnew
  cases ho with
  | @take v d hv hlt hd =>
      refine ⟨fun _ => ?_, fun _ => trivial⟩
      have h' := h.switch hturn v
      obtain ⟨hnames, hcontent⟩ := heffect.same_of_changesNames rfl rfl
      have hagree := h'.agree
      rw [hv] at hagree
      refine ⟨v, L', a', ps, h'.next rfl hend hfits h.holds hlisted ?_
        (Phase.ne_removed (Phase.start_pending d))
        (fun n hn => absurd hn (Phase.ne_created (Phase.start_pending d) n)) ?_ ?_ h.sizes⟩
      · rw [Phase.start_pending, hnames]
        exact hagree
      · rw [hnames, hcontent]
        exact h.content
      · rw [hnames]
        exact h.unused
  | openCreate hv he => exact ⟨fun _ => h.openCreate hv he hturn rfl hend heffect hfits hlisted, fun _ => trivial⟩
  | @insert v name addr contents hv hfree hlock =>
      refine ⟨fun _ => ?_, fun _ => trivial⟩
      simp only [record, hv]
      exact h.insert hv hfree rfl hend hfits (heffect.same_of_changesNames rfl rfl)
  | @publish v s message box n fs hv hbox hlock he hn =>
      obtain ⟨b₁, hb⟩ : ∃ b₁, b₁ = ({ x.1 with fs := fs } : Broker).setBox s.boxData
        { box with boxSize := toSize (box.boxSize + message.strlen) } := ⟨_, rfl⟩
      rw [← hb] at hend heffect hfits hlisted ⊢
      have hrecord : record x.2 x.1 (.publish v) (b₁.setPhase v (.pubReading s)) = stores x.2 s message := by
        simp only [record, stored_publish hv]
        rfl
      rw [hrecord]
      exact ⟨fun hg => h.publish hv hbox he hn hg hb hend heffect hfits hlisted,
        h.fitsBox_of_accounted hv hbox hb hend heffect⟩
  | @publishFull v s message box n fs hv hbox hlock he hn =>
      obtain ⟨b₁, hb⟩ : ∃ b₁, b₁ = ({ x.1 with fs := fs } : Broker).setBox s.boxData
        { box with boxCondvarLock := true } := ⟨_, rfl⟩
      rw [← hb] at hend heffect hfits hlisted ⊢
      have hlist : b₁.boxList = x.1.boxList.setBox s.boxData { box with boxCondvarLock := true } := by
        rw [hb]
        rfl
      have hstored : stored x.1 (.publish v) (b₁.setPhase v (.pubEnding s)) = none := stored_publishFull hv
      have hrecord : record x.2 x.1 (.publish v) (b₁.setPhase v (.pubEnding s)) = x.2 := by
        simp only [record, hstored]
      rw [hrecord]
      refine ⟨fun _ => ?_, fun _ => ?_⟩
      · refine h.plain hv rfl (by rw [hb]; rfl) hend hfits hlisted (heffect.same_of_changesNames hstored rfl) ?_ ?_
          rfl rfl
        · rw [hlist]
          exact h.holds.setBox hbox rfl
        · rw [hlist]
          exact BoxList.Keeps.setBox hbox rfl
      · -- nothing of the message was stored, so there was no room for it
        simp only [FitsBox, hv]
        intro hroom
        have hpos := (h.atEnd.files.view.inv.tfsWrite_pos_iff (Nat.succ_pos _) he).mpr hroom
        omega
  | tfsUnlink => exact hturn.elim
  | deleteBox hv =>
      obtain ⟨rfl, -⟩ := h.busy hv rfl
      exact absurd hv (h.kept _)
  | openPub hv | openSub hv =>
      have hsame := heffect.same_of_open (by simp [hv])
      exact ⟨fun _ => h.plain hv rfl rfl hend hfits hlisted hsame h.holds .refl rfl rfl, fun _ => trivial⟩
  | setPublishers hv hbox | countSubscriber hv hbox | sample hv hbox | resetPublishers hv hbox
  | uncountSubscriber hv hbox =>
      exact ⟨fun _ => h.plain hv rfl rfl hend hfits hlisted (heffect.same_of_changesNames rfl rfl)
        (h.holds.setBox hbox rfl) (.setBox hbox rfl) rfl rfl, fun _ => trivial⟩
  | lockList hv | unlockList hv =>
      exact ⟨fun _ => h.plain hv rfl rfl hend hfits hlisted (heffect.same_of_changesNames rfl rfl)
        ⟨h.holds.seg, h.holds.allocated⟩ .refl rfl rfl, fun _ => trivial⟩
  | _ =>
      exact ⟨fun _ => h.plain (by assumption) (by rfl) (by rfl) hend hfits hlisted
        (heffect.same_of_changesNames (by rfl) (by rfl)) h.holds .refl (by rfl) (by rfl), fun _ => trivial⟩

end InOrder

theorem AccountStep.outcome (h : AccountStep x e x') : ∃ b', Outcome x.1 e b' ∧ x' = (b', record x.2 x.1 e b') := by
  obtain ⟨hs, hrecord⟩ := withRecord_eq_some.mp h
  exact ⟨x'.1, Step.outcome hs, Prod.ext rfl hrecord⟩

theorem AccountStep.of_withRecord (x : Broker × Account) (e : Event) (x' : Broker × Account)
    (h : withRecord step record x e = some x') : AccountStep x e x' := h

end Mbroker.Sessions
