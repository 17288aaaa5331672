import Mathlib.Data.List.Count
import Mbroker.Lib.Tables
import Mbroker.Sessions.Boxes
import Mbroker.Sessions.Stores

/-!
# The two stores while requests are handled

Creations and removals of any number of workers, in any order. A creation that has made its file owes the list a box,
and a removal that has removed its file owes it a removal. For each name, what the list holds and what it is owed is
what the directory holds, as long as `delete_box` finds its box.
-/

namespace Mbroker.Sessions

open Mbroker.Lib Mbroker.Fs Mbroker.Protocol

variable {b b' : Broker} {e : Event} {w v : Nat} {L L' : Layout} {ps ps' : List Nat} {ns ns' : List CString}
  {n name : CString}

/-! ## What is stated -/

def Pending.isNothing : Pending → Bool
  | .nothing => true
  | _ => false

/-- The box names of requests have at most 30 characters. -/
def ShortName : Event → Prop
  | .take _ (.request r) => r.boxName.strlen ≤ 30
  | _ => True

/-- `delete_box` finds the box. -/
def FindsBox (b : Broker) : Event → Prop
  | .deleteBox w => match b.phase w with
    | .removed name => findBox b.boxList b.boxList.head name ≠ some none
    | _ => True
  | _ => True

/-- No creation or removal stands between the directory and the list. -/
def Settled (b : Broker) : Prop := ∀ v < b.numThreads, (b.phase v).pending.isNothing = true

instance (b : Broker) : Decidable (Settled b) := by unfold Settled; infer_instance

instance : DecidablePred ShortName := by
  intro e
  induction e using Event.casesOn with
  | take w d =>
      induction d using Dispatch.Decoded.casesOn with
      | request r => exact inferInstanceAs (Decidable (r.boxName.strlen ≤ 30))
      | _ => exact isTrue trivial
  | _ => exact isTrue trivial

instance (b : Broker) : DecidablePred (FindsBox b) := by
  intro e
  induction e using Event.casesOn with
  | deleteBox w =>
      dsimp only [FindsBox]
      induction b.phase w using Phase.casesOn with
      | removed name => infer_instance
      | _ => exact isTrue trivial
  | _ => exact isTrue trivial

/-! ## The balance of a name -/

/-- What a creation or removal owes the list. -/
def Pending.owed (n : CString) : Pending → Int
  | .nothing => 0
  | .insert m => if m = n then 1 else 0
  | .delete m => if m = n then -1 else 0

/-- How often the directory holds the name. -/
def filed (D : Finset (List UInt8)) (n : CString) : Int := if ∃ m ∈ D, n.chars = slash :: m then 1 else 0

/-- What the list holds of the name and is owed, less what the directory holds. -/
def balance (b : Broker) (L : Layout) (ns : List CString) (n : CString) : Int :=
  ns.count n + ∑ v ∈ Finset.range b.numThreads, (b.phase v).pending.owed n - filed L.names n

/-- The list, the directory, and the names that requests are about. -/
structure Kept (b : Broker) (L : Layout) (ps : List Nat) (ns : List CString) : Prop where
  outside : OutsideIdle b
  inv : FsInv b.fs L
  holds : b.boxList.Holds ps
  names : b.boxList.Names ps ns
  short : ∀ v n, (b.phase v).boxName = some n → ∃ m : CString, n = newBoxName m ∧ m.strlen ≤ 30

theorem Broker.Started.kept (h : b.Started) : Kept b Layout.empty [] [] where
  outside := fun v _ => h.phase v
  inv := h.initialised.inv
  holds := by rw [h.boxList]; exact BoxList.empty_holds
  names := by rw [h.boxList]; exact BoxList.empty_names
  short := fun v n hn => by
    rw [h.phase v] at hn
    cases hn

theorem Broker.Started.balance (h : b.Started) : Sessions.balance b Layout.empty [] n = 0 := by
  have howed : ∀ v, (b.phase v).pending.owed n = 0 := by
    intro v
    rw [h.phase v]
    rfl
  simp [Sessions.balance, howed, filed, Layout.empty]

/-- The worker `w` goes on. -/
theorem balance_setPhase (b : Broker) (L : Layout) (ns : List CString) (b₁ : Broker) {old phase : Phase}
    (hb : b₁.phase = b.phase) (hthreads : b₁.numThreads = b.numThreads) (hw : b.phase w = old)
    (hlt : w < b.numThreads) :
    balance (b₁.setPhase w phase) L' ns' n = balance b L ns n + (ns'.count n - ns.count n) +
      (phase.pending.owed n - old.pending.owed n) - (filed L'.names n - filed L.names n) := by
  have hsum : ∑ v ∈ Finset.range b.numThreads, ((b₁.setPhase w phase).phase v).pending.owed n =
      ∑ v ∈ Finset.range b.numThreads, (b.phase v).pending.owed n - old.pending.owed n + phase.pending.owed n := by
    have hupdate := sum_comp_update (Finset.mem_range.mpr hlt) (fun p : Phase => p.pending.owed n) b.phase phase
    rw [hw] at hupdate
    rw [← hupdate, Broker.setPhase, hb]
  have hn : (b₁.setPhase w phase).numThreads = b.numThreads := hthreads
  rw [balance, balance, hn, hsum]
  omega

/-! ## What the directory holds -/

theorem filed_insert {D : Finset (List UInt8)} (hp : validPathname name = true) (hn : name.tail.chars ∉ D) :
    filed (insert name.tail.chars D) n = filed D n + if name = n then 1 else 0 := by
  by_cases he : name = n
  · subst he
    have hold : ¬ ∃ m ∈ D, name.chars = slash :: m := by
      rintro ⟨m, hm, hchars⟩
      rw [slash_tail hp] at hchars
      cases hchars
      exact hn hm
    rw [filed, filed, if_pos ⟨_, Finset.mem_insert_self _ _, slash_tail hp⟩, if_neg hold, if_pos rfl]
    rfl
  · have hiff : (∃ m ∈ insert name.tail.chars D, n.chars = slash :: m) ↔ ∃ m ∈ D, n.chars = slash :: m := by
      constructor
      · rintro ⟨m, hm, hchars⟩
        rcases Finset.mem_insert.mp hm with rfl | hm
        · exact absurd (eq_of_slash hp hchars).symm he
        · exact ⟨m, hm, hchars⟩
      · rintro ⟨m, hm, hchars⟩
        exact ⟨m, Finset.mem_insert_of_mem hm, hchars⟩
    simp only [filed, hiff, if_neg he, add_zero]

theorem filed_erase {D : Finset (List UInt8)} (hp : validPathname name = true) (hn : name.tail.chars ∈ D) :
    filed (D.erase name.tail.chars) n = filed D n - if name = n then 1 else 0 := by
  have hinsert := filed_insert (n := n) hp (Finset.notMem_erase name.tail.chars D)
  rw [Finset.insert_erase hn] at hinsert
  omega

/-! ## What `delete_box` finds -/

theorem Kept.findBox_iff (h : Kept b L ps ns) :
    findBox b.boxList b.boxList.head name ≠ some none ↔ name ∈ ns := by
  rw [h.holds.findBox, ne_eq, Option.some.injEq, h.names.find_eq_none, not_not]

/-! ## Steps -/

theorem findsBox_of_not_storing (hw : (b.phase e.worker).storing = false) : FindsBox b e := by
  unfold FindsBox
  split
  · split
    · rename_i hphase
      dsimp only [Event.worker] at hw
      rw [hphase] at hw
      cases hw
    · trivial
  · trivial

namespace Kept

theorem next (h : Kept b L ps ns) {b₁ : Broker} {phase : Phase} (hb : b₁.phase = b.phase)
    (hthreads : b₁.numThreads = b.numThreads) (hlt : w < b.numThreads) (hinv : FsInv b₁.fs L')
    (hholds : b₁.boxList.Holds ps') (hnames : b₁.boxList.Names ps' ns')
    (hshort : ∀ n, phase.boxName = some n → ∃ m : CString, n = newBoxName m ∧ m.strlen ≤ 30) :
    Kept (b₁.setPhase w phase) L' ps' ns' where
  outside := h.outside.setPhase hb hthreads hlt
  inv := hinv
  holds := hholds
  names := hnames
  short := fun v n hn => by
    by_cases hvw : v = w
    · subst hvw
      rw [Broker.setPhase_self] at hn
      exact hshort n hn
    · rw [Broker.setPhase_ne _ _ hvw, hb] at hn
      exact h.short v n hn

/-- A step that neither the list nor the directory sees. -/
theorem plain (h : Kept b L ps ns) {b₁ : Broker} {old phase : Phase} (hw : b.phase w = old)
    (hold : old.isIdle = false) (hp : old.pending = .nothing) (hb : b₁.phase = b.phase)
    (hthreads : b₁.numThreads = b.numThreads) (hinv : FsInv b₁.fs L') (hL : L'.names = L.names)
    (hholds : b₁.boxList.Holds ps) (hnames : b₁.boxList.Names ps ns) (hn : phase.boxName = none)
    (hp' : phase.pending = .nothing) :
    ∃ L' ps' ns', Kept (b₁.setPhase w phase) L' ps' ns' ∧
      ∀ n, balance (b₁.setPhase w phase) L' ns' n = balance b L ns n := by
  have hlt := h.outside.lt hw hold
  refine ⟨L', ps, ns, h.next hb hthreads hlt hinv hholds hnames (fun n hn' => ?_), fun n => ?_⟩
  · rw [hn] at hn'
    cases hn'
  · rw [balance_setPhase b L ns b₁ hb hthreads hw hlt, hp, hp', hL]
    omega

/-- A creation that meets the condition files a name exactly if it goes on to put the box into the list. -/
theorem openCreate (h : Kept b L ps ns) {res : Int × State} (hw : b.phase w = .create name)
    (he : Fs.tfsOpen b.fs (some name) tfsOCreat = .ok res) (hg : CreatesBox b (.tfsOpen w)) :
    ∃ L' ps' ns', Kept ({ b with fs := res.2 }.setPhase w
        (if res.1 = -1 then .responding createError else .created name)) L' ps' ns' ∧
      ∀ n, balance ({ b with fs := res.2 }.setPhase w
        (if res.1 = -1 then .responding createError else .created name)) L' ns' n = balance b L ns n := by
  have hlt := h.outside.lt hw rfl
  obtain ⟨L', hinv, ⟨hr, hnames⟩ | ⟨hr, hp, hn, hnames⟩⟩ := hg.tfsOpen hw h.inv he
  · rw [if_pos hr]
    exact h.plain hw rfl rfl rfl rfl hinv hnames h.holds h.names rfl rfl
  · rw [if_neg hr]
    refine ⟨L', ps, ns, h.next rfl rfl hlt hinv h.holds h.names (fun n hn' => ?_), fun n => ?_⟩
    · exact h.short w n (by rw [hw]; exact hn')
    · rw [balance_setPhase b L ns { b with fs := res.2 } rfl rfl hw hlt, hnames, filed_insert hp hn]
      simp only [Phase.pending, Pending.owed]
      omega

/-- A removal takes the name out of the directory, and goes on to take the box out of the list. -/
theorem tfsUnlink (h : Kept b L ps ns) {res : Int × State} (hw : b.phase w = .remove name)
    (he : Fs.tfsUnlink b.fs (some name) = .ok res) :
    ∃ L' ps' ns', Kept ({ b with fs := res.2 }.setPhase w
        (if res.1 = -1 then .responding removeError else .removed name)) L' ps' ns' ∧
      ∀ n, balance ({ b with fs := res.2 }.setPhase w
        (if res.1 = -1 then .responding removeError else .removed name)) L' ns' n = balance b L ns n := by
  have hlt := h.outside.lt hw rfl
  obtain ⟨L', hinv, ⟨hr, hnames⟩ | ⟨hr, hp, hn, hnames⟩⟩ := h.inv.tfsUnlink_names he
  · rw [if_pos hr]
    exact h.plain hw rfl rfl rfl rfl hinv hnames h.holds h.names rfl rfl
  · have hne : ¬ res.1 = -1 := by omega
    rw [if_neg hne]
    refine ⟨L', ps, ns, h.next rfl rfl hlt hinv h.holds h.names (fun n hn' => ?_), fun n => ?_⟩
    · exact h.short w n (by rw [hw]; exact hn')
    · rw [balance_setPhase b L ns { b with fs := res.2 } rfl rfl hw hlt, hnames, filed_erase hp hn]
      simp only [Phase.pending, Pending.owed]
      split <;> omega

theorem insert (h : Kept b L ps ns) {addr : Nat} {contents : Mem} (hw : b.phase w = .created name)
    (hfree : b.boxList.heap addr = none) : ∃ L' ps' ns',
    Kept ({ b with boxList := insertAtBeginning b.boxList addr contents name 0 0 0 }.setPhase w
        (.responding createOk)) L' ps' ns' ∧
      ∀ n, balance ({ b with boxList := insertAtBeginning b.boxList addr contents name 0 0 0 }.setPhase w
        (.responding createOk)) L' ns' n = balance b L ns n := by
  have hlt := h.outside.lt hw rfl
  obtain ⟨m, rfl, hm⟩ := h.short w name (by rw [hw]; rfl)
  have hlen : (newBoxName m).strlen < sizeofBoxName := by
    have hcons : (newBoxName m).strlen = m.strlen + 1 := rfl
    have hmax : sizeofBoxName = 32 := rfl
    omega
  refine ⟨L, _, _, h.next rfl rfl hlt h.inv (h.holds.insert hfree) (h.names.insert hfree hlen) nofun, fun n => ?_⟩
  rw [balance_setPhase b L ns { b with boxList := insertAtBeginning b.boxList addr contents _ 0 0 0 } rfl rfl hw hlt,
    List.count_cons]
  simp only [Phase.pending, Pending.owed, beq_iff_eq]
  split <;> simp

/-- The list is owed one removal less, and has one box less if the box was found. -/
theorem deleteBox (h : Kept b L ps ns) {list : BoxList} (hw : b.phase w = .removed name)
    (he : Protocol.deleteBox b.boxList name = some list) :
    ∃ L' ps' ns', Kept ({ b with boxList := list }.setPhase w (.responding removeOk)) L' ps' ns' ∧
      ∀ n, balance ({ b with boxList := list }.setPhase w (.responding removeOk)) L' ns' n =
        balance b L ns n + if name = n ∧ name ∉ ns then 1 else 0 := by
  have hlt := h.outside.lt hw rfl
  obtain ⟨list', he', hholds, hsame⟩ := @BoxList.Holds.deleteBox _ _ name h.holds
  rw [he] at he'
  cases he'
  refine ⟨L, _, _, h.next rfl rfl hlt h.inv hholds (h.names.deleteBox hsame) nofun, fun n => ?_⟩
  rw [balance_setPhase b L ns { b with boxList := list } rfl rfl hw hlt]
  simp only [Phase.pending, Pending.owed]
  by_cases hn : name = n
  · subst hn
    by_cases hmem : name ∈ ns
    · have hpos := List.count_pos_iff.mpr hmem
      rw [List.count_erase_self, if_pos rfl, if_neg (fun hc => hc.2 hmem)]
      omega
    · rw [List.erase_of_not_mem hmem, if_pos rfl, if_pos ⟨rfl, hmem⟩]
      omega
  · rw [List.count_erase_of_ne (Ne.symm hn), if_neg hn, if_neg (fun hc => hn hc.1)]
    omega

/-- A step keeps the balance of every name, but for a `delete_box` that finds no box. -/
theorem step (h : Kept b L ps ns) (hshort : ShortName e) (hg : CreatesBox b e) (ho : Outcome b e b') :
    ∃ L' ps' ns', Kept b' L' ps' ns' ∧ (FindsBox b e ∧ (∀ n, balance b' L' ns' n = balance b L ns n) ∨
      ¬ FindsBox b e ∧ ∃ name, ∀ n, balance b' L' ns' n = balance b L ns n + if name = n then 1 else 0) := by
  have hfinds : ∀ {b' : Broker}, FindsBox b e →
      (∃ L' ps' ns', Kept b' L' ps' ns' ∧ ∀ n, balance b' L' ns' n = balance b L ns n) →
      ∃ L' ps' ns', Kept b' L' ps' ns' ∧ (FindsBox b e ∧ (∀ n, balance b' L' ns' n = balance b L ns n) ∨
        ¬ FindsBox b e ∧ ∃ name, ∀ n, balance b' L' ns' n = balance b L ns n + if name = n then 1 else 0) := by
    rintro b' hf ⟨L', ps', ns', hkept, hsame⟩
    exact ⟨L', ps', ns', hkept, Or.inl ⟨hf, hsame⟩⟩
  by_cases hstoring : (b.phase e.worker).storing = false
  · obtain ⟨L', b₁, phase, rfl, hu, hn, hp⟩ := ho.unseen hstoring h.inv h.holds h.names
    obtain ⟨hbusy, hnothing⟩ := Phase.of_storing hstoring
    refine hfinds ?_ (h.plain rfl hbusy hnothing hu.phase hu.numThreads hu.inv hu.layout hu.holds hu.names hn hp)
    exact findsBox_of_not_storing hstoring
  cases ho with
  | @take w d hw hlt hd =>
      refine hfinds trivial ⟨L, ps, ns, h.next rfl rfl hlt h.inv h.holds h.names (fun n hn => ?_), fun n => ?_⟩
      · obtain ⟨r, rfl, rfl⟩ := Phase.start_boxName hn
        exact ⟨r.boxName, rfl, hshort⟩
      · rw [balance_setPhase b L ns { b with output := Function.update b.output w [] } rfl rfl hw hlt,
          Phase.start_pending]
        simp [Phase.pending]
  | openCreate hw he => exact hfinds trivial (h.openCreate hw he hg)
  | tfsUnlink hw he => exact hfinds trivial (h.tfsUnlink hw he)
  | insert hw hfree => exact hfinds trivial (h.insert hw hfree)
  | @deleteBox w name list hw hlock he =>
      obtain ⟨L', ps', ns', hkept, hbalance⟩ := h.deleteBox hw he
      have hiff : FindsBox b (.deleteBox w) ↔ name ∈ ns := by
        simp only [FindsBox, hw]
        exact h.findBox_iff
      refine ⟨L', ps', ns', hkept, ?_⟩
      by_cases hmem : name ∈ ns
      · refine Or.inl ⟨hiff.mpr hmem, fun n => ?_⟩
        rw [hbalance n, if_neg (fun hc => hc.2 hmem), add_zero]
      · refine Or.inr ⟨fun hf => hmem (hiff.mp hf), name, fun n => ?_⟩
        rw [hbalance n]
        simp only [hmem, not_false_eq_true, and_true]
  | _ =>
      dsimp only [Event.worker] at hstoring
      exact absurd (Broker.storing_eq (by assumption) (by rfl)) hstoring

/-! ## When all is settled -/

theorem balance_settled (hs : Settled b) : balance b L ns n = ns.count n - filed L.names n := by
  have hzero : ∑ v ∈ Finset.range b.numThreads, (b.phase v).pending.owed n = 0 := by
    refine Finset.sum_eq_zero fun v hv => ?_
    have hnothing := hs v (Finset.mem_range.mp hv)
    cases hp : (b.phase v).pending with
    | nothing => rfl
    | insert | delete =>
        rw [hp] at hnothing
        cases hnothing
  rw [balance, hzero, add_zero]

/-- The stores agree exactly if the balance of every name is 0. -/
theorem storesAgree_iff (h : Kept b L ps ns) (hs : Settled b) : StoresAgree b ↔ ∀ n, balance b L ns n = 0 := by
  have hnames : b.boxList.boxNames = ns := h.names.boxNames_eq h.holds
  have hlive : ∀ n : CString, (∃ m, m ∈ b.fs.liveNames ∧ n.chars = slash :: m) ↔
      ∃ m ∈ L.names, n.chars = slash :: m := by
    intro n
    simp only [h.inv.root.mem_liveNames]
  have hagree : StoresAgree b ↔ ns.Nodup ∧ ∀ n : CString, n ∈ ns ↔ ∃ m ∈ L.names, n.chars = slash :: m := by
    rw [StoresAgree, SameNames, hnames]
    simp only [hlive]
    exact ⟨And.right, fun hs => ⟨⟨ps, h.holds⟩, hs⟩⟩
  rw [hagree]
  constructor
  · rintro ⟨hnodup, hiff⟩ n
    rw [balance_settled hs, filed]
    by_cases hmem : n ∈ ns
    · rw [if_pos ((hiff n).mp hmem), List.count_eq_one_of_mem hnodup hmem]
      rfl
    · rw [if_neg (mt (hiff n).mpr hmem), List.count_eq_zero_of_not_mem hmem]
      rfl
  · intro hzero
    have hcount : ∀ n, (ns.count n : Int) = filed L.names n := by
      intro n
      have h0 := hzero n
      rw [balance_settled hs] at h0
      omega
    refine ⟨List.nodup_iff_count_le_one.mpr fun n => ?_, fun n => ?_⟩
    · have hn := hcount n
      rw [filed] at hn
      split at hn <;> omega
    · have hn := hcount n
      rw [filed] at hn
      rw [← List.count_pos_iff]
      split at hn
      · rename_i hex
        exact iff_of_true (by omega) hex
      · rename_i hex
        exact iff_of_false (by omega) hex

end Kept

/-! ## Runs -/

/-- Steps of creations and removals that make no file without a handle, for box names of at most 30 characters. -/
def ShortStep : Broker → Event → Broker → Prop := Guarded (fun b e => CreatesBox b e ∧ ShortName e) Step

/-- The list owes the directory nothing. -/
def Even (b : Broker) : Prop := ∃ L ps ns, Kept b L ps ns ∧ ∀ n, balance b L ns n = 0

/-- The list has a box too many, now or when its creation is through. -/
def Surplus (b : Broker) : Prop :=
  ∃ L ps ns, Kept b L ps ns ∧ (∀ n, 0 ≤ balance b L ns n) ∧ ∃ n, 0 < balance b L ns n

theorem Broker.Started.even (h : b.Started) : Even b := ⟨Layout.empty, [], [], h.kept, fun _ => h.balance⟩

theorem Even.step (h : Even b) (hf : FindsBox b e) (hs : ShortStep b e b') : Even b' := by
  obtain ⟨L, ps, ns, hkept, hzero⟩ := h
  obtain ⟨L', ps', ns', hkept', ⟨-, hsame⟩ | ⟨hmiss, -⟩⟩ := hkept.step hs.1.2 hs.1.1 hs.2.outcome
  · exact ⟨L', ps', ns', hkept', fun n => (hsame n).trans (hzero n)⟩
  · exact absurd hf hmiss

theorem Even.surplus (h : Even b) (hf : ¬ FindsBox b e) (hs : ShortStep b e b') : Surplus b' := by
  obtain ⟨L, ps, ns, hkept, hzero⟩ := h
  obtain ⟨L', ps', ns', hkept', ⟨hfinds, -⟩ | ⟨-, name, hmore⟩⟩ := hkept.step hs.1.2 hs.1.1 hs.2.outcome
  · exact absurd hfinds hf
  · refine ⟨L', ps', ns', hkept', fun n => ?_, name, ?_⟩
    · rw [hmore, hzero]
      split <;> decide
    · rw [hmore, hzero, if_pos rfl]
      decide

/-- No step makes up for a box that was not found. -/
theorem Surplus.step (h : Surplus b) (hs : ShortStep b e b') : Surplus b' := by
  obtain ⟨L, ps, ns, hkept, hle, m, hlt⟩ := h
  obtain ⟨L', ps', ns', hkept', ⟨-, hsame⟩ | ⟨-, name, hmore⟩⟩ := hkept.step hs.1.2 hs.1.1 hs.2.outcome
  · exact ⟨L', ps', ns', hkept', fun n => by rw [hsame]; exact hle n, m, by rw [hsame]; exact hlt⟩
  · refine ⟨L', ps', ns', hkept', fun n => ?_, m, ?_⟩
    · rw [hmore]
      have hn := hle n
      split <;> omega
    · rw [hmore]
      split <;> omega

theorem Even.storesAgree (h : Even b) (hs : Settled b) : StoresAgree b := by
  obtain ⟨L, ps, ns, hkept, hzero⟩ := h
  exact (hkept.storesAgree_iff hs).mpr hzero

theorem Surplus.not_storesAgree (h : Surplus b) (hs : Settled b) : ¬ StoresAgree b := by
  obtain ⟨L, ps, ns, hkept, -, n, hlt⟩ := h
  intro hagree
  have hzero := (hkept.storesAgree_iff hs).mp hagree n
  omega

end Mbroker.Sessions
