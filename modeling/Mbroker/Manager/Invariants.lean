import Mathlib.Data.Fintype.EquivFin
import Mbroker.Manager.Listing

/-!
# What a listing keeps

The boxes are divided into those in the manager's list, those whose records are in the pipe, and those that are still
to be written; a step moves one box on.
-/

namespace Mbroker.Manager

open Mbroker.Lib Mbroker.Protocol Mbroker.Sessions

variable {list : BoxList} {s s' : Listing} {e : Event} {ps done waiting todo : List Nat} {p : Nat}

/-! ## Records -/

/-- A box as the broker makes it: its name is '/' and what fits behind it, and its counts have 64 bits. -/
structure Listable (box : BoxData) (name : CString) : Prop where
  name : box.HasName (newBoxName name)
  boxSize : box.boxSize < 2 ^ 64
  nPublishers : box.nPublishers < 2 ^ 64
  nSubscribers : box.nSubscribers < 2 ^ 64

/-- The bytes of the record for the box at `p`. -/
def RecordOf (list : BoxList) (p : Nat) (record : List UInt8) : Prop :=
  ∃ box listingBuffer, list.heap p = some box ∧
    record = (fillListingBuffer listingBuffer (listingResponse list p box)).bytes sizeofListingResponse

theorem RecordOf.length {record : List UInt8} (h : RecordOf list p record) : record.length = sizeofListingResponse := by
  obtain ⟨box, m, -, rfl⟩ := h
  exact Mem.length_bytes _ _

/-- The node at `q` has the name of the box at `p` without the '/', and its counts. -/
def Carried (list list' : BoxList) (p q : Nat) : Prop :=
  ∃ box box' name, list.heap p = some box ∧ list'.heap q = some box' ∧ box.HasName (newBoxName name) ∧
    box'.HasName name ∧ box'.boxSize = box.boxSize ∧ box'.nPublishers = box.nPublishers ∧
    box'.nSubscribers = box.nSubscribers

/-- The node that the manager makes of a record. -/
theorem RecordOf.take {record : List UInt8} (h : RecordOf list p record)
    (hp : ∀ box ∈ list.heap p, ∃ name, Listable box name)
    (hb : s.listingResponseBuffer.bytes sizeofListingResponse = record) (addr : Nat) (contents : Mem) :
    ∃ name size pubs subs, (s.take addr contents).boxListSort =
        insertAtBeginning s.boxListSort addr contents name size pubs subs ∧
      Carried list (s.take addr contents).boxListSort p addr := by
  obtain ⟨box, m, hbox, rfl⟩ := h
  obtain ⟨name, hlist⟩ := hp box hbox
  have hname : (listingResponse list p box).boxName = name := listingResponse_boxName hlist.name p
  have hlt : name.strlen < sizeofBoxName := by
    have hlt := hlist.name.1
    simp only [newBoxName, CString.strlen, List.length_cons] at hlt
    rw [CString.strlen]
    omega
  obtain ⟨hcode, -, hstr, hsize, hpubs, hsubs⟩ := takeListingResponse_fill (r := listingResponse list p box) rfl
    (le_of_eq_of_le (congrArg CString.strlen hname) hlt.le) hlist.boxSize hlist.nPublishers hlist.nSubscribers hb
    s.listingResponse
  have hstr : listingNameField.string s.listingResponseBuffer = name := hstr.trans hname
  have htake : (s.take addr contents).boxListSort = insertAtBeginning s.boxListSort addr contents name
      box.boxSize box.nPublishers box.nSubscribers := by
    simp only [Listing.take, hcode, if_pos, hstr, hsize, hpubs, hsubs]
    rfl
  obtain ⟨box', hbox', hname', hcounts⟩ := BoxList.insertAtBeginning_heap_self s.boxListSort addr contents box.boxSize
    box.nPublishers box.nSubscribers hlt
  refine ⟨name, _, _, _, htake, box, box', name, hbox, ?_, hlist.name, hname', hcounts⟩
  rw [htake]
  exact hbox'

/-! ## The boxes on their way -/

structure InStep (list : BoxList) (ps done waiting todo : List Nat) (s : Listing) : Prop where
  boxList : s.boxList = list
  split : ps = done ++ waiting ++ todo
  worker : s.worker = .closed ∧ todo = [] ∨ ∃ a, s.worker = .listing a ∧ Seg list.heap BoxData.next a todo none
  pipe : ∃ records, s.pipe = records.flatten ∧ List.Forall₂ (RecordOf list) waiting records
  carried : ∃ qs, s.boxListSort.Chain qs ∧ List.Forall₂ (Carried list s.boxListSort) done.reverse qs
  first : s.client = .first → done = []
  reading : s.client = .reading → done ≠ []
  ended : s.client.Done → s.worker = .closed ∧ waiting = [] ∧ (s.client = .noBoxes ↔ done = [])

/-- How many steps are left. -/
def stepsLeft (s : Listing) (waiting todo : List Nat) : Nat :=
  2 * todo.length + waiting.length + (if s.worker = .closed then 0 else 1) + if s.client.Done then 0 else 1

theorem Listing.Opened.inStep (h : s.Opened list) (hps : list.Holds ps) : InStep list ps [] [] ps s where
  boxList := h.boxList
  split := rfl
  worker := Or.inr ⟨list.head, h.worker, hps.seg⟩
  pipe := ⟨[], h.pipe, .nil⟩
  carried := ⟨[], by rw [h.boxListSort]; exact BoxList.empty_chain, .nil⟩
  first := fun _ => rfl
  reading := fun hc => by
    rw [h.client] at hc
    cases hc
  ended := fun hc => by
    rw [h.client] at hc
    cases hc

namespace InStep

theorem write (h : InStep list ps done waiting todo s) (hs : Step s .write s') :
    ∃ p todo', todo = p :: todo' ∧ InStep list ps done (waiting ++ [p]) todo' s' ∧
      stepsLeft s' (waiting ++ [p]) todo' + 1 = stepsLeft s waiting todo := by
  have hboxList := h.boxList
  obtain ⟨hw, -⟩ | ⟨a, hw, hseg⟩ := h.worker
  · simp [Step, step, hw] at hs
  · cases a with
    | none => simp [Step, step, hw] at hs
    | some p =>
        cases hseg with
        | @cons _ box todo' _ hp hseg =>
            simp only [Step, step, hw, hboxList, hp, Option.map_some, Option.some.injEq] at hs
            subst hs
            obtain ⟨records, hpipe, hrecords⟩ := h.pipe
            let record := (fillListingBuffer s.listingBuffer (listingResponse list p box)).bytes sizeofListingResponse
            refine ⟨p, todo', rfl, ⟨rfl, ?_, Or.inr ⟨_, rfl, hseg⟩, ⟨records ++ [record], ?_, ?_⟩, h.carried, h.first,
              h.reading, fun hc => ?_⟩, ?_⟩
            · rw [h.split]
              simp
            · rw [List.flatten_append, hpipe]
              simp [record]
            · exact List.rel_append hrecords (.cons ⟨box, s.listingBuffer, hp, rfl⟩ .nil)
            · have hclosed := (h.ended hc).1
              rw [hw] at hclosed
              cases hclosed
            · simp [stepsLeft, hw]
              omega

theorem close (h : InStep list ps done waiting todo s) (hs : Step s .close s') :
    InStep list ps done waiting todo s' ∧ stepsLeft s' waiting todo + 1 = stepsLeft s waiting todo := by
  obtain ⟨hw, -⟩ | ⟨a, hw, hseg⟩ := h.worker
  · simp [Step, step, hw] at hs
  · cases a with
    | some p => simp [Step, step, hw] at hs
    | none =>
        cases hseg
        simp only [Step, step, hw, Option.some.injEq] at hs
        subst hs
        refine ⟨⟨h.boxList, h.split, Or.inl ⟨rfl, rfl⟩, h.pipe, h.carried, h.first, h.reading, fun hc => ?_⟩, ?_⟩
        · exact ⟨rfl, (h.ended hc).2⟩
        · simp [stepsLeft, hw]
          omega

theorem read (h : InStep list ps done waiting todo s)
    (hlist : ∀ p ∈ ps, ∀ box ∈ list.heap p, ∃ name, Listable box name) {addr : Nat} {contents : Mem}
    (hs : Step s (.read addr contents) s') :
    ∃ p waiting', waiting = p :: waiting' ∧ InStep list ps (done ++ [p]) waiting' todo s' ∧
      stepsLeft s' waiting' todo + 1 = stepsLeft s waiting todo := by
  simp only [Step, step] at hs
  split at hs
  · cases hs
  · rename_i hcan
    simp only [not_or, not_not] at hcan
    obtain ⟨hne, hdone, hfree⟩ := hcan
    obtain ⟨records, hpipe, hrecords⟩ := h.pipe
    cases hrecords with
    | nil => exact absurd hpipe hne
    | @cons p record waiting' records hrecord hrest =>
        -- the read takes the first record and no other
        have hlen := hrecord.length
        have hframed : Framed sizeofListingResponse (record :: records) := ⟨hlen.le, Or.inl hlen⟩
        obtain ⟨s₁, hs₁⟩ : ∃ s₁, s₁ = ({ s with
            listingResponseBuffer := readPipe s.listingResponseBuffer 0 sizeofListingResponse s.pipe
            pipe := s.pipe.drop sizeofListingResponse } : Listing) := ⟨_, rfl⟩
        rw [← hs₁, Option.some.injEq] at hs
        have hbuffer : s₁.listingResponseBuffer.bytes sizeofListingResponse = record := by
          have hbytes : ((readPipe s.listingResponseBuffer 0 sizeofListingResponse (record :: records).flatten).ptr
              0).bytes record.length = record := hframed.bytes
          rw [hlen, Mem.ptr_zero, ← hpipe] at hbytes
          rw [hs₁]
          exact hbytes
        have hrestpipe : s₁.pipe = records.flatten := by
          rw [hs₁]
          change s.pipe.drop _ = _
          rw [hpipe]
          exact hframed.rest
        have hmem : p ∈ ps := by
          rw [h.split]
          simp
        obtain ⟨name, size, pubs, subs, htake, hcarried⟩ := hrecord.take (hlist p hmem) hbuffer addr contents
        obtain ⟨qs, hchain, hqs⟩ := h.carried
        have hsort : s₁.boxListSort = s.boxListSort := by rw [hs₁]
        rw [hs, hsort] at htake
        rw [hs] at hcarried
        have hclient : s'.client = .reading := by rw [← hs]; rfl
        have hworker : s'.worker = s.worker := by rw [← hs, hs₁]; rfl
        have hold : ∀ {x q}, Carried list s.boxListSort x q → Carried list s'.boxListSort x q := by
          rintro x q ⟨box, box', n, hbox, hbox', hrest⟩
          refine ⟨box, box', n, hbox, ?_, hrest⟩
          rw [htake]
          exact BoxList.insertAtBeginning_heap_of_some hfree hbox'
        refine ⟨p, waiting', rfl, ⟨?_, ?_, ?_, ⟨records, ?_, hrest⟩, ⟨addr :: qs, ?_, ?_⟩, ?_, ?_, ?_⟩, ?_⟩
        · rw [← hs, hs₁]
          exact h.boxList
        · rw [h.split]
          simp
        · rw [hworker]
          exact h.worker
        · rw [← hs]
          exact hrestpipe
        · rw [htake]
          exact hchain.insert hfree
        · rw [List.reverse_append]
          exact .cons hcarried (hqs.imp fun _ _ => hold)
        · intro hc
          rw [hclient] at hc
          cases hc
        · intro _
          simp
        · intro hc
          rw [hclient] at hc
          cases hc
        · simp only [stepsLeft, hclient, hworker, List.length_cons, if_neg hdone]
          have hnot : ¬ ClientPhase.reading.Done := id
          rw [if_neg hnot]
          omega

theorem eof (h : InStep list ps done waiting todo s) (hs : Step s .eof s') :
    InStep list ps done waiting todo s' ∧ stepsLeft s' waiting todo + 1 = stepsLeft s waiting todo := by
  obtain ⟨records, hpipe, hrecords⟩ := h.pipe
  simp only [Step, step] at hs
  split at hs
  · rename_i hend
    obtain ⟨hnil, hclosed⟩ := hend
    have hwaiting : waiting = [] := by
      cases hrecords with
      | nil => rfl
      | @cons p record waiting' records hrecord hrest =>
          have hlen := congrArg List.length (hpipe.symm.trans hnil)
          rw [List.flatten_cons, List.length_append, hrecord.length] at hlen
          simp [sizeofListingResponse] at hlen
    cases hc : s.client with
    | first =>
        simp only [hc, Option.some.injEq] at hs
        subst hs
        refine ⟨⟨h.boxList, h.split, h.worker, h.pipe, h.carried, nofun, nofun, fun _ => ⟨hclosed, hwaiting, ?_⟩⟩, ?_⟩
        · exact iff_of_true rfl (h.first hc)
        · simp [stepsLeft, hc, hclosed, ClientPhase.Done]
    | reading =>
        simp only [hc, Option.some.injEq] at hs
        subst hs
        refine ⟨⟨h.boxList, h.split, h.worker, h.pipe, h.carried, nofun, nofun, fun _ => ⟨hclosed, hwaiting, ?_⟩⟩, ?_⟩
        · exact iff_of_false (by simp) (h.reading hc)
        · simp [stepsLeft, hc, hclosed, ClientPhase.Done]
    | _ => simp [hc] at hs
  · cases hs

/-- A step moves a box on, or brings one side to its end. -/
theorem step (h : InStep list ps done waiting todo s)
    (hlist : ∀ p ∈ ps, ∀ box ∈ list.heap p, ∃ name, Listable box name) (hs : Step s e s') :
    ∃ done' waiting' todo', InStep list ps done' waiting' todo' s' ∧
      stepsLeft s' waiting' todo' + 1 = stepsLeft s waiting todo := by
  cases e with
  | write =>
      obtain ⟨p, todo', rfl, hstep⟩ := h.write hs
      exact ⟨done, waiting ++ [p], todo', hstep⟩
  | close => exact ⟨done, waiting, todo, h.close hs⟩
  | read addr contents =>
      obtain ⟨p, waiting', rfl, hstep⟩ := h.read hlist hs
      exact ⟨done ++ [p], waiting', todo, hstep⟩
  | eof => exact ⟨done, waiting, todo, h.eof hs⟩

theorem steps {es : List Event} (hlist : ∀ p ∈ ps, ∀ box ∈ list.heap p, ∃ name, Listable box name)
    (hrun : Steps Step s es s') : ∀ {done waiting todo}, InStep list ps done waiting todo s →
      ∃ done' waiting' todo', InStep list ps done' waiting' todo' s' ∧
        stepsLeft s' waiting' todo' + es.length = stepsLeft s waiting todo := by
  induction hrun with
  | nil =>
      intro done waiting todo h
      exact ⟨done, waiting, todo, h, rfl⟩
  | cons hs _ ih =>
      intro done waiting todo h
      obtain ⟨done₁, waiting₁, todo₁, h₁, hleft₁⟩ := h.step hlist hs
      obtain ⟨done', waiting', todo', h', hleft'⟩ := ih h₁
      refine ⟨done', waiting', todo', h', ?_⟩
      rw [List.length_cons]
      omega

/-- As long as the manager has not got to the end, one of the two can go on. -/
theorem progress (h : InStep list ps done waiting todo s) (hc : ¬ s.client.Done) : ∃ e s', Step s e s' := by
  obtain ⟨records, hpipe, hrecords⟩ := h.pipe
  obtain ⟨hw, -⟩ | ⟨a, hw, hseg⟩ := h.worker
  · by_cases hnil : s.pipe = []
    · cases hclient : s.client with
      | first => exact ⟨.eof, _, by simp only [Step, Manager.step, hnil, hw, hclient]; rfl⟩
      | reading => exact ⟨.eof, _, by simp only [Step, Manager.step, hnil, hw, hclient]; rfl⟩
      | _ => simp [hclient, ClientPhase.Done] at hc
    · -- `malloc` finds an address that no node has
      obtain ⟨qs, hchain, -⟩ := h.carried
      obtain ⟨addr, haddr⟩ := Infinite.exists_notMem_finset qs.toFinset
      have hfree : s.boxListSort.heap addr = none := by
        by_contra hne
        exact haddr (List.mem_toFinset.mpr ((hchain.live addr).mpr hne))
      exact ⟨.read addr (fun _ => 0), _, by simp only [Step, Manager.step]; rw [if_neg (by simp [hnil, hc, hfree])]⟩
  · cases hseg with
    | nil => exact ⟨.close, _, by simp only [Step, Manager.step, hw]; rfl⟩
    | @cons p box todo' _ hp hseg =>
        exact ⟨.write, _, by simp only [Step, Manager.step, hw, h.boxList, hp, Option.map_some]; rfl⟩

end InStep

end Mbroker.Manager
