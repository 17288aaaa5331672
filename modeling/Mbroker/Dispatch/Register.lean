import Mbroker.Dispatch.Model

/-!
# Request boundaries

Requests of two lengths wait in one pipe and are read with one length. As long as no list request has another
request behind it when `main` reads, every read takes exactly one request.
-/

namespace Mbroker.Dispatch

open Mbroker.Lib Mbroker.Protocol

/-! ## Reads that take one request -/

/-- A list request at the front of the pipe has nothing behind it. -/
def ListingAlone (pipe : List UInt8) : Prop :=
  pipe.head? = some listingCode → pipe.length ≤ sizeofListingRequest

/-- The condition on the reads of `main`. -/
def ReadsOne (s : System) : Event → Prop
  | .read => ListingAlone s.registerPipe
  | .interrupted => False
  | _ => True

instance (pipe : List UInt8) : Decidable (ListingAlone pipe) := inferInstanceAs (Decidable (_ → _))

instance (s : System) : DecidablePred (ReadsOne s)
  | .read => inferInstanceAs (Decidable (ListingAlone s.registerPipe))
  | .interrupted => isFalse id
  | .write _ | .signal | .test | .enqueue | .dequeue _ | .copyCode _ | .copyPath _ | .copyBox _ | .finish _ =>
      isTrue trivial

theorem ListingAlone.framed {rs : List ClientRequest}
    (h : ListingAlone (rs.map ClientRequest.bytes).flatten) :
    Framed sizeofRequest (rs.map ClientRequest.bytes) := by
  cases rs with
  | nil => trivial
  | cons r rs =>
      cases r with
      | request kind path box => exact ⟨(length_sendRequest _).le, Or.inl (length_sendRequest _)⟩
      | listing path =>
          have hlen : (ClientRequest.bytes (.listing path)).length = sizeofListingRequest :=
            length_sendListingRequest path
          have hshort := h rfl
          rw [List.map_cons, List.flatten_cons, List.length_append, hlen] at hshort
          refine ⟨?_, Or.inr (List.length_eq_zero_iff.mp (by omega))⟩
          rw [hlen]
          decide

/-! ## The invariant -/

/-- How many requests are in the buffer, read and not enqueued. -/
def MainPhase.inFlight : MainPhase → Nat
  | enqueuing => 1
  | _ => 0

/-- Each buffer that was enqueued starts with all of one request, and the requests were enqueued once each and
in order: those written and not read yet are what waits in the pipe. -/
structure Boundaries (s : System) (l : Log) : Prop where
  enqueued : ∀ (k : Nat) b, l.enqueued[k]? = some b →
    ∃ r : ClientRequest, l.written[k]? = some r ∧ r.bytes <+: b
  count : l.enqueued.length + s.main.inFlight ≤ l.written.length
  waiting : s.registerPipe =
    ((l.written.drop (l.enqueued.length + s.main.inFlight)).map ClientRequest.bytes).flatten

/-- Besides, the buffer starts with the request that was read last. -/
structure RegisterInv (s : System) (l : Log) : Prop extends Boundaries s l where
  read : s.main = .enqueuing →
    ∃ r : ClientRequest, l.written[l.enqueued.length]? = some r ∧ r.bytes <+: s.buffer

variable {s s' : System} {l l' : Log}

theorem System.Started.registerInv (h : s.Started) : RegisterInv s .empty where
  enqueued := by simp [Log.empty]
  count := by simp [Log.empty, h.main, MainPhase.inFlight]
  waiting := by simp [Log.empty, h.pipe]
  read := by simp [h.main]

namespace RegisterInv

theorem congr (h : RegisterInv s l) (hp : s'.registerPipe = s.registerPipe) (hm : s'.memory = s.memory)
    (hmain : s'.main = s.main) (hw : l'.written = l.written) (he : l'.enqueued = l.enqueued) :
    RegisterInv s' l' where
  enqueued := by rw [he, hw]; exact h.enqueued
  count := by rw [he, hmain, hw]; exact h.count
  waiting := by rw [hp, he, hmain, hw]; exact h.waiting
  read := by simp only [System.buffer, hmain, hm, he, hw]; exact h.read

theorem write (h : RegisterInv s l) (r : ClientRequest) :
    RegisterInv { s with registerPipe := s.registerPipe ++ r.bytes } { l with written := l.written ++ [r] } := by
  have hold : ∀ {k : Nat} {r'}, l.written[k]? = some r' → (l.written ++ [r])[k]? = some r' := by
    intro k r' hk
    obtain ⟨hlt, -⟩ := List.getElem?_eq_some_iff.mp hk
    rw [List.getElem?_append_left hlt]
    exact hk
  exact
    { enqueued := fun k b hb => by
        obtain ⟨r', hr', hpre⟩ := h.enqueued k b hb
        exact ⟨r', hold hr', hpre⟩
      count := h.count.trans (by simp)
      waiting := by
        simp only [h.waiting, List.drop_append_of_le_length h.count, List.map_append, List.flatten_append,
          List.map_cons, List.map_nil, List.flatten_cons, List.flatten_nil, List.append_nil]
      read := fun hmain => by
        obtain ⟨r', hr', hpre⟩ := h.read hmain
        exact ⟨r', hold hr', hpre⟩ }

theorem of_read (h : RegisterInv s l) (hmain : s.main = .reading) (hpipe : s.registerPipe ≠ [])
    (hone : ListingAlone s.registerPipe)
    (hs' : s' = { s with
      memory := readPipe s.memory bufferAddr sizeofRequest s.registerPipe
      registerPipe := s.registerPipe.drop sizeofRequest
      main := .enqueuing }) : RegisterInv s' l := by
  have hwait := h.waiting
  rw [hmain] at hwait
  simp only [MainPhase.inFlight, Nat.add_zero] at hwait
  cases hrs : l.written.drop l.enqueued.length with
  | nil =>
      rw [hrs] at hwait
      exact absurd hwait hpipe
  | cons r rs =>
      have hlt : l.enqueued.length < l.written.length := by
        by_contra hge
        rw [List.drop_eq_nil_of_le (by omega)] at hrs
        cases hrs
      have hr : l.written[l.enqueued.length]? = some r := by
        have hhead := congrArg List.head? hrs
        rwa [List.head?_drop] at hhead
      have htail : l.written.drop (l.enqueued.length + 1) = rs := by
        rw [← List.drop_drop, hrs]
        rfl
      rw [hrs] at hwait
      rw [hwait] at hone
      have hframed := hone.framed
      rw [List.map_cons] at hframed hwait
      have hbytes : (s'.memory.ptr bufferAddr).bytes r.bytes.length = r.bytes := by
        rw [hs', hwait]
        exact hframed.bytes
      exact
        { enqueued := h.enqueued
          count := by
            rw [hs']
            exact hlt
          waiting := by
            rw [hs']
            change s.registerPipe.drop sizeofRequest = ((l.written.drop (l.enqueued.length + 1)).map _).flatten
            rw [htail, hwait, hframed.rest]
          read := fun _ => by
            obtain ⟨k, hk⟩ := Nat.exists_eq_add_of_le hframed.1
            refine ⟨r, hr, ?_⟩
            rw [System.buffer, hk, Mem.bytes_add, hbytes]
            exact List.prefix_append _ _ }

theorem enqueue (h : RegisterInv s l) (hmain : s.main = .enqueuing) (hp : s'.registerPipe = s.registerPipe)
    (hmain' : s'.main = .testing) : RegisterInv s' { l with enqueued := l.enqueued ++ [s.buffer] } where
  enqueued := fun k b hb => by
    by_cases hk : k < l.enqueued.length
    · rw [List.getElem?_append_left hk] at hb
      exact h.enqueued k b hb
    · have hlt := (List.getElem?_eq_some_iff.mp hb).1
      obtain rfl : k = l.enqueued.length := by
        rw [List.length_append, List.length_singleton] at hlt
        omega
      rw [List.getElem?_append_right (le_refl _), Nat.sub_self] at hb
      cases hb
      exact h.read hmain
  count := by
    have hcount := h.count
    rw [hmain] at hcount
    rw [hmain', List.length_append]
    exact hcount
  waiting := by
    have hwait := h.waiting
    rw [hmain] at hwait
    rw [hp, hwait, hmain', List.length_append]
    rfl
  read := fun he => by
    rw [hmain'] at he
    cases he

theorem step {e : Event} (h : RegisterInv s l) (hone : ReadsOne s e) (hs : LoggedStep (s, l) e (s', l')) :
    RegisterInv s' l' := by
  obtain ⟨hstep, hlog⟩ := hs
  simp only at hstep hlog
  subst hlog
  cases e with
  | write r =>
      cases hstep
      exact h.write r
  | signal =>
      cases hstep
      exact h.congr rfl rfl rfl rfl rfl
  | test =>
      simp only [Step, Dispatch.step] at hstep
      split at hstep
      · rename_i hmain
        cases hstep
        have hzero : (if s.«end» then MainPhase.exited else .reading).inFlight = s.main.inFlight := by
          rw [hmain]
          split <;> rfl
        exact
          { enqueued := h.enqueued
            count := by
              simp only [hzero]
              exact h.count
            waiting := by
              simp only [hzero]
              exact h.waiting
            read := fun he => by
              simp only at he
              split at he <;> cases he }
      · cases hstep
  | read =>
      simp only [Step, Dispatch.step] at hstep
      split at hstep
      · rename_i hmain hpipe
        cases hstep
        exact h.of_read hmain (by simp [hpipe]) hone rfl
      · cases hstep
  | interrupted => exact hone.elim
  | enqueue =>
      simp only [Step, Dispatch.step] at hstep
      split at hstep
      · rename_i hmain hq
        cases hstep
        exact h.enqueue hmain rfl rfl
      · cases hstep
  | dequeue w | finish w =>
      obtain ⟨hp, hm, hmain⟩ := hstep.of_worker rfl
      exact h.congr hp hm hmain rfl rfl
  | copyCode w | copyPath w | copyBox w =>
      obtain ⟨hp, hm, hmain⟩ := hstep.of_worker rfl
      apply h.congr hp hm hmain <;> simp only [Log.next, Log.decode] <;> split <;> rfl

end RegisterInv

end Mbroker.Dispatch
