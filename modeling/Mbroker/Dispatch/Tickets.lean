import Mbroker.Dispatch.Model

/-!
# One worker for each pointer

Every pointer that `main` enqueues is dequeued by one worker, which keeps it until it is done with its request.
The pointers have the numbers 0, 1, 2, … in the order of the dequeues; `done` holds the numbers of those that a worker
is done with.
-/

namespace Mbroker.Dispatch

open Mbroker.Lib Mbroker.Protocol Mbroker.Queue

variable {s s' : System} {l l' : Log} {e : Event} {v w k : Nat} {phase : WorkerPhase} {d : Decoded} {done : List Nat}

/-! ## Workers -/

@[simp] theorem System.setWorker_self (s : System) (w : Nat) (phase : WorkerPhase) :
    (s.setWorker w phase).worker w = phase := Function.update_self _ _ _

theorem System.setWorker_ne (s : System) (phase : WorkerPhase) (h : v ≠ w) :
    (s.setWorker w phase).worker v = s.worker v := Function.update_of_ne h _ _

/-! ## What a step can do -/

/-- A worker that holds a pointer. -/
def WorkerPhase.Busy (phase : WorkerPhase) : Prop := phase.Copying ∨ ∃ d, phase = .processing d

/-- The worker whose copy it is. -/
def Event.copier : Event → Option Nat
  | copyCode w | copyPath w | copyBox w => some w
  | _ => none

/-- A step as the queue and the workers see it. -/
inductive Outcome (s : System) : Event → System → Prop
  | main {e : Event} {s' : System} : e.worker = none → e ≠ .enqueue → s'.queue = s.queue → s'.worker = s.worker →
      s'.numThreads = s.numThreads → Outcome s e s'
  | enqueue {queue} : s.main = .enqueuing → pcqEnqueue s.queue bufferAddr = some queue →
      Outcome s .enqueue { s with queue := queue, main := .testing }
  | dequeue {w p : Nat} {queue} : s.worker w = .idle → w < s.numThreads → pcqDequeue s.queue = some (p, queue) →
      Outcome s (.dequeue w) ({ s with queue := queue }.setWorker w (if p = 0 then .exited else .dequeued p))
  | copy {e : Event} {w : Nat} {phase : WorkerPhase} : e.copier = some w → (s.worker w).Copying → phase.Busy →
      (∀ d, phase = .processing d → d.Fits) → Outcome s e (s.setWorker w phase)
  | finish {w : Nat} {d : Decoded} : s.worker w = .processing d → Outcome s (.finish w) (s.setWorker w .idle)

theorem Step.outcome (h : Step s e s') : Outcome s e s' := by
  cases e with
  | write | signal =>
      cases h
      exact .main rfl (fun he => by cases he) rfl rfl rfl
  | test | interrupted | read =>
      simp only [Step, step] at h
      split at h
      · cases h
        exact .main rfl (fun he => by cases he) rfl rfl rfl
      · cases h
  | enqueue =>
      simp only [Step, step] at h
      split at h
      · rename_i hmain hq
        cases h
        exact .enqueue hmain hq
      · cases h
  | dequeue w =>
      simp only [Step, step] at h
      split at h
      · rename_i hw hq
        split at h
        · rename_i hlt
          cases h
          exact .dequeue hw hlt hq
        · cases h
      · cases h
  | copyCode w =>
      simp only [Step, step] at h
      split at h
      · rename_i p hw
        cases h
        have hcopying : (s.worker w).Copying := by rw [hw]; trivial
        split
        · exact .copy rfl hcopying (Or.inl trivial) fun _ hd => by cases hd
        · refine .copy rfl hcopying (Or.inr ⟨_, rfl⟩) fun d hd => ?_
          cases hd
          trivial
      · cases h
  | copyPath w =>
      simp only [Step, step] at h
      split at h
      · rename_i p code hw
        cases h
        have hcopying : (s.worker w).Copying := by rw [hw]; trivial
        split
        · refine .copy rfl hcopying (Or.inr ⟨_, rfl⟩) fun d hd => ?_
          cases hd
          trivial
        · exact .copy rfl hcopying (Or.inl trivial) fun _ hd => by cases hd
      · cases h
  | copyBox w =>
      simp only [Step, step] at h
      split at h
      · rename_i p code path hw
        cases h
        have hcopying : (s.worker w).Copying := by rw [hw]; trivial
        refine .copy rfl hcopying (Or.inr ⟨_, rfl⟩) fun d hd => ?_
        cases hd
        exact strlen_removeStringsFromBuffer_le _ _
      · cases h
  | finish w =>
      simp only [Step, step] at h
      split at h
      · rename_i hw
        cases h
        exact .finish hw
      · cases h

theorem Outcome.others (h : Outcome s e s') (he : e.copier = some w) : ∀ v, v ≠ w → s'.worker v = s.worker v := by
  cases h with
  | copy hcopier =>
      rw [he] at hcopier
      cases hcopier
      exact fun v hv => System.setWorker_ne _ _ hv
  | main _ _ _ hw => exact fun v _ => congrFun hw v
  | enqueue | dequeue | finish => cases he

/-- A request that a worker has got all of was copied from the buffer, so its box name fits. -/
theorem Outcome.copied (h : Outcome s e s') (he : e.copier = some w) (hw : s'.worker w = .processing d) :
    (s.worker w).Copying ∧ d.Fits := by
  cases h with
  | copy hcopier hcopying _ hfits =>
      rw [he] at hcopier
      cases hcopier
      rw [System.setWorker_self] at hw
      exact ⟨hcopying, hfits d hw⟩
  | main hnone => cases e <;> cases he <;> cases hnone
  | enqueue | dequeue | finish => cases he

theorem Outcome.numThreads (h : Outcome s e s') : s'.numThreads = s.numThreads := by
  cases h with
  | main _ _ _ _ hn => exact hn
  | _ => rfl

/-! ## The invariant -/

/-- Every pointer that was dequeued is held by one worker, or a worker is done with it; those that were not dequeued
wait. -/
structure Tickets (s : System) (l : Log) (done : List Nat) : Prop where
  waiting : ∃ ptrs, Holds s.queue ptrs ∧ (∀ p ∈ ptrs, p = bufferAddr) ∧
    l.decodings.length + ptrs.length = l.enqueued.length
  held : ∀ k < l.decodings.length, k ∈ done ∨ ∃ w, (s.worker w).Busy ∧ l.ticket w = k
  busy : ∀ w, (s.worker w).Busy → w < s.numThreads ∧ l.ticket w < l.decodings.length ∧ l.ticket w ∉ done
  apart : ∀ v w, (s.worker v).Busy → (s.worker w).Busy → l.ticket v = l.ticket w → v = w
  nodup : done.Nodup
  done_lt : ∀ k ∈ done, k < l.decodings.length
  decoded : ∀ w d, s.worker w = .processing d → l.decodings[l.ticket w]? = some (some d)
  working : ∀ w, s.worker w ≠ .exited

/-- The numbers of the pointers that workers are done with. -/
def doneAfter (l : Log) (e : Event) (done : List Nat) : List Nat :=
  match e with
  | .finish w => done ++ [l.ticket w]
  | _ => done

theorem System.Started.tickets (h : s.Started) : Tickets s .empty [] := by
  obtain ⟨buffer, capacity, hq⟩ := h.queue
  have hbusy : ∀ w, ¬ (s.worker w).Busy := by
    intro w hw
    rw [h.worker] at hw
    obtain hw | ⟨d, hw⟩ := hw
    · exact hw
    · cases hw
  exact
    { waiting := ⟨[], hq ▸ pcqCreate_holds _ _, nofun, rfl⟩
      held := nofun
      busy := fun w hw => absurd hw (hbusy w)
      apart := fun v w hv => absurd hv (hbusy v)
      nodup := List.nodup_nil
      done_lt := nofun
      decoded := fun w d hw => by rw [h.worker] at hw; cases hw
      working := fun w hw => by rw [h.worker] at hw; cases hw }

namespace Tickets

theorem congr (h : Tickets s l done) (hq : s'.queue = s.queue) (hw : s'.worker = s.worker)
    (hn : s'.numThreads = s.numThreads) (ht : l'.ticket = l.ticket) (hd : l'.decodings = l.decodings)
    (he : l'.enqueued = l.enqueued) : Tickets s' l' done where
  waiting := by rw [hq, hd, he]; exact h.waiting
  held := by rw [hd, hw, ht]; exact h.held
  busy := by rw [hw, hn, ht, hd]; exact h.busy
  apart := by rw [hw, ht]; exact h.apart
  nodup := h.nodup
  done_lt := by rw [hd]; exact h.done_lt
  decoded := by rw [hw, hd, ht]; exact h.decoded
  working := by rw [hw]; exact h.working

theorem enqueue (h : Tickets s l done) {queue : PcQueue Nat} (hq : pcqEnqueue s.queue bufferAddr = some queue)
    (buffer : List UInt8) :
    Tickets { s with queue := queue, main := .testing } { l with enqueued := l.enqueued ++ [buffer] } done := by
  obtain ⟨ptrs, hptrs, haddr, hcount⟩ := h.waiting
  refine { h with waiting := ⟨ptrs ++ [bufferAddr], hptrs.enqueue hq, fun p hp => ?_, ?_⟩ }
  · rcases List.mem_append.mp hp with hp | hp
    · exact haddr p hp
    · exact List.mem_singleton.mp hp
  · simp only [List.length_append, List.length_singleton]
    omega

theorem dequeue (h : Tickets s l done) {p : Nat} {queue : PcQueue Nat} (hw : s.worker w = .idle)
    (hlt : w < s.numThreads) (hq : pcqDequeue s.queue = some (p, queue)) :
    Tickets ({ s with queue := queue }.setWorker w (if p = 0 then .exited else .dequeued p))
      { l with ticket := Function.update l.ticket w l.decodings.length, decodings := l.decodings ++ [none] } done := by
  obtain ⟨ptrs, hptrs, haddr, hcount⟩ := h.waiting
  obtain ⟨ys, rfl, hys⟩ := hptrs.dequeue hq
  obtain rfl : p = bufferAddr := haddr p List.mem_cons_self
  have hne : ∀ v, (s.worker v).Busy → v ≠ w := by
    rintro v (hv | ⟨d, hv⟩) rfl <;> rw [hw] at hv
    · exact hv
    · cases hv
  have hself : ({ s with queue := queue }.setWorker w (.dequeued bufferAddr)).worker w = .dequeued bufferAddr :=
    Function.update_self _ _ _
  have hother : ∀ v, v ≠ w →
      ({ s with queue := queue }.setWorker w (.dequeued bufferAddr)).worker v = s.worker v :=
    fun v hv => Function.update_of_ne hv _ _
  have hnot : l.decodings.length ∉ done := fun hk => Nat.lt_irrefl _ (h.done_lt _ hk)
  rw [if_neg (show ¬ bufferAddr = 0 by decide)]
  refine
    { waiting := ⟨ys, hys, fun q hq => haddr q (List.mem_cons_of_mem _ hq), ?_⟩
      held := fun k hk => ?_
      busy := fun v hv => ?_
      apart := fun v u hv hu ht => ?_
      nodup := h.nodup
      done_lt := fun k hk => ?_
      decoded := fun v d hv => ?_
      working := fun v hv => ?_ }
  · rw [List.length_cons] at hcount
    simp only [List.length_append, List.length_singleton]
    omega
  · simp only [List.length_append, List.length_singleton] at hk
    obtain hk | rfl : k < l.decodings.length ∨ k = l.decodings.length := by omega
    · obtain hdone | ⟨v, hv, ht⟩ := h.held k hk
      · exact Or.inl hdone
      · refine Or.inr ⟨v, ?_, ?_⟩
        · rw [hother v (hne v hv)]
          exact hv
        · simp only [Function.update_of_ne (hne v hv)]
          exact ht
    · refine Or.inr ⟨w, ?_, Function.update_self _ _ _⟩
      rw [hself]
      exact Or.inl trivial
  · simp only [List.length_append, List.length_singleton]
    by_cases hvw : v = w
    · subst hvw
      simp only [Function.update_self]
      exact ⟨hlt, Nat.lt_succ_self _, hnot⟩
    · rw [hother v hvw] at hv
      simp only [Function.update_of_ne hvw]
      obtain ⟨hv', hticket, hdone⟩ := h.busy v hv
      exact ⟨hv', Nat.lt_succ_of_lt hticket, hdone⟩
  · by_cases hvw : v = w <;> by_cases huw : u = w
    · rw [hvw, huw]
    · subst hvw
      rw [hother u huw] at hu
      simp only [Function.update_self, Function.update_of_ne huw] at ht
      exact absurd (h.busy u hu).2.1 (by omega)
    · subst huw
      rw [hother v hvw] at hv
      simp only [Function.update_self, Function.update_of_ne hvw] at ht
      exact absurd (h.busy v hv).2.1 (by omega)
    · rw [hother v hvw] at hv
      rw [hother u huw] at hu
      simp only [Function.update_of_ne hvw, Function.update_of_ne huw] at ht
      exact h.apart v u hv hu ht
  · simp only [List.length_append, List.length_singleton]
    exact Nat.lt_succ_of_lt (h.done_lt k hk)
  · by_cases hvw : v = w
    · subst hvw
      rw [hself] at hv
      cases hv
    · rw [hother v hvw] at hv
      have hget := h.decoded v d hv
      have hticket := (List.getElem?_eq_some_iff.mp hget).1
      simp only [Function.update_of_ne hvw]
      rw [List.getElem?_append_left hticket]
      exact hget
  · by_cases hvw : v = w
    · subst hvw
      rw [hself] at hv
      cases hv
    · rw [hother v hvw] at hv
      exact h.working v hv

/-- A worker that has a pointer goes on to where it has it too. -/
theorem setWorker (h : Tickets s l done) (hw : (s.worker w).Busy) (hphase : phase.Busy) :
    Tickets (s.setWorker w phase) (l.decode w phase) done := by
  have hself : (s.setWorker w phase).worker w = phase := Function.update_self _ _ _
  have hother : ∀ v, v ≠ w → (s.setWorker w phase).worker v = s.worker v := fun v hv => Function.update_of_ne hv _ _
  have hbusy : ∀ v, ((s.setWorker w phase).worker v).Busy ↔ (s.worker v).Busy := by
    intro v
    by_cases hvw : v = w
    · subst hvw
      rw [hself]
      exact ⟨fun _ => hw, fun _ => hphase⟩
    · rw [hother v hvw]
  obtain ⟨hticket, henqueued, hlen⟩ : (l.decode w phase).ticket = l.ticket ∧
      (l.decode w phase).enqueued = l.enqueued ∧ (l.decode w phase).decodings.length = l.decodings.length := by
    unfold Log.decode
    split
    · exact ⟨rfl, rfl, List.length_set⟩
    · exact ⟨rfl, rfl, rfl⟩
  refine
    { waiting := by rw [hlen, henqueued]; exact h.waiting
      held := fun k hk => ?_
      busy := fun v hv => ?_
      apart := fun v u hv hu => ?_
      nodup := h.nodup
      done_lt := by rw [hlen]; exact h.done_lt
      decoded := fun v d hv => ?_
      working := fun v hv => ?_ }
  · rw [hlen] at hk
    obtain hdone | ⟨v, hv, ht⟩ := h.held k hk
    · exact Or.inl hdone
    · exact Or.inr ⟨v, (hbusy v).mpr hv, by rw [hticket]; exact ht⟩
  · rw [hticket, hlen]
    exact h.busy v ((hbusy v).mp hv)
  · rw [hticket]
    exact h.apart v u ((hbusy v).mp hv) ((hbusy u).mp hu)
  · rw [hticket]
    by_cases hvw : v = w
    · subst hvw
      rw [hself] at hv
      subst hv
      exact List.getElem?_set_self (h.busy v hw).2.1
    · rw [hother v hvw] at hv
      have hget := h.decoded v d hv
      have hne : l.ticket w ≠ l.ticket v := fun ht => hvw (h.apart w v hw (Or.inr ⟨d, hv⟩) ht).symm
      unfold Log.decode
      split
      · rw [List.getElem?_set_ne hne]
        exact hget
      · exact hget
  · by_cases hvw : v = w
    · subst hvw
      rw [hself] at hv
      subst hv
      obtain hphase | ⟨d, hphase⟩ := hphase
      · exact hphase
      · cases hphase
    · rw [hother v hvw] at hv
      exact h.working v hv

theorem finish (h : Tickets s l done) (hw : s.worker w = .processing d) :
    Tickets (s.setWorker w .idle) l (done ++ [l.ticket w]) := by
  have hself : (s.setWorker w .idle).worker w = .idle := Function.update_self _ _ _
  have hother : ∀ v, v ≠ w → (s.setWorker w .idle).worker v = s.worker v := fun v hv => Function.update_of_ne hv _ _
  have hbw : (s.worker w).Busy := Or.inr ⟨d, hw⟩
  have hbusy : ∀ v, ((s.setWorker w .idle).worker v).Busy → v ≠ w ∧ (s.worker v).Busy := by
    intro v hv
    by_cases hvw : v = w
    · subst hvw
      rw [hself] at hv
      obtain hv | ⟨d, hv⟩ := hv
      · exact hv.elim
      · cases hv
    · rw [hother v hvw] at hv
      exact ⟨hvw, hv⟩
  refine
    { waiting := h.waiting
      held := fun k hk => ?_
      busy := fun v hv => ?_
      apart := fun v u hv hu => h.apart v u (hbusy v hv).2 (hbusy u hu).2
      nodup := ?_
      done_lt := fun k hk => ?_
      decoded := fun v d hv => ?_
      working := fun v hv => ?_ }
  · obtain hdone | ⟨v, hv, ht⟩ := h.held k hk
    · exact Or.inl (List.mem_append_left _ hdone)
    · by_cases hvw : v = w
      · subst hvw
        exact Or.inl (List.mem_append_right _ (List.mem_singleton.mpr ht.symm))
      · exact Or.inr ⟨v, by rw [hother v hvw]; exact hv, ht⟩
  · obtain ⟨hvw, hv⟩ := hbusy v hv
    obtain ⟨hlt, hticket, hdone⟩ := h.busy v hv
    refine ⟨hlt, hticket, fun hmem => ?_⟩
    rcases List.mem_append.mp hmem with hmem | hmem
    · exact hdone hmem
    · exact hvw (h.apart v w hv hbw (List.mem_singleton.mp hmem))
  · refine List.nodup_append.mpr ⟨h.nodup, List.pairwise_singleton _ _, ?_⟩
    rintro k hk _ hk' rfl
    rw [List.mem_singleton.mp hk'] at hk
    exact (h.busy w hbw).2.2 hk
  · rcases List.mem_append.mp hk with hk | hk
    · exact h.done_lt k hk
    · rw [List.mem_singleton.mp hk]
      exact (h.busy w hbw).2.1
  · obtain ⟨hvw, -⟩ := hbusy v (by rw [hv]; exact Or.inr ⟨d, rfl⟩)
    rw [hother v hvw] at hv
    exact h.decoded v d hv
  · by_cases hvw : v = w
    · subst hvw
      rw [hself] at hv
      cases hv
    · rw [hother v hvw] at hv
      exact h.working v hv

theorem step (h : Tickets s l done) (hs : LoggedStep (s, l) e (s', l')) : Tickets s' l' (doneAfter l e done) := by
  obtain ⟨hstep, hlog⟩ := hs
  simp only at hstep hlog
  subst hlog
  cases hstep.outcome with
  | main hworker hne hq hw hn =>
      cases e with
      | enqueue => exact absurd rfl hne
      | write | signal | test | read | interrupted => exact h.congr hq hw hn rfl rfl rfl
      | dequeue | copyCode | copyPath | copyBox | finish => cases hworker
  | enqueue hmain hq => exact h.enqueue hq _
  | dequeue hw hlt hq => exact h.dequeue hw hlt hq
  | @copy _ w phase hcopier hcopying hphase =>
      have hself : (s.setWorker w phase).worker w = phase := Function.update_self _ _ _
      have hset := h.setWorker (Or.inl hcopying) hphase
      cases e with
      | copyCode | copyPath | copyBox =>
          cases hcopier
          simp only [Log.next, hself]
          exact hset
      | _ => cases hcopier
  | finish hw => exact h.finish hw

/-- What a worker copied stays in the record. -/
theorem decodings_of_done (h : Tickets s l done) (hs : LoggedStep (s, l) e (s', l')) (hk : k ∈ done)
    (hd : l.decodings[k]? = some (some d)) : l'.decodings[k]? = some (some d) := by
  obtain ⟨hstep, hlog⟩ := hs
  simp only at hstep hlog
  subst hlog
  cases hstep.outcome with
  | main hworker hne =>
      cases e with
      | enqueue => exact absurd rfl hne
      | write | signal | test | read | interrupted => exact hd
      | dequeue | copyCode | copyPath | copyBox | finish => cases hworker
  | enqueue => exact hd
  | dequeue =>
      simp only [Log.next]
      rw [List.getElem?_append_left (h.done_lt k hk)]
      exact hd
  | @copy _ w phase hcopier hcopying =>
      have hself : (s.setWorker w phase).worker w = phase := Function.update_self _ _ _
      have hne : l.ticket w ≠ k := fun ht => (h.busy w (Or.inl hcopying)).2.2 (ht ▸ hk)
      cases e with
      | copyCode | copyPath | copyBox =>
          cases hcopier
          simp only [Log.next, hself]
          unfold Log.decode
          split
          · rw [List.getElem?_set_ne hne]
            exact hd
          · exact hd
      | _ => cases hcopier
  | finish => exact hd

end Tickets

end Mbroker.Dispatch
