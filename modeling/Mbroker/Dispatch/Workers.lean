import Mbroker.Dispatch.Register

/-!
# Requests on their way to the workers

What goes through the queue is a pointer to the one buffer of `main`. A worker finds its request there as long
as `main` reads the next one only after the last one was dequeued and copied.
-/

namespace Mbroker.Dispatch

open Mbroker.Lib Mbroker.Protocol Mbroker.Queue

/-! ## What a worker should decode -/

/-- What the fields of the request hold. -/
def ClientRequest.contents : ClientRequest → Decoded
  | request kind path box => .request ⟨kind.code, path.truncate sizeofPipePath, box.truncate sizeofBoxName⟩
  | listing path => .listing (path.truncate sizeofPipePath)

def ClientRequest.code : ClientRequest → UInt8
  | request kind _ _ => kind.code
  | listing _ => listingCode

theorem ClientRequest.knownCode (r : ClientRequest) : knownCode r.code = true := by
  cases r with
  | request kind _ _ => cases kind <;> rfl
  | listing _ => rfl

theorem Kind.code_ne (kind : Kind) : kind.code ≠ listingCode := by
  cases kind <;> decide

/-- The pointers were dequeued in the order of the requests, and what was copied for one is its request. -/
structure InOrder (s : System) (l : Log) : Prop where
  count : l.decodings.length + s.queue.pcqCurrentSize = l.enqueued.length
  decoded : ∀ (k : Nat) d, l.decodings[k]? = some (some d) →
    ∃ r : ClientRequest, l.written[k]? = some r ∧ d = r.contents

/-- The contents decoded, in the order of the dequeues, up to the first pointer not done with. -/
def Log.processed (l : Log) : List Decoded := (l.decodings.takeWhile Option.isSome).filterMap id

/-- What was decoded is a prefix of what was read and enqueued. -/
theorem InOrder.processed_prefix {s : System} {l : Log} (h : InOrder s l) :
    l.processed <+: (l.written.take l.enqueued.length).map ClientRequest.contents := by
  obtain ⟨ds, hds⟩ : ∃ ds : List Decoded, l.decodings.takeWhile Option.isSome = ds.map some := by
    induction l.decodings with
    | nil => exact ⟨[], rfl⟩
    | cons x xs ih =>
        cases x with
        | none => exact ⟨[], rfl⟩
        | some d =>
            obtain ⟨ds, hds⟩ := ih
            exact ⟨d :: ds, by simp [hds]⟩
  have hpre : ds.map some <+: l.decodings := hds ▸ List.takeWhile_prefix _
  rw [Log.processed, hds, List.filterMap_map, Function.id_comp, List.filterMap_some]
  rw [List.prefix_iff_getElem?]
  intro k hk
  have hget : l.decodings[k]? = some (some ds[k]) := by
    rw [List.prefix_iff_getElem?] at hpre
    rw [hpre k (by simpa using hk), List.getElem_map]
  obtain ⟨r, hr, hd⟩ := h.decoded k _ hget
  have hlt : k < l.enqueued.length := by
    have := (List.getElem?_eq_some_iff.mp hget).1
    have := h.count
    omega
  rw [List.getElem?_map, List.getElem?_take_of_lt hlt, hr, Option.map_some, hd]

/-! ## The invariant -/

/-- The condition on the reads of `main`: one request is read, and nobody needs the one before any more. -/
def ReadsWhenDone (s : System) : Event → Prop
  | .read => ListingAlone s.registerPipe ∧ s.queue.pcqCurrentSize = 0 ∧
      ∀ w < s.numThreads, ¬ (s.worker w).Copying
  | .interrupted => False
  | _ => True

instance (s : System) : DecidablePred (ReadsWhenDone s)
  | .read => inferInstanceAs (Decidable (ListingAlone s.registerPipe ∧ s.queue.pcqCurrentSize = 0 ∧
      ∀ w < s.numThreads, ¬ (s.worker w).Copying))
  | .interrupted => isFalse id
  | .write _ | .signal | .test | .enqueue | .dequeue _ | .copyCode _ | .copyPath _ | .copyBox _ | .finish _ =>
      isTrue trivial

theorem ReadsWhenDone.readsOne {s : System} {e : Event} (h : ReadsWhenDone s e) : ReadsOne s e := by
  cases e with
  | read => exact h.1
  | interrupted => exact h
  | _ => trivial

/-- What the worker has copied so far is of the request `r`. -/
def CopiedFrom (r : ClientRequest) : WorkerPhase → Prop
  | .dequeued p => p = bufferAddr
  | .coded p code => p = bufferAddr ∧ code = r.code
  | .pathed p code path => p = bufferAddr ∧
      ∃ kind path' box, r = .request kind path' box ∧ code = kind.code ∧ path = path'.truncate sizeofPipePath
  | _ => True

/-- The queue holds at most one pointer, and none while `main` has a request to enqueue. -/
structure QueueInv (s : System) (l : Log) (ptrs : List Nat) : Prop where
  holds : Holds s.queue ptrs
  addr : ∀ p ∈ ptrs, p = bufferAddr
  count : l.decodings.length + ptrs.length = l.enqueued.length
  le_one : ptrs.length ≤ 1
  enqueuing : s.main = .enqueuing → ptrs = []

structure WorkersInv (s : System) (l : Log) : Prop extends RegisterInv s l where
  queue : ∃ ptrs, QueueInv s l ptrs
  last : s.main ≠ .enqueuing → ∀ (k : Nat) (r : ClientRequest), k + 1 = l.enqueued.length →
    l.written[k]? = some r → r.bytes <+: s.buffer
  copying : ∀ w, (s.worker w).Copying → w < s.numThreads ∧ s.main ≠ .enqueuing ∧
    l.ticket w + 1 = l.enqueued.length ∧
    ∃ r : ClientRequest, l.written[l.ticket w]? = some r ∧ CopiedFrom r (s.worker w)
  decoded : ∀ (k : Nat) d, l.decodings[k]? = some (some d) →
    ∃ r : ClientRequest, l.written[k]? = some r ∧ d = r.contents

variable {s s' : System} {l l' : Log}

theorem System.Started.workersInv (h : s.Started) : WorkersInv s .empty := by
  obtain ⟨buffer, capacity, hq⟩ := h.queue
  exact
    { h.registerInv with
      queue := ⟨[], hq ▸ pcqCreate_holds _ _, nofun, rfl, Nat.zero_le _, fun _ => rfl⟩
      last := by simp [Log.empty]
      copying := by simp [h.worker, WorkerPhase.Copying]
      decoded := by simp [Log.empty] }

theorem WorkersInv.inOrder (h : WorkersInv s l) : InOrder s l := by
  obtain ⟨ptrs, hq⟩ := h.queue
  exact ⟨by rw [hq.holds.size]; exact hq.count, h.decoded⟩

/-! ## The fields in the buffer -/

theorem code_of_prefix {r : ClientRequest} (h : r.bytes <+: s.buffer) : s.memory bufferAddr = r.code := by
  have hb := Mem.bytes_of_prefix h
  cases r with
  | request kind path box =>
      have hlen : (ClientRequest.bytes (.request kind path box)).length = 288 + 1 := length_sendRequest _
      rw [hlen, Mem.bytes_succ, ClientRequest.bytes, sendRequest, List.cons.injEq] at hb
      exact hb.1
  | listing path =>
      have hlen : (ClientRequest.bytes (.listing path)).length = 256 + 1 := length_sendListingRequest _
      rw [hlen, Mem.bytes_succ, ClientRequest.bytes, sendListingRequest, List.cons.injEq] at hb
      exact hb.1

theorem path_of_request {kind : Kind} {path box : CString}
    (h : ClientRequest.bytes (.request kind path box) <+: s.buffer) :
    removeStringsFromBuffer (s.memory.ptr (bufferAddr + 1)) sizeofPipePath = path.truncate sizeofPipePath ∧
      removeStringsFromBuffer (s.memory.ptr (bufferAddr + 1 + sizeofPipePath)) sizeofBoxName =
        box.truncate sizeofBoxName := by
  have hb := Mem.bytes_of_prefix h
  have hlen : (ClientRequest.bytes (.request kind path box)).length = (sizeofPipePath + sizeofBoxName) + 1 :=
    length_sendRequest _
  rw [hlen, Mem.bytes_succ, ClientRequest.bytes, sendRequest, List.cons.injEq, Mem.bytes_add] at hb
  obtain ⟨h₁, h₂⟩ := List.append_inj hb.2 (by simp)
  rw [Mem.ptr_ptr] at h₁ h₂
  rw [Mem.ptr_ptr] at h₂
  exact ⟨removeStringsFromBuffer_store h₁, removeStringsFromBuffer_store h₂⟩

theorem path_of_listing {path : CString} (h : ClientRequest.bytes (.listing path) <+: s.buffer) :
    removeStringsFromBuffer (s.memory.ptr (bufferAddr + 1)) sizeofPipePath = path.truncate sizeofPipePath := by
  have hb := Mem.bytes_of_prefix h
  have hlen : (ClientRequest.bytes (.listing path)).length = sizeofPipePath + 1 := length_sendListingRequest _
  rw [hlen, Mem.bytes_succ, ClientRequest.bytes, sendListingRequest, List.cons.injEq, Mem.ptr_ptr] at hb
  exact removeStringsFromBuffer_store hb.2

/-! ## Steps -/

namespace WorkersInv

theorem write (h : WorkersInv s l) (r : ClientRequest) :
    WorkersInv { s with registerPipe := s.registerPipe ++ r.bytes } { l with written := l.written ++ [r] } := by
  have hold : ∀ {k : Nat} {r'}, l.written[k]? = some r' → (l.written ++ [r])[k]? = some r' := by
    intro k r' hk
    obtain ⟨hlt, -⟩ := List.getElem?_eq_some_iff.mp hk
    rw [List.getElem?_append_left hlt]
    exact hk
  have hcount := h.count
  obtain ⟨ptrs, hq⟩ := h.queue
  exact
    { h.toRegisterInv.write r with
      queue := ⟨ptrs, { hq with }⟩
      last := fun hmain k r' hk hr' => by
        change k + 1 = l.enqueued.length at hk
        have hlt : k < l.written.length := by omega
        simp only [List.getElem?_append_left hlt] at hr'
        exact h.last hmain k r' hk hr'
      copying := fun w hw => by
        obtain ⟨hlt, hmain, hk, r', hr', hc⟩ := h.copying w hw
        exact ⟨hlt, hmain, hk, r', hold hr', hc⟩
      decoded := fun k d hd => by
        obtain ⟨r', hr', he⟩ := h.decoded k d hd
        exact ⟨r', hold hr', he⟩ }

/-- A step of `main` that neither reads nor enqueues. -/
theorem of_main (h : WorkersInv s l) (hr : RegisterInv s' l) (hm : s'.memory = s.memory) (hq : s'.queue = s.queue)
    (hn : s'.numThreads = s.numThreads) (hw : s'.worker = s.worker) (hmain : s.main ≠ .enqueuing)
    (hmain' : s'.main ≠ .enqueuing) :
    WorkersInv s' l := by
  obtain ⟨ptrs, hqi⟩ := h.queue
  exact
    { hr with
      queue := ⟨ptrs, { hqi with holds := hq ▸ hqi.holds, enqueuing := fun he => absurd he hmain' }⟩
      last := fun _ => by
        simp only [System.buffer, hm]
        exact h.last hmain
      copying := fun w hc => by
        rw [hw] at hc ⊢
        rw [hn]
        exact ⟨(h.copying w hc).1, hmain', (h.copying w hc).2.2⟩
      decoded := h.decoded }

theorem of_read (h : WorkersInv s l) (hr : RegisterInv s' l) (hq : s'.queue = s.queue) (hw : s'.worker = s.worker)
    (hempty : s.queue.pcqCurrentSize = 0) (hdone : ∀ w < s.numThreads, ¬ (s.worker w).Copying)
    (hmain' : s'.main = .enqueuing) :
    WorkersInv s' l := by
  obtain ⟨ptrs, hqi⟩ := h.queue
  have hnil : ptrs = [] := by
    rw [← List.length_eq_zero_iff, ← hqi.holds.size]
    exact hempty
  exact
    { hr with
      queue := ⟨ptrs, { hqi with holds := hq ▸ hqi.holds, enqueuing := fun _ => hnil }⟩
      last := fun hne => absurd hmain' hne
      copying := fun w hc => by
        rw [hw] at hc
        exact absurd hc (hdone w (h.copying w hc).1)
      decoded := h.decoded }

theorem enqueue (h : WorkersInv s l) (hmain : s.main = .enqueuing) {queue : PcQueue Nat}
    (hq : pcqEnqueue s.queue bufferAddr = some queue) :
    WorkersInv { s with queue := queue, main := .testing } { l with enqueued := l.enqueued ++ [s.buffer] } := by
  obtain ⟨ptrs, hqi⟩ := h.queue
  obtain rfl := hqi.enqueuing hmain
  have hreg : RegisterInv { s with queue := queue, main := .testing }
      { l with enqueued := l.enqueued ++ [s.buffer] } := h.toRegisterInv.enqueue hmain rfl rfl
  exact
    { hreg with
      queue := ⟨[] ++ [bufferAddr],
        { holds := hqi.holds.enqueue hq
          addr := by simp
          count := by simpa using hqi.count
          le_one := by simp
          enqueuing := nofun }⟩
      last := fun _ k r hk hr => by
        obtain ⟨r', hr', hpre⟩ := h.read hmain
        obtain rfl : k = l.enqueued.length := by
          rw [List.length_append, List.length_singleton] at hk
          omega
        rw [hr'] at hr
        cases hr
        exact hpre
      copying := fun w hc => absurd hmain (h.copying w hc).2.1
      decoded := h.decoded }

theorem dequeue (h : WorkersInv s l) {w p : Nat} {queue : PcQueue Nat} (hw : w < s.numThreads)
    (hq : pcqDequeue s.queue = some (p, queue)) :
    WorkersInv ({ s with queue := queue }.setWorker w (if p = 0 then .exited else .dequeued p))
      { l with ticket := Function.update l.ticket w l.decodings.length, decodings := l.decodings ++ [none] } := by
  obtain ⟨ptrs, hqi⟩ := h.queue
  obtain ⟨ys, rfl, hholds⟩ := hqi.holds.dequeue hq
  obtain rfl := hqi.addr p List.mem_cons_self
  obtain rfl : ys = [] := by
    have := hqi.le_one
    rw [List.length_cons] at this
    exact List.length_eq_zero_iff.mp (by omega)
  have hmain : s.main ≠ .enqueuing := fun he => by cases hqi.enqueuing he
  have hcount := hqi.count
  rw [List.length_singleton] at hcount
  have hwritten := h.count
  exact
    { h.toRegisterInv.congr rfl rfl rfl rfl rfl with
      queue := ⟨[],
        { holds := hholds
          addr := nofun
          count := by rw [List.length_append, List.length_singleton]; exact hcount
          le_one := Nat.zero_le _
          enqueuing := fun _ => rfl }⟩
      last := h.last
      copying := fun v hc => by
        by_cases hv : v = w
        · subst hv
          simp only [System.setWorker, Function.update_self]
          exact ⟨hw, hmain, hcount, l.written[l.decodings.length], List.getElem?_eq_getElem (by omega), rfl⟩
        · simp only [System.setWorker, Function.update_of_ne hv] at hc ⊢
          exact h.copying v hc
      decoded := fun k d hd => by
        by_cases hk : k < l.decodings.length
        · simp only [List.getElem?_append_left hk] at hd
          exact h.decoded k d hd
        · simp only [List.getElem?_append_right (Nat.le_of_not_lt hk), List.getElem?_singleton] at hd
          split at hd <;> cases hd }

/-- The worker goes on with a request that it copies correctly. -/
theorem setWorker (h : WorkersInv s l) {w : Nat} {phase : WorkerPhase} {r : ClientRequest}
    (hc : (s.worker w).Copying) (hr : l.written[l.ticket w]? = some r) (hp : CopiedFrom r phase)
    (hd : ∀ d, phase = .processing d → d = r.contents) :
    WorkersInv (s.setWorker w phase) (l.decode w phase) := by
  obtain ⟨hlt, hmain, hk, -⟩ := h.copying w hc
  obtain ⟨ptrs, hqi⟩ := h.queue
  have hlen : (l.decode w phase).decodings.length = l.decodings.length := by
    unfold Log.decode
    split <;> simp
  have hlog : (l.decode w phase).written = l.written ∧ (l.decode w phase).enqueued = l.enqueued ∧
      (l.decode w phase).ticket = l.ticket := by
    unfold Log.decode
    split <;> exact ⟨rfl, rfl, rfl⟩
  obtain ⟨hw, he, ht⟩ := hlog
  exact
    { h.toRegisterInv.congr rfl rfl rfl hw he with
      queue := ⟨ptrs, { hqi with count := by rw [hlen, he]; exact hqi.count }⟩
      last := by
        rw [hw, he]
        exact h.last
      copying := fun v hv => by
        rw [hw, he, ht]
        by_cases hvw : v = w
        · subst hvw
          simp only [System.setWorker, Function.update_self]
          exact ⟨hlt, hmain, hk, r, hr, hp⟩
        · simp only [System.setWorker, Function.update_of_ne hvw] at hv ⊢
          exact h.copying v hv
      decoded := fun k d hget => by
        rw [hw]
        unfold Log.decode at hget
        split at hget
        · rename_i d'
          rw [List.getElem?_set] at hget
          split at hget
          · rename_i hkw
            subst hkw
            split at hget
            · cases hget
              exact ⟨r, hr, hd _ rfl⟩
            · cases hget
          · exact h.decoded k d hget
        · exact h.decoded k d hget }

/-- The request a worker copies still lies in the buffer. -/
theorem current (h : WorkersInv s l) {w : Nat} (hc : (s.worker w).Copying) :
    ∃ r : ClientRequest, l.written[l.ticket w]? = some r ∧ CopiedFrom r (s.worker w) ∧ r.bytes <+: s.buffer := by
  obtain ⟨-, hmain, hk, r, hr, hcopied⟩ := h.copying w hc
  exact ⟨r, hr, hcopied, h.last hmain _ r hk hr⟩

theorem copyCode (h : WorkersInv s l) {w p : Nat} (hw : s.worker w = .dequeued p) :
    ∃ phase, phase = (if knownCode (s.memory p) then .coded p (s.memory p)
        else .processing (.unknown (s.memory p))) ∧ WorkersInv (s.setWorker w phase) (l.decode w phase) := by
  have hc : (s.worker w).Copying := by rw [hw]; trivial
  obtain ⟨r, hr, hcopied, hpre⟩ := h.current hc
  rw [hw] at hcopied
  obtain rfl : p = bufferAddr := hcopied
  have hcode := code_of_prefix hpre
  rw [hcode, if_pos r.knownCode]
  exact ⟨_, rfl, h.setWorker hc hr ⟨rfl, rfl⟩ nofun⟩

theorem copyPath (h : WorkersInv s l) {w p : Nat} {code : UInt8} (hw : s.worker w = .coded p code) :
    ∃ phase, phase = (if code = listingCode
          then .processing (.listing (removeStringsFromBuffer (s.memory.ptr (p + 1)) sizeofPipePath))
          else .pathed p code (removeStringsFromBuffer (s.memory.ptr (p + 1)) sizeofPipePath)) ∧
      WorkersInv (s.setWorker w phase) (l.decode w phase) := by
  have hc : (s.worker w).Copying := by rw [hw]; trivial
  obtain ⟨r, hr, hcopied, hpre⟩ := h.current hc
  rw [hw] at hcopied
  obtain ⟨rfl, rfl⟩ : p = bufferAddr ∧ code = r.code := hcopied
  cases r with
  | request kind path box =>
      have hne : (ClientRequest.request kind path box).code ≠ listingCode := kind.code_ne
      rw [if_neg hne, (path_of_request hpre).1]
      exact ⟨_, rfl, h.setWorker hc hr ⟨rfl, kind, path, box, rfl, rfl, rfl⟩ nofun⟩
  | listing path =>
      have he : (ClientRequest.listing path).code = listingCode := rfl
      rw [if_pos he, path_of_listing hpre]
      exact ⟨_, rfl, h.setWorker hc hr trivial fun d hd => by cases hd; rfl⟩

theorem copyBox (h : WorkersInv s l) {w p : Nat} {code : UInt8} {path : CString}
    (hw : s.worker w = .pathed p code path) :
    ∃ phase, phase = .processing (.request ⟨code, path,
        removeStringsFromBuffer (s.memory.ptr (p + 1 + sizeofPipePath)) sizeofBoxName⟩) ∧
      WorkersInv (s.setWorker w phase) (l.decode w phase) := by
  have hc : (s.worker w).Copying := by rw [hw]; trivial
  obtain ⟨r, hr, hcopied, hpre⟩ := h.current hc
  rw [hw] at hcopied
  obtain ⟨rfl, kind, path', box, rfl, rfl, rfl⟩ := hcopied
  rw [(path_of_request hpre).2]
  exact ⟨_, rfl, h.setWorker hc hr trivial fun d hd => by cases hd; rfl⟩

theorem finish (h : WorkersInv s l) {w : Nat} : WorkersInv (s.setWorker w .idle) l := by
  obtain ⟨ptrs, hqi⟩ := h.queue
  exact
    { h.toRegisterInv.congr rfl rfl rfl rfl rfl with
      queue := ⟨ptrs, { hqi with }⟩
      last := h.last
      copying := fun v hv => by
        by_cases hvw : v = w
        · subst hvw
          simp [System.setWorker, WorkerPhase.Copying] at hv
        · simp only [System.setWorker, Function.update_of_ne hvw] at hv ⊢
          exact h.copying v hv
      decoded := h.decoded }

theorem step {e : Event} (h : WorkersInv s l) (hg : ReadsWhenDone s e) (hs : LoggedStep (s, l) e (s', l')) :
    WorkersInv s' l' := by
  have hreg := h.toRegisterInv.step hg.readsOne hs
  obtain ⟨hstep, hlog⟩ := hs
  simp only at hstep hlog
  subst hlog
  cases e with
  | write r =>
      cases hstep
      exact h.write r
  | signal =>
      cases hstep
      obtain ⟨ptrs, hqi⟩ := h.queue
      exact { hreg with queue := ⟨ptrs, { hqi with }⟩, last := h.last, copying := h.copying, decoded := h.decoded }
  | interrupted => exact hg.elim
  | test =>
      simp only [Step, Dispatch.step] at hstep
      split at hstep
      · rename_i hmain
        cases hstep
        refine h.of_main hreg rfl rfl rfl rfl (by simp [hmain]) ?_
        simp only
        split <;> simp
      · cases hstep
  | read =>
      simp only [Step, Dispatch.step] at hstep
      split at hstep
      · rename_i hmain hpipe
        cases hstep
        exact h.of_read hreg rfl rfl hg.2.1 hg.2.2 rfl
      · cases hstep
  | enqueue =>
      simp only [Step, Dispatch.step] at hstep
      split at hstep
      · rename_i hmain hq
        cases hstep
        exact h.enqueue hmain hq
      · cases hstep
  | dequeue w =>
      simp only [Step, Dispatch.step] at hstep
      split at hstep
      · rename_i hw hq
        split at hstep
        · rename_i hlt
          cases hstep
          exact h.dequeue hlt hq
        · cases hstep
      · cases hstep
  | copyCode w =>
      simp only [Step, Dispatch.step] at hstep
      split at hstep
      · rename_i p hw
        cases hstep
        obtain ⟨phase, rfl, h'⟩ := h.copyCode hw
        simpa [Log.next, System.setWorker] using h'
      · cases hstep
  | copyPath w =>
      simp only [Step, Dispatch.step] at hstep
      split at hstep
      · rename_i p code hw
        cases hstep
        obtain ⟨phase, rfl, h'⟩ := h.copyPath hw
        simpa [Log.next, System.setWorker] using h'
      · cases hstep
  | copyBox w =>
      simp only [Step, Dispatch.step] at hstep
      split at hstep
      · rename_i p code path hw
        cases hstep
        obtain ⟨phase, rfl, h'⟩ := h.copyBox hw
        simpa [Log.next, System.setWorker] using h'
      · cases hstep
  | finish w =>
      simp only [Step, Dispatch.step] at hstep
      split at hstep
      · rename_i hw
        cases hstep
        exact h.finish
      · cases hstep

end WorkersInv

end Mbroker.Dispatch
