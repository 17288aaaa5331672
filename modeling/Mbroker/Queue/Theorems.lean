import Mbroker.Queue.Threads

/-!
# Runs of the queue

For every capacity, any number of threads and every order of their steps: the queue is a bounded FIFO, and no
wake-up is lost.
-/

namespace Mbroker.Queue

open Mbroker.Lib

variable {ι α : Type} {s s' : Threads ι α} {l : Log α} {e : Event ι α} {capacity : Nat}
  {buffer : Nat → α} {es : List (Event ι α)}

/-! ## The invariant of the ring -/

/-- What went in came out or is in the ring, and the slots in use are those written once more than read. -/
structure RingInv (capacity : Nat) (s : Threads ι α) (l : Log α) : Prop where
  cap : s.queue.pcqCapacity = capacity
  holds : ∃ xs, Holds s.queue xs ∧ l.dequeued ++ xs = l.enqueued
  slots : ∀ j, l.writes j = l.reads j + if s.queue.Occupied j then 1 else 0
  inside : ∀ j, capacity ≤ j → l.writes j = 0

theorem RingInv.start : RingInv capacity (Threads.start buffer capacity : Threads ι α) .empty where
  cap := rfl
  holds := ⟨[], pcqCreate_holds _ _, rfl⟩
  slots := fun j => by
    have hfree : ¬ (Threads.start buffer capacity : Threads ι α).queue.Occupied j := by
      rintro ⟨i, hi, -⟩
      exact Nat.not_lt_zero i hi
    simp [Log.empty, hfree]
  inside := fun _ _ => rfl

namespace RingInv

/-- A thread that only sleeps or wakes up leaves the ring as it is. -/
theorem of_queue (h : RingInv capacity s l) (hq : s'.queue = s.queue) : RingInv capacity s' l where
  cap := by rw [hq]; exact h.cap
  holds := by rw [hq]; exact h.holds
  slots := by rw [hq]; exact h.slots
  inside := h.inside

theorem enqueue (h : RingInv capacity s l) {elem : α} {queue : PcQueue α}
    (he : pcqEnqueue s.queue elem = some queue) (hq : s'.queue = queue) : RingInv capacity s'
      { l with
        enqueued := l.enqueued ++ [elem]
        writes := Function.update l.writes s.queue.pcqTail (l.writes s.queue.pcqTail + 1) } := by
  obtain ⟨xs, hxs, hlog⟩ := h.holds
  obtain ⟨hfree, hlt, hocc⟩ := hxs.occupied_enqueue he
  subst hq
  refine ⟨?_, ⟨_, hxs.enqueue he, by rw [← List.append_assoc, hlog]⟩, fun j => ?_, fun j hj => ?_⟩
  · rw [(pcqEnqueue_eq_some.mp he).2]
    exact h.cap
  · by_cases hj : j = s.queue.pcqTail
    · subst hj
      have hold := h.slots s.queue.pcqTail
      rw [if_neg hfree] at hold
      simp only [Function.update_self, hocc, true_or, ↓reduceIte, hold, Nat.add_zero]
    · simp only [Function.update_of_ne hj, hocc, hj, false_or]
      exact h.slots j
  · rw [h.cap] at hlt
    simp only [Function.update_of_ne (show j ≠ s.queue.pcqTail by omega)]
    exact h.inside j hj

theorem dequeue (h : RingInv capacity s l) {elem : α} {queue : PcQueue α}
    (he : pcqDequeue s.queue = some (elem, queue)) (hq : s'.queue = queue) : RingInv capacity s'
      { l with
        dequeued := l.dequeued ++ [elem]
        reads := Function.update l.reads s.queue.pcqHead (l.reads s.queue.pcqHead + 1) } := by
  obtain ⟨xs, hxs, hlog⟩ := h.holds
  obtain ⟨hused, -, hocc⟩ := hxs.occupied_dequeue he
  obtain ⟨ys, rfl, hys⟩ := hxs.dequeue he
  obtain ⟨-, -, hqueue⟩ := pcqDequeue_eq_some.mp he
  subst hq
  refine ⟨?_, ⟨ys, hys, by rw [← hlog]; simp⟩, fun j => ?_, h.inside⟩
  · rw [hqueue]
    exact h.cap
  · by_cases hj : j = s.queue.pcqHead
    · subst hj
      have hold := h.slots s.queue.pcqHead
      rw [if_pos hused] at hold
      simp [hocc, hold]
    · simp only [Function.update_of_ne hj, hocc, hj, ne_eq, not_false_eq_true, true_and]
      exact h.slots j

end RingInv

/-! ## The invariant of the condition variables -/

/-- The woken threads are enough for the elements, and for the free slots. -/
structure WakeInv (capacity : Nat) (s : Threads ι α) : Prop where
  cap : s.queue.pcqCapacity = capacity
  size_le : s.queue.pcqCurrentSize ≤ capacity
  popper : s.pcqPopperCondvar.Covers s.queue.pcqCurrentSize
  pusher : s.pcqPusherCondvar.Covers (capacity - s.queue.pcqCurrentSize)

theorem WakeInv.start : WakeInv capacity (Threads.start buffer capacity : Threads ι α) where
  cap := rfl
  size_le := Nat.zero_le _
  popper := Condvar.empty_covers
  pusher := Condvar.empty_covers

/-! ## Steps -/

variable [DecidableEq ι]

theorem RingInv.step (h : RingInv capacity s l) (ho : Outcome s e s') : RingInv capacity s' (l.next s e) := by
  cases ho with
  | call ht => exact h.of_queue rfl
  | @full t woken elem ht he =>
      have hfull : s.queue.pcqCurrentSize = s.queue.pcqCapacity := by
        by_contra hne
        simp [pcqEnqueue, hne] at he
      simp only [Log.next, ht, hfull, ↓reduceIte]
      exact h.of_queue rfl
  | enqueue ht he =>
      simp only [Log.next, ht, (pcqEnqueue_eq_some.mp he).1, ↓reduceIte]
      exact h.enqueue he rfl
  | empty ht he =>
      simp only [Log.next, ht, he]
      exact h.of_queue rfl
  | dequeue ht he =>
      simp only [Log.next, ht, he]
      exact h.dequeue he rfl
  | wakePusher ht => exact h.of_queue rfl
  | wakePopper ht => exact h.of_queue rfl

theorem WakeInv.step (h : WakeInv capacity s) (ho : Outcome s e s') : WakeInv capacity s' := by
  have hcap := h.cap
  have hsize := h.size_le
  cases ho with
  | call ht => exact ⟨hcap, hsize, h.popper, h.pusher⟩
  | full ht he =>
      have hfull : s.queue.pcqCurrentSize = s.queue.pcqCapacity := by
        by_contra hne
        simp [pcqEnqueue, hne] at he
      exact ⟨hcap, hsize, h.popper, Condvar.Covers.sleep.mono (by simp only; omega)⟩
  | enqueue ht he hsignal =>
      obtain ⟨hfull, rfl⟩ := pcqEnqueue_eq_some.mp he
      refine ⟨hcap, by simp only; omega, h.popper.signal hsignal, Condvar.Covers.leave (h.pusher.mono ?_)⟩
      simp only
      omega
  | empty ht he =>
      have hempty : s.queue.pcqCurrentSize = 0 := by
        by_contra hne
        simp [pcqDequeue, hne] at he
      exact ⟨hcap, hsize, Condvar.Covers.sleep.mono (by simp only; omega), h.pusher⟩
  | dequeue ht he hsignal =>
      obtain ⟨hempty, -, rfl⟩ := pcqDequeue_eq_some.mp he
      refine ⟨hcap, by simp only; omega, Condvar.Covers.leave (h.popper.mono ?_),
        (h.pusher.signal hsignal).mono ?_⟩
      · simp only
        omega
      · simp only
        omega
  | wakePusher ht => exact ⟨hcap, hsize, h.popper, h.pusher.wake (Finset.singleton_subset_iff.mpr ht)⟩
  | wakePopper ht => exact ⟨hcap, hsize, h.popper.wake (Finset.singleton_subset_iff.mpr ht), h.pusher⟩

/-! ## A bounded FIFO -/

/-- What came out and what is in the ring is what went in, in order; every slot is written and read in turn, and
the remainder is taken only where the capacity is not 0. -/
theorem queue_fifo (hrun : Steps LoggedStep (Threads.start buffer capacity, .empty) es (s, l)) :
    s.queue.pcqCapacity = capacity ∧ s.queue.pcqCurrentSize ≤ capacity ∧
      l.dequeued ++ s.queue.contents = l.enqueued ∧
      (∀ j, l.reads j ≤ l.writes j ∧ l.writes j ≤ l.reads j + 1 ∧ (capacity ≤ j → l.writes j = 0)) ∧
      (0 < capacity → s.queue.pcqTail = (s.queue.pcqHead + s.queue.pcqCurrentSize) % capacity) ∧
      (∀ elem queue, pcqEnqueue s.queue elem = some queue → 0 < capacity) ∧
      (∀ elem queue, pcqDequeue s.queue = some (elem, queue) → 0 < capacity) := by
  have hinv : RingInv capacity s l := by
    refine hrun.invariant (I := fun x => RingInv capacity x.1 x.2) (fun x e x' hx hs => ?_) RingInv.start
    obtain ⟨ho, hlog⟩ := hs.outcome
    rw [hlog]
    exact hx.step ho
  obtain ⟨xs, hxs, hlog⟩ := hinv.holds
  have hle : s.queue.pcqCurrentSize ≤ capacity := by
    rw [hxs.size, ← hinv.cap]
    exact hxs.le
  refine ⟨hinv.cap, hle, by rw [hxs.contents_eq, hlog], fun j => ?_, fun _ => ?_, fun elem queue he => ?_,
    fun elem queue he => ?_⟩
  · have hslot := hinv.slots j
    refine ⟨by omega, ?_, hinv.inside j⟩
    split at hslot <;> omega
  · rw [← hinv.cap, hxs.size]
    exact hxs.tail
  · obtain ⟨hfull, -⟩ := pcqEnqueue_eq_some.mp he
    rw [hinv.cap] at hfull
    omega
  · obtain ⟨hempty, -⟩ := pcqDequeue_eq_some.mp he
    omega

/-- A producer waits for a slot, and a consumer wakes it. -/
def fullQueue : List (Event Nat Nat) :=
  [.call 0 (.enqueue 5), .enqueue 0 ∅, .call 1 (.enqueue 6), .enqueue 1 ∅, .call 2 .dequeue, .dequeue 2 {1},
    .enqueue 1 ∅]

theorem queue_fifo_full : ∃ x : Threads Nat Nat × Log Nat,
    Steps LoggedStep (Threads.start (fun _ => 0) 1, .empty) fullQueue x ∧
    x.2.dequeued = [5] ∧ x.2.dequeued ++ x.1.queue.contents = x.2.enqueued := by
  obtain ⟨x, hrun, hout⟩ := exists_steps (fun x : Threads Nat Nat × Log Nat => x.2.dequeued = [5])
    LoggedStep.of_loggedStep (Threads.start (fun _ => 0) 1, .empty) fullQueue (by decide +kernel)
  exact ⟨x, hrun, hout, (queue_fifo hrun).2.2.1⟩

/-! ## No lost wake-up -/

/-- No consumer sleeps on an element and no producer on a free slot unless another one is on its way to it, and
they do not all sleep. -/
theorem queue_wakes (hrun : Steps Step (Threads.start buffer capacity) es s) :
    ¬ (0 < s.queue.pcqCurrentSize ∧ s.pcqPopperCondvar.asleep.Nonempty ∧ s.pcqPopperCondvar.woken = ∅) ∧
      ¬ (s.queue.pcqCurrentSize < s.queue.pcqCapacity ∧ s.pcqPusherCondvar.asleep.Nonempty ∧
        s.pcqPusherCondvar.woken = ∅) ∧
      ¬ (0 < s.queue.pcqCapacity ∧ s.pcqPusherCondvar.asleep.Nonempty ∧ s.pcqPopperCondvar.asleep.Nonempty ∧
        s.pcqPusherCondvar.woken = ∅ ∧ s.pcqPopperCondvar.woken = ∅) := by
  have hinv : WakeInv capacity s := hrun.invariant (fun _ _ _ hx hs => hx.step hs.outcome) WakeInv.start
  have hcap := hinv.cap
  have hpopper : s.pcqPopperCondvar.asleep.Nonempty → s.pcqPopperCondvar.woken = ∅ →
      s.queue.pcqCurrentSize = 0 := by
    intro hs hw
    have hle := hinv.popper hs
    rw [hw, Finset.card_empty] at hle
    omega
  have hpusher : s.pcqPusherCondvar.asleep.Nonempty → s.pcqPusherCondvar.woken = ∅ →
      capacity ≤ s.queue.pcqCurrentSize := by
    intro hs hw
    have hle := hinv.pusher hs
    rw [hw, Finset.card_empty] at hle
    omega
  refine ⟨?_, ?_, ?_⟩
  · rintro ⟨hsize, hs, hw⟩
    rw [hpopper hs hw] at hsize
    exact Nat.lt_irrefl _ hsize
  · rintro ⟨hsize, hs, hw⟩
    have hfull := hpusher hs hw
    omega
  · rintro ⟨hpos, hs, hs', hw, hw'⟩
    have hempty := hpopper hs' hw'
    have hfull := hpusher hs hw
    omega

/-- A consumer waits for an element, and a producer wakes it. -/
def emptyQueue : List (Event Nat Nat) :=
  [.call 0 .dequeue, .dequeue 0 ∅, .call 1 (.enqueue 5), .enqueue 1 {0}]

theorem queue_wakes_empty : ∃ s : Threads Nat Nat, Steps Step (Threads.start (fun _ => 0) 1) emptyQueue s ∧
    s.pcqPopperCondvar.woken = {0} ∧
    ¬ (0 < s.queue.pcqCurrentSize ∧ s.pcqPopperCondvar.asleep.Nonempty ∧ s.pcqPopperCondvar.woken = ∅) := by
  obtain ⟨s, hrun, hwoken⟩ := exists_steps (fun s : Threads Nat Nat => s.pcqPopperCondvar.woken = {0})
    Step.of_step (Threads.start (fun _ => 0) 1) emptyQueue (by decide +kernel)
  exact ⟨s, hrun, hwoken, (queue_wakes hrun).1⟩

end Mbroker.Queue
