import Mbroker.Lib.Condvar
import Mbroker.Lib.Runs
import Mbroker.Queue.ProducerConsumer

/-!
# The threads of the queue

Any number of threads that call `pcq_enqueue` and `pcq_dequeue`. A step is what a thread does from where it
takes `pcq_current_size_lock` to where it gives it back: it goes through its critical section, or falls asleep
on its condition variable. `pthread_cond_signal` wakes at least one thread if one is asleep; others may wake up
for no reason.
-/

namespace Mbroker.Queue

open Mbroker.Lib

/-- What a thread is in. -/
inductive Call (α : Type)
  | none
  | enqueue (elem : α)
  | dequeue

structure Threads (ι α : Type) where
  queue : PcQueue α
  call : ι → Call α
  pcqPusherCondvar : Condvar ι
  pcqPopperCondvar : Condvar ι

/-- The queue after `pcq_create`, with no thread in a call. -/
def Threads.start {ι α : Type} (buffer : Nat → α) (capacity : Nat) : Threads ι α where
  queue := pcqCreate buffer capacity
  call := fun _ => .none
  pcqPusherCondvar := .empty
  pcqPopperCondvar := .empty

/-- A step of the thread `t`, with the threads that its signal wakes. -/
inductive Event (ι α : Type)
  | call (t : ι) (c : Call α)
  | enqueue (t : ι) (woken : Finset ι)
  | dequeue (t : ι) (woken : Finset ι)
  /-- A thread wakes up for no reason. -/
  | wakePusher (t : ι)
  | wakePopper (t : ι)

variable {ι α : Type} [DecidableEq ι]

/-- The step of a thread; `none` if it cannot take it now. -/
def step (s : Threads ι α) : Event ι α → Option (Threads ι α)
  | .call t c =>
    match s.call t with
    | .none => some { s with call := Function.update s.call t c }
    | _ => none
  | .enqueue t woken =>
    match s.call t with
    | .enqueue elem =>
      if t ∈ s.pcqPusherCondvar.asleep then none
      else
        match pcqEnqueue s.queue elem with
        | none => some { s with pcqPusherCondvar := s.pcqPusherCondvar.sleep t }
        | some queue =>
          if s.pcqPopperCondvar.Signals woken then
            some
              { queue := queue
                call := Function.update s.call t .none
                pcqPusherCondvar := s.pcqPusherCondvar.leave t
                pcqPopperCondvar := s.pcqPopperCondvar.wake woken }
          else none
    | _ => none
  | .dequeue t woken =>
    match s.call t with
    | .dequeue =>
      if t ∈ s.pcqPopperCondvar.asleep then none
      else
        match pcqDequeue s.queue with
        | none => some { s with pcqPopperCondvar := s.pcqPopperCondvar.sleep t }
        | some (_, queue) =>
          if s.pcqPusherCondvar.Signals woken then
            some
              { queue := queue
                call := Function.update s.call t .none
                pcqPusherCondvar := s.pcqPusherCondvar.wake woken
                pcqPopperCondvar := s.pcqPopperCondvar.leave t }
          else none
    | _ => none
  | .wakePusher t =>
    if t ∈ s.pcqPusherCondvar.asleep then
      some { s with pcqPusherCondvar := s.pcqPusherCondvar.wake {t} }
    else none
  | .wakePopper t =>
    if t ∈ s.pcqPopperCondvar.asleep then
      some { s with pcqPopperCondvar := s.pcqPopperCondvar.wake {t} }
    else none

def Step (s : Threads ι α) (e : Event ι α) (s' : Threads ι α) : Prop := step s e = some s'

theorem Step.of_step (s : Threads ι α) (e : Event ι α) (s' : Threads ι α) (h : step s e = some s') : Step s e s' := h

/-! ## What a step can do -/

inductive Outcome (s : Threads ι α) : Event ι α → Threads ι α → Prop
  | call {t c} : s.call t = .none → Outcome s (.call t c) { s with call := Function.update s.call t c }
  | full {t woken elem} : s.call t = .enqueue elem → pcqEnqueue s.queue elem = none →
      Outcome s (.enqueue t woken) { s with pcqPusherCondvar := s.pcqPusherCondvar.sleep t }
  | enqueue {t woken elem queue} : s.call t = .enqueue elem → pcqEnqueue s.queue elem = some queue →
      s.pcqPopperCondvar.Signals woken → Outcome s (.enqueue t woken)
        { queue := queue
          call := Function.update s.call t .none
          pcqPusherCondvar := s.pcqPusherCondvar.leave t
          pcqPopperCondvar := s.pcqPopperCondvar.wake woken }
  | empty {t woken} : s.call t = .dequeue → pcqDequeue s.queue = none →
      Outcome s (.dequeue t woken) { s with pcqPopperCondvar := s.pcqPopperCondvar.sleep t }
  | dequeue {t woken elem queue} : s.call t = .dequeue → pcqDequeue s.queue = some (elem, queue) →
      s.pcqPusherCondvar.Signals woken → Outcome s (.dequeue t woken)
        { queue := queue
          call := Function.update s.call t .none
          pcqPusherCondvar := s.pcqPusherCondvar.wake woken
          pcqPopperCondvar := s.pcqPopperCondvar.leave t }
  | wakePusher {t} : t ∈ s.pcqPusherCondvar.asleep →
      Outcome s (.wakePusher t) { s with pcqPusherCondvar := s.pcqPusherCondvar.wake {t} }
  | wakePopper {t} : t ∈ s.pcqPopperCondvar.asleep →
      Outcome s (.wakePopper t) { s with pcqPopperCondvar := s.pcqPopperCondvar.wake {t} }

theorem Step.outcome {s s' : Threads ι α} {e : Event ι α} (h : Step s e s') : Outcome s e s' := by
  unfold Step at h
  cases e with
  | call t c =>
      simp only [step] at h
      split at h
      · rename_i ht
        cases h
        exact .call ht
      · cases h
  | enqueue t woken =>
      simp only [step] at h
      split at h
      · rename_i elem ht
        split at h
        · cases h
        · split at h
          · rename_i hfull
            cases h
            exact .full ht hfull
          · rename_i queue he
            split at h
            · rename_i hsignal
              cases h
              exact .enqueue ht he hsignal
            · cases h
      · cases h
  | dequeue t woken =>
      simp only [step] at h
      split at h
      · rename_i ht
        split at h
        · cases h
        · split at h
          · rename_i hempty
            cases h
            exact .empty ht hempty
          · rename_i elem queue he
            split at h
            · rename_i hsignal
              cases h
              exact .dequeue ht he hsignal
            · cases h
      · cases h
  | wakePusher t =>
      simp only [step] at h
      split at h
      · rename_i ht
        cases h
        exact .wakePusher ht
      · cases h
  | wakePopper t =>
      simp only [step] at h
      split at h
      · rename_i ht
        cases h
        exact .wakePopper ht
      · cases h

/-! ## What a run has done so far -/

/-- The elements that went in and those that `pcq_dequeue` returned, in the order of the critical sections, and how
often each slot of the buffer was written and read. -/
structure Log (α : Type) where
  enqueued : List α
  dequeued : List α
  writes : Nat → Nat
  reads : Nat → Nat

namespace Log

def empty : Log α := ⟨[], [], fun _ => 0, fun _ => 0⟩

def next (l : Log α) (s : Threads ι α) : Event ι α → Log α
  | .enqueue t _ =>
    match s.call t with
    | .enqueue elem =>
      if s.queue.pcqCurrentSize = s.queue.pcqCapacity then l
      else
        { l with
          enqueued := l.enqueued ++ [elem]
          writes := Function.update l.writes s.queue.pcqTail (l.writes s.queue.pcqTail + 1) }
    | _ => l
  | .dequeue t _ =>
    match s.call t with
    | .dequeue =>
      match pcqDequeue s.queue with
      | none => l
      | some (elem, _) =>
        { l with
          dequeued := l.dequeued ++ [elem]
          reads := Function.update l.reads s.queue.pcqHead (l.reads s.queue.pcqHead + 1) }
    | _ => l
  | _ => l

end Log

/-- A step, recorded in the log. -/
def loggedStep (x : Threads ι α × Log α) (e : Event ι α) : Option (Threads ι α × Log α) :=
  (step x.1 e).map fun s' => (s', x.2.next x.1 e)

def LoggedStep (x : Threads ι α × Log α) (e : Event ι α) (x' : Threads ι α × Log α) : Prop := loggedStep x e = some x'

theorem LoggedStep.of_loggedStep (x : Threads ι α × Log α) (e : Event ι α) (x' : Threads ι α × Log α)
    (h : loggedStep x e = some x') : LoggedStep x e x' := h

theorem LoggedStep.outcome {x x' : Threads ι α × Log α} {e : Event ι α} (h : LoggedStep x e x') :
    Outcome x.1 e x'.1 ∧ x'.2 = x.2.next x.1 e := by
  obtain ⟨s', hs', rfl⟩ := Option.map_eq_some_iff.mp h
  exact ⟨Step.outcome hs', rfl⟩

end Mbroker.Queue
