import Mbroker.Dispatch.Workers
import Mbroker.Dispatch.Tickets
import Mbroker.Sessions.Answers

/-!
# The whole of mbroker

`mbroker.c` from the clients' writes to the register pipe to the answers: the loop of `main`, the queue, and for every
worker the round of its loop. A worker that has copied a request goes to the case for it, and back to the queue when it
is through with the case.
-/

namespace Mbroker.Server

open Mbroker.Lib Mbroker.Protocol Mbroker.Sessions

structure Process where
  system : Dispatch.System
  broker : Broker

namespace Process

/-- The process before the loop of `main`. -/
structure Started (s : Process) : Prop where
  system : s.system.Started
  broker : s.broker.Started
  numThreads : s.broker.numThreads = s.system.numThreads

/-- The queue has twice as many places as there are workers. -/
def start (numThreads : Nat) : Process := ⟨.start (2 * numThreads) numThreads, .start numThreads⟩

theorem start_started (numThreads : Nat) : (start numThreads).Started where
  system := Dispatch.System.start_started _ _
  broker := Broker.start_started numThreads
  numThreads := rfl

end Process

/-! ## Steps -/

inductive Event
  /-- A step of a client, of `main`, or of a worker outside the cases. -/
  | dispatch (e : Dispatch.Event)
  /-- A step of a worker in its case. -/
  | session (e : Sessions.Event)

/-- The worker that has got all of its request by this step, and the request. -/
def decoded (system : Dispatch.System) (e : Dispatch.Event) : Option (Nat × Dispatch.Decoded) :=
  e.copier.bind fun w =>
    match system.worker w with
    | .processing d => some (w, d)
    | _ => none

/-- A worker that is done with its request is through with the case. -/
def Leaves (broker : Broker) : Dispatch.Event → Bool
  | .finish w => (broker.phase w).isIdle
  | _ => true

/-- The step; `none` if it cannot be taken now. -/
def step (s : Process) : Event → Option Process
  | .dispatch e =>
    if Leaves s.broker e then
      (Dispatch.step s.system e).bind fun system =>
        match decoded system e with
        | some (w, d) => (Sessions.step s.broker (.take w d)).map fun broker => ⟨system, broker⟩
        | none => some ⟨system, s.broker⟩
    else none
  | .session (.take _ _) => none
  | .session e => (Sessions.step s.broker e).map fun broker => ⟨s.system, broker⟩

/-! ## What a run has done so far -/

/-- A request that a worker is done with: the number of its pointer, the worker, the list as it found it, the steps of
the case, and what was written to the client. -/
structure Job where
  ticket : Nat
  worker : Nat
  list : BoxList
  trace : List Sessions.Event
  output : List Output

structure Record where
  log : Dispatch.Log
  handled : Handled
  finished : List Job

namespace Record

def empty : Record := ⟨.empty, .empty, []⟩

/-- The numbers of the pointers that workers are done with. -/
def done (r : Record) : List Nat := r.finished.map Job.ticket

def next (r : Record) (s : Process) (e : Event) (s' : Process) : Record :=
  match e with
  | .dispatch e =>
    { log := r.log.next s.system s'.system e
      handled :=
        match decoded s'.system e with
        | some (w, d) => handle r.handled s.broker (.take w d) s'.broker
        | none => r.handled
      finished :=
        match e with
        | .finish w => r.finished ++ [⟨r.log.ticket w, w, r.handled.list w, r.handled.trace w, s.broker.output w⟩]
        | _ => r.finished }
  | .session e => { r with handled := handle r.handled s.broker e s'.broker }

end Record

/-- A step of the server, with the record beside it. -/
def Step (x : Process × Record) (e : Event) (x' : Process × Record) : Prop := withRecord step Record.next x e = some x'

theorem Step.of_withRecord (x : Process × Record) (e : Event) (x' : Process × Record)
    (h : withRecord step Record.next x e = some x') : Step x e x' := h

theorem Step.of_step {x : Process × Record} {e : Event} (s' : Process) (h : step x.1 e = some s') :
    Step x e (s', x.2.next x.1 e s') := withRecord_eq_some.mpr ⟨h, rfl⟩

/-! ## What a step can do -/

inductive Outcome (x : Process × Record) : Event → Process × Record → Prop
  /-- Nothing happens in the cases. -/
  | dispatch {e : Dispatch.Event} {system log} : Dispatch.LoggedStep (x.1.system, x.2.log) e (system, log) →
      decoded system e = none → (∀ w, e ≠ .finish w) →
      Outcome x (.dispatch e) (⟨system, x.1.broker⟩, { x.2 with log := log })
  | decode {e : Dispatch.Event} {w : Nat} {d : Dispatch.Decoded} {system log} {b : Broker} {h : Handled} :
      Dispatch.LoggedStep (x.1.system, x.2.log) e (system, log) → decoded system e = some (w, d) →
      HandleStep (x.1.broker, x.2.handled) (.take w d) (b, h) →
      Outcome x (.dispatch e) (⟨system, b⟩, { x.2 with log := log, handled := h })
  | finish {w : Nat} {system log} : Dispatch.LoggedStep (x.1.system, x.2.log) (.finish w) (system, log) →
      x.1.broker.phase w = .idle →
      Outcome x (.dispatch (.finish w)) (⟨system, x.1.broker⟩, { x.2 with
        log := log
        finished := x.2.finished ++
          [⟨x.2.log.ticket w, w, x.2.handled.list w, x.2.handled.trace w, x.1.broker.output w⟩] })
  | session {e : Sessions.Event} {b : Broker} {h : Handled} : (∀ w d, e ≠ .take w d) →
      HandleStep (x.1.broker, x.2.handled) e (b, h) →
      Outcome x (.session e) (⟨x.1.system, b⟩, { x.2 with handled := h })

theorem decoded_eq_some {system : Dispatch.System} {e : Dispatch.Event} {w : Nat} {d : Dispatch.Decoded} :
    decoded system e = some (w, d) ↔ e.copier = some w ∧ system.worker w = .processing d := by
  unfold decoded
  cases e.copier with
  | none => simp
  | some v =>
      cases hv : system.worker v with
      | processing d' =>
          simp only [Option.bind_some, hv, Option.some.injEq, Prod.mk.injEq]
          constructor
          · rintro ⟨rfl, rfl⟩
            exact ⟨rfl, hv⟩
          · rintro ⟨rfl, hw⟩
            rw [hv] at hw
            cases hw
            exact ⟨rfl, rfl⟩
      | _ =>
          simp only [Option.bind_some, hv, reduceCtorEq, Option.some.injEq, false_iff, not_and]
          rintro rfl hw
          rw [hv] at hw
          cases hw

theorem Step.outcome {x x' : Process × Record} {e : Event} (h : Step x e x') : Outcome x e x' := by
  obtain ⟨hs, hr⟩ := withRecord_eq_some.mp h
  obtain ⟨s', r'⟩ := x'
  simp only at hs hr
  subst hr
  cases e with
  | dispatch e =>
      simp only [step] at hs
      split at hs
      · rename_i hleaves
        obtain ⟨system, hsystem, hs⟩ := Option.bind_eq_some_iff.mp hs
        have hlogged : Dispatch.LoggedStep (x.1.system, x.2.log) e
            (system, x.2.log.next x.1.system system e) := ⟨hsystem, rfl⟩
        cases hd : decoded system e with
        | some wd =>
            obtain ⟨w, d⟩ := wd
            rw [hd] at hs
            obtain ⟨b, hb, hs⟩ := Option.map_eq_some_iff.mp hs
            subst hs
            have hhandle : HandleStep (x.1.broker, x.2.handled) (.take w d)
                (b, handle x.2.handled x.1.broker (.take w d) b) := withRecord_eq_some.mpr ⟨hb, rfl⟩
            have hout := Outcome.decode hlogged hd hhandle
            have hcopier := (decoded_eq_some.mp hd).1
            cases e with
            | copyCode | copyPath | copyBox =>
                simp only [Record.next, hd]
                exact hout
            | _ => cases hcopier
        | none =>
            rw [hd] at hs
            cases hs
            cases e with
            | finish w =>
                have hidle : x.1.broker.phase w = .idle := by
                  simp only [Leaves] at hleaves
                  cases hw : x.1.broker.phase w with
                  | idle => rfl
                  | _ => rw [hw] at hleaves; cases hleaves
                simp only [Record.next, hd]
                exact .finish hlogged hidle
            | _ =>
                simp only [Record.next, hd]
                exact .dispatch hlogged hd nofun
      · cases hs
  | session e =>
      have hne : ∀ w d, e ≠ .take w d := by
        rintro w d rfl
        cases hs
      have hs' : (Sessions.step x.1.broker e).map (fun broker => (⟨x.1.system, broker⟩ : Process)) = some s' := by
        cases e with
        | take w d => exact absurd rfl (hne w d)
        | _ => exact hs
      obtain ⟨b, hb, rfl⟩ := Option.map_eq_some_iff.mp hs'
      exact .session hne (withRecord_eq_some.mpr ⟨hb, rfl⟩)

end Mbroker.Server
