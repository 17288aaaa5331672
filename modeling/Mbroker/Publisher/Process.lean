import Mbroker.Publisher.Input

/-!
# The publisher

`publisher/pub.c` from its probe on, for a session that was accepted: the lines of its input, the two signals, and the
worker at the other end of the pipe.
-/

namespace Mbroker.Publisher

open Mbroker.Lib Mbroker.Protocol

/-! ## The state -/

structure Process where
  session : Session
  stdin : List UInt8
  /-- `end` -/
  ended : Bool
  /-- Whether "BOX NOT FOUND" was printed. -/
  notFound : Bool

/-- The publisher with its input, at its probe. -/
structure Process.Accepted (p : Process) (input : List UInt8) : Prop where
  session : p.session.Accepted
  stdin : p.stdin = input
  notFound : p.notFound = false

def Process.start (input : List UInt8) : Process := ⟨.start, input, false, false⟩

theorem Process.start_accepted (input : List UInt8) : (Process.start input).Accepted input :=
  ⟨Session.start_accepted, rfl, rfl⟩

/-! ## Steps -/

inductive ProcessEvent
  /-- `end = 0`, and the probe. -/
  | test
  /-- A round of the loop: the next line is sent, or there is none and the pipe is closed. -/
  | line
  /-- A round in which the worker has closed its end: SIGPIPE, and the publisher exits. -/
  | sigpipe
  /-- The test of the loop fails. -/
  | leave
  /-- SIGINT -/
  | sigint
  /-- A step of the worker. -/
  | worker (e : Event)

def Event.isWorker : Event → Bool
  | .read | .eof | .write _ => true
  | _ => false

/-- A step of the session, with what is left of the input. -/
def Process.next (x : Process × Log) (e : Event) (p : Process) : Option (Process × Log) :=
  (loggedStep (x.1.session, x.2) e).map fun y => ({ p with session := y.1 }, y.2)

/-- The step; `none` if it cannot be taken now. -/
def processStep (x : Process × Log) : ProcessEvent → Option (Process × Log)
  | .test => Process.next x .test { x.1 with ended := false }
  | .line =>
    if x.1.ended then none
    else
      match nextLine x.1.stdin with
      | none => Process.next x .close x.1
      | some r => Process.next x (.send r.1) { x.1 with stdin := r.2 }
  | .sigpipe =>
    if x.1.ended ∨ x.1.session.worker ≠ .ended then none
    else
      match nextLine x.1.stdin with
      | none => none
      | some r => Process.next x .close { x.1 with stdin := r.2, ended := true, notFound := true }
  | .leave => if x.1.ended then Process.next x .close x.1 else none
  | .sigint => some ({ x.1 with ended := true }, x.2)
  | .worker e => if e.isWorker then Process.next x e x.1 else none

def ProcessStep (x : Process × Log) (e : ProcessEvent) (x' : Process × Log) : Prop := processStep x e = some x'

theorem ProcessStep.of_processStep (x : Process × Log) (e : ProcessEvent) (x' : Process × Log)
    (h : processStep x e = some x') : ProcessStep x e x' := h

/-- The first read of the worker finds nothing but the probe. -/
def ProbesAlone (x : Process × Log) : ProcessEvent → Prop
  | .worker e => TestsAlone x.1.session e
  | _ => True

instance (x : Process × Log) : DecidablePred (ProbesAlone x)
  | .worker e => inferInstanceAs (Decidable (TestsAlone x.1.session e))
  | .test | .line | .sigpipe | .leave | .sigint => isTrue trivial

/-! ## What every run keeps -/

/-- What was sent and what is still to be read are the texts of the input, unless the box has filled up. -/
structure InputInv (input : List UInt8) (x : Process × Log) : Prop where
  session : SessionInv x.1.session x.2
  sent : x.2.sent <+: texts input
  rest : x.1.notFound = false → x.2.sent ++ texts x.1.stdin = texts input
  full : x.1.notFound = true → x.2.full = true ∧ x.1.ended = true ∧ x.1.session.client = .closed
  closed : x.1.session.client = .closed → x.1.ended = true ∨ x.1.stdin = []

variable {input : List UInt8} {x x' : Process × Log} {p : Process} {e : Event}

theorem Process.Accepted.inputInv (h : p.Accepted input) : InputInv input (p, .empty) where
  session := h.session.sessionInv
  sent := List.nil_prefix
  rest := fun _ => congrArg texts h.stdin
  full := fun hf => by
    have hf : p.notFound = true := hf
    rw [h.notFound] at hf
    cases hf
  closed := fun hc => by
    have hc : p.session.client = .closed := hc
    rw [h.session.client] at hc
    cases hc

theorem nextLine_eq_none (h : nextLine input = none) : input = [] := by
  unfold nextLine at h
  split at h
  · assumption
  · cases h

theorem texts_of_nextLine {r : Line × List UInt8} (h : nextLine input = some r) :
    texts input = r.1.1 :: texts r.2 := by
  unfold nextLine at h
  split at h
  · cases h
  · rename_i hne
    cases h
    exact texts_eq hne

/-- A step of the process is one of the session. -/
theorem Process.next_eq_some (h : Process.next x e p = some x') :
    ∃ s' l', LoggedStep (x.1.session, x.2) e (s', l') ∧ x' = ({ p with session := s' }, l') := by
  obtain ⟨y, hy, rfl⟩ := Option.map_eq_some_iff.mp h
  exact ⟨y.1, y.2, .of_loggedStep _ _ _ hy, rfl⟩

/-! ## Steps of the session -/

section Logged

variable {s s' : Session} {l l' : Log}

theorem LoggedStep.test (h : LoggedStep (s, l) .test (s', l')) :
    s.client = .testing ∧ s'.client = .sending ∧ l' = l := by
  obtain ⟨hs, hlog⟩ := h
  simp only [Step, step] at hs
  split at hs
  · rename_i hc
    cases hs
    exact ⟨hc, rfl, hlog⟩
  · cases hs

theorem LoggedStep.close (h : LoggedStep (s, l) .close (s', l')) :
    s.client = .sending ∧ s'.client = .closed ∧ l' = l := by
  obtain ⟨hs, hlog⟩ := h
  simp only [Step, step] at hs
  split at hs
  · rename_i hc
    cases hs
    exact ⟨hc, rfl, hlog⟩
  · cases hs

theorem LoggedStep.send {line : Line} (h : LoggedStep (s, l) (.send line) (s', l')) :
    s.client = .sending ∧ s'.client = .sending ∧ l' = { l with sent := l.sent ++ [line.1] } := by
  obtain ⟨hs, hlog⟩ := h
  simp only [Step, step] at hs
  split at hs
  · rename_i hc
    cases hs
    exact ⟨hc, hc, hlog⟩
  · cases hs

theorem LoggedStep.worker (h : LoggedStep (s, l) e (s', l')) (he : e.isWorker = true) :
    s'.client = s.client ∧ l'.sent = l.sent ∧ (l.full = true → l'.full = true) := by
  obtain ⟨hs, hlog⟩ := h
  simp only [Step] at hs hlog
  subst hlog
  cases e with
  | test | send | close => cases he
  | read =>
      simp only [step] at hs
      split at hs
      · cases hs
      · split at hs
        all_goals cases hs
        all_goals exact ⟨rfl, rfl, id⟩
  | eof =>
      simp only [step] at hs
      split at hs
      · split at hs
        all_goals cases hs
        all_goals exact ⟨rfl, rfl, id⟩
      · cases hs
  | write bytesWritten =>
      simp only [step] at hs
      split at hs
      · rename_i message hw
        cases hs
        have hnext : l.next s (.write bytesWritten) =
            { l with passed := l.passed ++ [message], full := l.full || bytesWritten ≤ 0 } := by
          simp only [Log.next, hw]
        rw [hnext]
        exact ⟨rfl, rfl, fun hf => by rw [hf, Bool.true_or]⟩
      · cases hs

/-- What was sent and not passed to `tfs_write` yet: nothing, once the pipe is drained and the box did not fill up. -/
theorem SessionInv.rest (h : SessionInv s l) : ∃ rest, l.sent = l.passed ++ rest ∧
    (s.pipe = [] → (∀ message, s.worker ≠ .writing message) → l.full = false → rest = []) := by
  have hwhole := h.whole
  unfold Whole at hwhole
  cases hw : s.worker with
  | testing =>
      rw [hw] at hwhole
      obtain ⟨hpassed, ⟨-, hsent, -⟩ | ⟨-, hpipe⟩⟩ := hwhole
      · exact ⟨[], by rw [hsent, hpassed]; rfl, fun _ _ _ => rfl⟩
      · refine ⟨l.sent, by rw [hpassed]; rfl, fun hnil => ?_⟩
        rw [hnil] at hpipe
        simp [messageTest] at hpipe
  | reading =>
      rw [hw] at hwhole
      obtain ⟨rest, hsent, hpipe, -⟩ := hwhole
      exact ⟨rest, hsent, fun hnil _ _ => messageBytes_eq_nil.mp (hpipe.symm.trans hnil)⟩
  | writing message =>
      rw [hw] at hwhole
      obtain ⟨rest, hsent, -⟩ := hwhole
      exact ⟨message :: rest, hsent, fun _ hne => absurd rfl (hne message)⟩
  | ended =>
      rw [hw] at hwhole
      obtain ⟨rest, hsent, -, hend⟩ := hwhole
      exact ⟨rest, hsent, fun _ _ hfull => (hend hfull).1⟩

/-- The worker ends before the publisher only if the box has filled up. -/
theorem SessionInv.full_of_ended (h : SessionInv s l) (hw : s.worker = .ended) (hc : s.client = .sending) :
    l.full = true := by
  have hwhole := h.whole
  simp only [Whole, hw] at hwhole
  obtain ⟨rest, -, -, hend⟩ := hwhole
  by_contra hne
  have hclosed := (hend (Bool.eq_false_iff.mpr hne)).2
  rw [hc] at hclosed
  cases hclosed

end Logged

/-! ## Steps of the publisher -/

namespace InputInv

theorem not_notFound (h : InputInv input x) (hc : x.1.session.client ≠ .closed) : x.1.notFound = false := by
  by_contra hne
  exact hc (h.full (Bool.not_eq_false _ ▸ hne)).2.2

theorem step {e : ProcessEvent} (h : InputInv input x) (hg : ProbesAlone x e) (hs : ProcessStep x e x') :
    InputInv input x' := by
  cases e with
  | test =>
      obtain ⟨s', l', hy, rfl⟩ := Process.next_eq_some hs
      obtain ⟨hc, hc', rfl⟩ := hy.test
      have hnone := h.not_notFound (by rw [hc]; nofun)
      refine ⟨h.session.step (e := .test) trivial hy, h.sent, fun _ => h.rest hnone, fun hf => ?_, fun hclosed => ?_⟩
      · cases hnone.symm.trans hf
      · cases hc'.symm.trans hclosed
  | line =>
      simp only [ProcessStep, processStep] at hs
      split at hs
      · cases hs
      · split at hs
        · rename_i hnone
          have hnil := nextLine_eq_none hnone
          obtain ⟨s', l', hy, rfl⟩ := Process.next_eq_some hs
          obtain ⟨hc, hc', rfl⟩ := hy.close
          have hfound := h.not_notFound (by rw [hc]; nofun)
          refine ⟨h.session.step (e := .close) trivial hy, h.sent, fun _ => h.rest hfound, fun hf => ?_,
            fun _ => Or.inr hnil⟩
          cases hfound.symm.trans hf
        · rename_i r hr
          obtain ⟨s', l', hy, rfl⟩ := Process.next_eq_some hs
          obtain ⟨hc, hc', rfl⟩ := hy.send
          have hfound := h.not_notFound (by rw [hc]; nofun)
          have hrest := h.rest hfound
          rw [texts_of_nextLine hr] at hrest
          have hall : (x.2.sent ++ [r.1.1]) ++ texts r.2 = texts input := by
            rw [List.append_assoc]
            exact hrest
          refine ⟨h.session.step (e := .send r.1) trivial hy, ⟨_, hall⟩, fun _ => hall, fun hf => ?_, fun hclosed => ?_⟩
          · cases hfound.symm.trans hf
          · cases hc'.symm.trans hclosed
  | sigpipe =>
      simp only [ProcessStep, processStep] at hs
      split at hs
      · cases hs
      · rename_i hcan
        simp only [not_or, not_not] at hcan
        split at hs
        · cases hs
        · obtain ⟨s', l', hy, rfl⟩ := Process.next_eq_some hs
          obtain ⟨hc, hc', rfl⟩ := hy.close
          exact ⟨h.session.step (e := .close) trivial hy, h.sent, nofun,
            fun _ => ⟨h.session.full_of_ended hcan.2 hc, rfl, hc'⟩, fun _ => Or.inl rfl⟩
  | leave =>
      simp only [ProcessStep, processStep] at hs
      split at hs
      · rename_i hended
        obtain ⟨s', l', hy, rfl⟩ := Process.next_eq_some hs
        obtain ⟨hc, hc', rfl⟩ := hy.close
        have hfound := h.not_notFound (by rw [hc]; nofun)
        refine ⟨h.session.step (e := .close) trivial hy, h.sent, fun _ => h.rest hfound, fun hf => ?_,
          fun _ => Or.inl hended⟩
        cases hfound.symm.trans hf
      · cases hs
  | sigint =>
      simp only [ProcessStep, processStep, Option.some.injEq] at hs
      subst hs
      exact ⟨h.session, h.sent, h.rest, fun hf => ⟨(h.full hf).1, rfl, (h.full hf).2.2⟩, fun _ => Or.inl rfl⟩
  | worker e =>
      simp only [ProcessStep, processStep] at hs
      split at hs
      · rename_i he
        obtain ⟨s', l', hy, rfl⟩ := Process.next_eq_some hs
        obtain ⟨hc, hsent, hfull⟩ := hy.worker he
        refine ⟨h.session.step hg hy, hsent ▸ h.sent, fun hf => hsent ▸ h.rest hf, fun hf => ?_, fun hclosed => ?_⟩
        · obtain ⟨hold, hended, hclosed⟩ := h.full hf
          exact ⟨hfull hold, hended, hc.trans hclosed⟩
        · exact h.closed (hc.symm.trans hclosed)
      · cases hs

/-- What was passed to `tfs_write` are texts of the input. -/
theorem prefix_passed (h : InputInv input x) : x.2.passed <+: texts input := by
  obtain ⟨rest, hsent, -⟩ := h.session.rest
  exact (hsent ▸ List.prefix_append _ _ : x.2.passed <+: x.2.sent).trans h.sent

/-- All of them, once the publisher has come to the end of its input and nothing is under way. -/
theorem passed_eq (h : InputInv input x) (hc : x.1.session.client = .closed) (hended : x.1.ended = false)
    (hpipe : x.1.session.pipe = []) (hw : ∀ message, x.1.session.worker ≠ .writing message) (hfull : x.2.full = false) :
    x.2.passed = texts input := by
  obtain ⟨rest, hsent, hrest⟩ := h.session.rest
  have hfound : x.1.notFound = false := by
    by_contra hne
    cases hended.symm.trans (h.full (Bool.not_eq_false _ ▸ hne)).2.1
  have hstdin : x.1.stdin = [] := (h.closed hc).resolve_left fun he => by cases hended.symm.trans he
  have hall := h.rest hfound
  rw [hstdin, texts_nil, List.append_nil, hsent, hrest hpipe hw hfull, List.append_nil] at hall
  exact hall

end InputInv

end Mbroker.Publisher
