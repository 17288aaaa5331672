import Mbroker.Subscriber.Invariants

/-!
# A subscriber that is interrupted

The loop of `subscriber/sub.c` with SIGINT, from `end = 0` on. The first one makes a `read` that waits fail with -1, or
comes between two steps of the subscriber, such as the test of the loop and the print; `signal` sets the handler for one
SIGINT only, and the next one kills the process. The newline that `sigint_handler` prints is left out.
-/

namespace Mbroker.Subscriber

open Mbroker.Lib Mbroker.Protocol

/-! ## The process -/

structure Process where
  session : Session
  /-- `end` -/
  ended : Bool
  /-- The test of the loop held, and its message is not yet printed. -/
  tested : Bool
  killed : Bool
  /-- The subscriber has closed its end of the pipe. -/
  closed : Bool

def Process.start (s : Session) : Process := ⟨s, false, false, false, false⟩

inductive ProcessEvent
  | session (e : Event)
  /-- SIGINT -/
  | sigint
  /-- SIGINT, and the `read` of the subscriber fails. -/
  | interrupted
  /-- The test of the loop holds. -/
  | enter
  /-- The test of the loop fails. -/
  | leave
  /-- `close(worker_fifo_read)` -/
  | closePipe
  deriving DecidableEq

/-- What follows a `read` that fails: `message_buffer` is as it was. -/
def Session.readFailed (s : Session) : Option Session :=
  match s.client with
  | .testing => some s.test
  | .accepted => some s.take
  | .reading => some s.take
  | _ => none

def Event.isWrite : Event → Bool
  | .test | .send _ => true
  | _ => false

/-- The step; `none` if it cannot be taken now. A worker cannot write to a pipe that nobody reads from. -/
def processStep (p : Process) : ProcessEvent → Option Process
  | .session e =>
    if p.killed ∧ e ≠ .close ∨ e = .print ∧ p.tested = false ∨ e.isWrite ∧ p.closed then none
    else (step p.session e).map fun s => { p with session := s, tested := p.tested && decide (e ≠ .print) }
  | .sigint =>
    if p.killed ∨ p.closed then none
    else if p.ended then some { p with killed := true }
    else some { p with ended := true }
  | .interrupted =>
    if p.killed ∨ p.ended ∨ p.session.pipe ≠ [] ∨ p.session.worker = .closed then none
    else p.session.readFailed.map fun s => { p with session := s, ended := true }
  | .enter =>
    if p.killed ∨ p.tested ∨ p.ended then none
    else
      match p.session.client with
      | .printing _ _ => some { p with tested := true }
      | _ => none
  | .leave =>
    if p.killed ∨ p.tested then none
    else
      match p.session.client with
      | .printing _ _ => if p.ended then some { p with session := p.session.finish } else none
      | _ => none
  | .closePipe =>
    if p.killed ∨ p.closed then none
    else
      match p.session.client with
      | .exited => some { p with closed := true }
      | _ => none

/-- The texts that were written. -/
def processWritten (texts : List CString) (p : Process) (e : ProcessEvent) (p' : Process) : List CString :=
  match e with
  | .session e => written texts p.session e p'.session
  | _ => texts

/-- A step, with the texts that were written beside the process. -/
def ProcessStep (x : Process × List CString) (e : ProcessEvent) (x' : Process × List CString) : Prop :=
  withRecord processStep processWritten x e = some x'

theorem ProcessStep.of_withRecord (x : Process × List CString) (e : ProcessEvent) (x' : Process × List CString)
    (h : withRecord processStep processWritten x e = some x') : ProcessStep x e x' := h

/-- The condition on the first read of the subscriber: nothing but the string is in the pipe. -/
def TestsFirst (x : Process × List CString) : ProcessEvent → Prop
  | .session e => TestsAlone (x.1.session, x.2) e
  | _ => True

instance (x : Process × List CString) : DecidablePred (TestsFirst x)
  | .session e => inferInstanceAs (Decidable (TestsAlone (x.1.session, x.2) e))
  | .sigint | .interrupted | .enter | .leave | .closePipe => isTrue trivial

variable {x x' : Process × List CString} {e : ProcessEvent} {s s' : Session}

inductive ProcessOutcome (x : Process × List CString) : ProcessEvent → Process × List CString → Prop
  | session {e : Event} {s : Session} : Outcome x.1.session e s → e ≠ .print → (e.isWrite = true → x.1.closed = false) →
      ProcessOutcome x (.session e) ({ x.1 with session := s }, written x.2 x.1.session e s)
  | print {code message} : x.1.session.client = .printing code message → x.1.tested = true →
      ProcessOutcome x (.session .print) ({ x.1 with session := x.1.session.print code message, tested := false }, x.2)
  | sigint : ProcessOutcome x .sigint ({ x.1 with ended := true }, x.2)
  | kill : x.1.ended = true → ProcessOutcome x .sigint ({ x.1 with killed := true }, x.2)
  | interrupted {s : Session} : x.1.session.readFailed = some s → x.1.ended = false →
      ProcessOutcome x .interrupted ({ x.1 with session := s, ended := true }, x.2)
  | enter {code message} : x.1.session.client = .printing code message → x.1.ended = false → x.1.tested = false →
      ProcessOutcome x .enter ({ x.1 with tested := true }, x.2)
  | leave {code message} : x.1.session.client = .printing code message → x.1.ended = true → x.1.tested = false →
      ProcessOutcome x .leave ({ x.1 with session := x.1.session.finish }, x.2)
  | closePipe : x.1.session.client = .exited → ProcessOutcome x .closePipe ({ x.1 with closed := true }, x.2)

theorem ProcessStep.outcome (h : ProcessStep x e x') : ProcessOutcome x e x' := by
  obtain ⟨hs, hw⟩ := withRecord_eq_some.mp h
  obtain ⟨p', texts'⟩ := x'
  simp only at hs hw
  subst hw
  cases e with
  | session e =>
      simp only [processStep] at hs
      split at hs
      · cases hs
      · rename_i hn
        simp only [not_or, not_and] at hn
        obtain ⟨s, hnext, rfl⟩ := Option.map_eq_some_iff.mp hs
        by_cases hp : e = .print
        · subst hp
          cases outcome_of_step hnext with
          | print hc =>
              have hnone : (x.1.tested && decide (Event.print ≠ .print)) = false := by simp
              rw [hnone]
              exact .print hc (by simpa using hn.2.1)
        · have hsame : (x.1.tested && decide (e ≠ .print)) = x.1.tested := by simp [hp]
          rw [hsame]
          exact .session (outcome_of_step hnext) hp (fun he => by simpa using hn.2.2 he)
  | sigint =>
      simp only [processStep] at hs
      split at hs
      · cases hs
      · split at hs
        · rename_i hend
          cases hs
          exact .kill hend
        · cases hs
          exact .sigint
  | interrupted =>
      simp only [processStep] at hs
      split at hs
      · cases hs
      · rename_i hn
        obtain ⟨s, hfailed, rfl⟩ := Option.map_eq_some_iff.mp hs
        exact .interrupted hfailed (by simpa using fun hend => hn (Or.inr (Or.inl hend)))
  | enter =>
      simp only [processStep] at hs
      split at hs
      · cases hs
      · rename_i hn
        split at hs
        · rename_i hc
          cases hs
          exact .enter hc (by simpa using fun hend => hn (Or.inr (Or.inr hend)))
            (by simpa using fun htested => hn (Or.inr (Or.inl htested)))
        · cases hs
  | leave =>
      simp only [processStep] at hs
      split at hs
      · cases hs
      · rename_i hn
        split at hs
        · rename_i hc
          split at hs
          · rename_i hend
            cases hs
            exact .leave hc hend (by simpa using fun htested => hn (Or.inr htested))
          · cases hs
        · cases hs
  | closePipe =>
      simp only [processStep] at hs
      split at hs
      · cases hs
      · split at hs
        · rename_i hc
          cases hs
          exact .closePipe hc
        · cases hs

/-! ## What the subscriber has printed -/

/-- The texts so far are counted, and when the subscriber exits their number is what it has printed last. -/
structure Counted (s : Session) : Prop where
  counted : s.msgCtr = Int.bmod s.texts.length 4294967296
  exited : s.client = .exited → s.stdout.getLast? = some (.count s.msgCtr)

theorem Session.test_texts : s.test.texts = s.texts := by
  unfold Session.test
  split
  · rfl
  · rw [Session.finish_texts]
    simp [Session.printf, Session.texts, Output.text?]

theorem InStep.countedTexts {texts : List CString} (h : InStep s texts) : Counted s :=
  ⟨h.counted, fun he => (h.exited he).2.2⟩

namespace Counted

theorem finish (h : Counted s) : Counted s.finish where
  counted := by
    rw [Session.finish_texts]
    exact h.counted
  exited := fun _ => by simp [Session.finish, Session.printf]

theorem test (h : Counted s) : Counted s.test where
  counted := by
    rw [Session.test_texts]
    unfold Session.test
    split <;> exact h.counted
  exited := fun he => by
    unfold Session.test at he ⊢
    split at he
    · cases he
    · rename_i hne
      rw [if_neg hne]
      simp [Session.finish, Session.printf]

theorem of_phase (h : Counted s) (hs : s'.texts = s.texts) (hn : s'.msgCtr = s.msgCtr) (hc : s'.client ≠ .exited) :
    Counted s' := ⟨by rw [hn, hs]; exact h.counted, fun he => absurd he hc⟩

theorem readFailed (h : Counted s) (hf : s.readFailed = some s') : Counted s' ∧ s'.texts = s.texts := by
  unfold Session.readFailed at hf
  split at hf
  · cases hf
    exact ⟨h.test, Session.test_texts⟩
  · cases hf
    exact ⟨h.of_phase rfl rfl (fun he => by cases he), rfl⟩
  · cases hf
    exact ⟨h.of_phase rfl rfl (fun he => by cases he), rfl⟩
  · cases hf

theorem print (h : Counted s) {code : UInt8} {message : CString} : Counted (s.print code message) where
  counted := Session.print_counted h.counted
  exited := fun he => by
    rw [(s.print_fields code message).2.2] at he
    cases he

/-- Only `print` prints a text. -/
theorem step {e : Event} (h : Counted s) (hp : e ≠ .print) (ho : Outcome s e s') :
    Counted s' ∧ s'.texts = s.texts := by
  cases ho with
  | test | send | close => exact ⟨⟨h.counted, h.exited⟩, rfl⟩
  | @readTest b =>
      have hread : Counted { s with pipe := s.pipe.drop sizeofMessage, messageBuffer := b } := ⟨h.counted, h.exited⟩
      exact ⟨hread.test, Session.test_texts⟩
  | readMessage => exact ⟨h.of_phase rfl rfl (fun he => by cases he), rfl⟩
  | eofTest => exact ⟨h.test, Session.test_texts⟩
  | eofAccepted => exact ⟨h.of_phase rfl rfl (fun he => by cases he), rfl⟩
  | eofReading => exact ⟨h.finish, Session.finish_texts⟩
  | print => exact absurd rfl hp

end Counted

/-! ## The invariant -/

/-- The text that is printed next, whether SIGINT comes or not. -/
def Process.due (p : Process) : List CString := if p.tested then p.session.client.pending else []

theorem Process.due_of_untested {p : Process} (h : ¬ p.tested = true) : p.due = [] := if_neg h

/-- Until SIGINT comes, the session is in step; from then on it prints at most the text that is due. -/
structure Printing (x : Process × List CString) : Prop where
  inStep : x.1.ended = false → InStep x.1.session x.2
  counted : Counted x.1.session
  texts : x.1.session.texts ++ x.1.due <+: x.2
  loop : x.1.tested = true → ∃ code message, x.1.session.client = .printing code message
  shut : x.1.closed = true → x.1.session.client = .exited

theorem InStep.texts_begin {texts : List CString} (h : InStep s texts) : s.texts ++ s.client.pending <+: texts := by
  obtain ⟨rest, htexts, -⟩ := h.rest
  rw [htexts]
  exact List.prefix_append _ _

theorem InStep.printing {texts : List CString} (h : InStep s texts) : Printing (.start s, texts) where
  inStep := fun _ => h
  counted := h.countedTexts
  texts := by
    change s.texts ++ [] <+: texts
    rw [List.append_nil]
    exact (List.prefix_append _ _).trans h.texts_begin
  loop := nofun
  shut := nofun

theorem prefix_written (texts : List CString) (s : Session) (e : Event) (s' : Session) :
    texts <+: written texts s e s' := by
  cases e with
  | send text => exact List.prefix_append _ _
  | _ => exact List.prefix_rfl

/-- A subscriber in its loop prints, or waits for the test; one that has exited does nothing. -/
theorem Outcome.client_eq {e : Event} (ho : Outcome s e s') (hp : e ≠ .print)
    (hc : (∃ code message, s.client = .printing code message) ∨ s.client = .exited) : s'.client = s.client := by
  cases ho with
  | test | send | close => rfl
  | print => exact absurd rfl hp
  | readTest hc' | eofTest hc' | eofAccepted hc' | eofReading hc' =>
      obtain ⟨code, message, hc⟩ | hc := hc
      · cases hc'.symm.trans hc
      · cases hc'.symm.trans hc
  | readMessage hc' =>
      obtain ⟨code, message, hc⟩ | hc := hc
      · obtain hc' | hc' := hc' <;> cases hc'.symm.trans hc
      · obtain hc' | hc' := hc' <;> cases hc'.symm.trans hc

theorem ProcessOutcome.written (ho : ProcessOutcome x e x') : x.2 <+: x'.2 := by
  cases ho with
  | @session e s => exact prefix_written x.2 x.1.session e s
  | _ => exact List.prefix_rfl

/-- A read that fails was not in the loop's print, nor behind the loop. -/
theorem Session.client_of_readFailed (hf : s.readFailed = some s') :
    (∀ code message, s.client ≠ .printing code message) ∧ s.client ≠ .exited := by
  unfold Session.readFailed at hf
  split at hf
  · rename_i hc
    rw [hc]
    exact ⟨nofun, nofun⟩
  · rename_i hc
    rw [hc]
    exact ⟨nofun, nofun⟩
  · rename_i hc
    rw [hc]
    exact ⟨nofun, nofun⟩
  · cases hf

namespace Printing

/-- Where a read fails, no test has held. -/
theorem untested (h : Printing x) (hf : x.1.session.readFailed = some s) : ¬ x.1.tested = true := by
  intro ht
  obtain ⟨code, message, hc⟩ := h.loop ht
  exact (Session.client_of_readFailed hf).1 code message hc

/-- What is printed is at most the text that is due, and only the test makes another one due. -/
theorem texts_due (h : Printing x) (ho : ProcessOutcome x e x') (he : e ≠ .enter) :
    x.1.session.texts <+: x'.1.session.texts ∧
      x'.1.session.texts ++ x'.1.due <+: x.1.session.texts ++ x.1.due := by
  cases ho with
  | enter => exact absurd rfl he
  | sigint | kill | closePipe => exact ⟨List.prefix_rfl, List.prefix_rfl⟩
  | @session e s ho hp =>
      have hsame := (h.counted.step hp ho).2
      have hdue : Process.due { x.1 with session := s } = x.1.due := by
        unfold Process.due
        split
        · rename_i ht
          rw [ho.client_eq hp (Or.inl (h.loop ht))]
        · rfl
      rw [hdue]
      change _ <+: s.texts ∧ s.texts ++ _ <+: _
      rw [hsame]
      exact ⟨List.prefix_rfl, List.prefix_rfl⟩
  | @print code message hc ht =>
      rw [Process.due, Process.due, if_pos ht, hc, ← Session.print_texts]
      change _ <+: (x.1.session.print code message).texts ∧ (x.1.session.print code message).texts ++ [] <+: _
      rw [List.append_nil]
      refine ⟨?_, List.prefix_rfl⟩
      rw [Session.print_texts]
      exact List.prefix_append _ _
  | @interrupted s hf =>
      have hsame := (h.counted.readFailed hf).2
      have hnow : x.1.due = [] := Process.due_of_untested (h.untested hf)
      have hnext : Process.due { x.1 with session := s, ended := true } = [] := Process.due_of_untested (h.untested hf)
      rw [hnow, hnext]
      change _ <+: s.texts ∧ s.texts ++ [] <+: _
      rw [hsame]
      exact ⟨List.prefix_rfl, List.prefix_rfl⟩
  | leave _ _ ht =>
      have hnone : ¬ x.1.tested = true := by simp [ht]
      have hnow : x.1.due = [] := Process.due_of_untested hnone
      have hnext : Process.due { x.1 with session := x.1.session.finish } = [] := Process.due_of_untested hnone
      rw [hnow, hnext]
      change _ <+: x.1.session.finish.texts ∧ x.1.session.finish.texts ++ [] <+: _
      rw [Session.finish_texts]
      exact ⟨List.prefix_rfl, List.prefix_rfl⟩

theorem step (h : Printing x) (hg : TestsFirst x e) (ho : ProcessOutcome x e x') : Printing x' := by
  have htexts : x'.1.session.texts ++ x'.1.due <+: x'.2 := by
    by_cases he : e = .enter
    · subst he
      cases ho with
      | enter hc hend => exact (h.inStep hend).texts_begin
    · exact ((h.texts_due ho he).2.trans h.texts).trans ho.written
  have hended : ∀ {P : Prop}, x'.1.ended = true → x'.1.ended = false → P := by
    intro P hend hn
    rw [hend] at hn
    cases hn
  cases ho with
  | session ho hp =>
      refine ⟨fun hend => (h.inStep hend).step hg ho, (h.counted.step hp ho).1, htexts, fun ht => ?_, fun hshut => ?_⟩
      · obtain ⟨code, message, hc⟩ := h.loop ht
        exact ⟨code, message, (ho.client_eq hp (Or.inl (h.loop ht))).trans hc⟩
      · exact (ho.client_eq hp (Or.inr (h.shut hshut))).trans (h.shut hshut)
  | print hc =>
      refine ⟨fun hend => (h.inStep hend).print hc, h.counted.print, htexts, nofun, fun hshut => ?_⟩
      cases hc.symm.trans (h.shut hshut)
  | sigint => exact ⟨hended rfl, h.counted, htexts, h.loop, h.shut⟩
  | kill hend => exact ⟨hended hend, h.counted, htexts, h.loop, h.shut⟩
  | interrupted hf =>
      exact ⟨hended rfl, (h.counted.readFailed hf).1, htexts, fun ht => absurd ht (h.untested hf),
        fun hshut => absurd (h.shut hshut) (Session.client_of_readFailed hf).2⟩
  | enter hc hend => exact ⟨h.inStep, h.counted, htexts, fun _ => ⟨_, _, hc⟩, h.shut⟩
  | leave _ hend ht =>
      refine ⟨hended hend, h.counted.finish, htexts, fun ht' => ?_, fun _ => rfl⟩
      cases ht.symm.trans ht'
  | closePipe hc => exact ⟨h.inStep, h.counted, htexts, h.loop, fun _ => hc⟩

theorem all (h : Printing x) (hend : x.1.ended = false) (hexit : x.1.session.client = .exited) :
    x.1.session.texts = x.2 := (h.inStep hend).texts_eq hexit

end Printing

/-! ## What is printed after SIGINT -/

/-- Since `x₀` at most the text was printed that was due there. -/
def OnlyDue (x₀ x : Process) : Prop :=
  x₀.session.texts <+: x.session.texts ∧ x.session.texts ++ x.due <+: x₀.session.texts ++ x₀.due

/-- From SIGINT on no test holds. -/
theorem Printing.onlyDue {x₀ : Process} (h : Printing x) (ho : ProcessOutcome x e x') (hend : x.1.ended = true)
    (hdue : OnlyDue x₀ x.1) : x'.1.ended = true ∧ OnlyDue x₀ x'.1 := by
  have he : e ≠ .enter := by
    rintro rfl
    cases ho with
    | enter _ hn => cases hend.symm.trans hn
  obtain ⟨hmore, hless⟩ := h.texts_due ho he
  refine ⟨?_, hdue.1.trans hmore, hless.trans hdue.2⟩
  cases ho with
  | sigint | interrupted => rfl
  | session | print | kill | enter | leave | closePipe => exact hend

theorem OnlyDue.texts {x₀ x : Process} (h : OnlyDue x₀ x) : x.session.texts = x₀.session.texts ∨
    x₀.tested = true ∧ ∃ message, x₀.session.client = .printing subscriberCode message ∧
      x.session.texts = x₀.session.texts ++ [message] := by
  have hless := (List.prefix_append _ _).trans h.2
  unfold Process.due at hless
  split at hless
  · rename_i ht
    unfold ClientPhase.pending at hless
    split at hless
    · rename_i code message hc
      split at hless
      · rename_i hcode
        subst hcode
        obtain hnew | hsame := List.prefix_concat_iff.mp hless
        · exact Or.inr ⟨ht, message, hc, hnew⟩
        · exact Or.inl (hsame.eq_of_length (le_antisymm hsame.length_le h.1.length_le))
      · rw [List.append_nil] at hless
        exact Or.inl (hless.eq_of_length (le_antisymm hless.length_le h.1.length_le))
    · rw [List.append_nil] at hless
      exact Or.inl (hless.eq_of_length (le_antisymm hless.length_le h.1.length_le))
  · rw [List.append_nil] at hless
    exact Or.inl (hless.eq_of_length (le_antisymm hless.length_le h.1.length_le))

end Mbroker.Subscriber
