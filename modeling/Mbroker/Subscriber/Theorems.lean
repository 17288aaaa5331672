import Mbroker.Subscriber.Interrupts

/-!
# Runs of a subscriber session

What a subscriber prints, for every order of the worker's writes and the subscriber's reads.
-/

namespace Mbroker.Subscriber

open Mbroker.Lib Mbroker.Protocol

variable {s : Session} {texts : List CString} {es : List Event} {x : Session × List CString}

/-! ## The subscriber exits -/

/-- A bound on the steps that the subscriber takes when nothing more is written. -/
def ClientPhase.stepsLeft : ClientPhase → Nat
  | .testing => 4
  | .accepted => 3
  | .printing _ _ => 2
  | .reading => 1
  | .exited => 0

def Session.stepsLeft (s : Session) : Nat := 2 * s.pipe.length + s.client.stepsLeft

theorem Session.test_fields (s : Session) :
    s.test.pipe = s.pipe ∧ s.test.worker = s.worker ∧ s.test.client.stepsLeft < ClientPhase.testing.stepsLeft := by
  unfold Session.test
  split
  · exact ⟨rfl, rfl, Nat.lt_succ_self 3⟩
  · exact ⟨rfl, rfl, Nat.succ_pos 3⟩

/-- As long as the pipe is closed and the subscriber has not exited, it goes on. -/
theorem progress (texts : List CString) (hw : s.worker = .closed) (hc : s.client ≠ .exited) :
    ∃ e s', step s e = some s' ∧
    written texts s e s' = texts ∧ s'.worker = .closed ∧ s'.stepsLeft < s.stepsLeft := by
  obtain ⟨s₁, hs₁⟩ : ∃ s₁, s₁ = ({ s with
    pipe := s.pipe.drop sizeofMessage
    messageBuffer := readPipe s.messageBuffer 0 sizeofMessage s.pipe } : Session) := ⟨_, rfl⟩
  have hw₁ : s₁.worker = .closed := by
    rw [hs₁]
    exact hw
  have hless : s.pipe ≠ [] → s₁.pipe.length < s.pipe.length := by
    intro hne
    have hpos : 0 < s.pipe.length := List.length_pos_iff.mpr hne
    have hsize : sizeofMessage = 1025 := rfl
    simp only [hs₁, List.length_drop]
    omega
  cases hclient : s.client with
  | testing =>
      by_cases hnil : s.pipe = []
      · obtain ⟨hpipe, hworker, hclient'⟩ := s.test_fields
        refine ⟨.eof, s.test, by simp [step, hnil, hw, hclient], rfl, hworker.trans hw, ?_⟩
        simp only [Session.stepsLeft, hpipe, hclient]
        omega
      · obtain ⟨hpipe, hworker, hclient'⟩ := s₁.test_fields
        refine ⟨.read, s₁.test, by simp [step, hnil, hclient, hs₁], rfl, hworker.trans hw₁, ?_⟩
        have hlt := hless hnil
        simp only [Session.stepsLeft, hpipe, hclient]
        omega
  | accepted =>
      by_cases hnil : s.pipe = []
      · refine ⟨.eof, s.take, by simp [step, hnil, hw, hclient], rfl, hw, ?_⟩
        simp [Session.stepsLeft, Session.take, ClientPhase.stepsLeft, hclient]
      · refine ⟨.read, s₁.take, by simp [step, hnil, hclient, hs₁], rfl, hw₁, ?_⟩
        have hlt := hless hnil
        simp only [Session.stepsLeft, Session.take, ClientPhase.stepsLeft, hclient]
        omega
  | printing code message =>
      obtain ⟨hpipe, hworker, hclient'⟩ := s.print_fields code message
      refine ⟨.print, s.print code message, by simp [step, hclient], rfl, hworker.trans hw, ?_⟩
      simp [Session.stepsLeft, hpipe, hclient', hclient, ClientPhase.stepsLeft]
  | reading =>
      by_cases hnil : s.pipe = []
      · refine ⟨.eof, s.finish, by simp [step, hnil, hw, hclient], rfl, hw, ?_⟩
        simp [Session.stepsLeft, Session.finish, Session.printf, ClientPhase.stepsLeft, hclient]
      · refine ⟨.read, s₁.take, by simp [step, hnil, hclient, hs₁], rfl, hw₁, ?_⟩
        have hlt := hless hnil
        simp only [Session.stepsLeft, Session.take, ClientPhase.stepsLeft, hclient]
        omega
  | exited => exact absurd hclient hc

theorem exits (n : Nat) : ∀ s : Session, s.stepsLeft = n → s.worker = .closed →
    ∃ es s', Steps WritingStep (s, texts) es (s', texts) ∧ s'.client = .exited := by
  induction n using Nat.strong_induction_on with
  | _ n ih =>
      intro s hn hw
      by_cases hc : s.client = .exited
      · exact ⟨[], s, .nil, hc⟩
      · obtain ⟨e, s₁, hs, hsame, hw₁, hlt⟩ := progress texts hw hc
        obtain ⟨es, s', hrun, hexit⟩ := ih s₁.stepsLeft (hn ▸ hlt) s₁ rfl hw₁
        exact ⟨e :: es, s', .cons (withRecord_eq_some.mpr ⟨hs, hsame.symm⟩) hrun, hexit⟩

/-! ## What is printed -/

/-- When the subscriber has exited, it has printed the texts that were written, each once and in order, and their
number, exactly if its first read found nothing but the string in the pipe, and an `int` can count the texts. And it
exits once the pipe is closed. -/
theorem subscriber_prints_all (h : s.Opened) (hrun : Steps WritingStep (s, []) es x) :
    (x.1.client = .exited → (PrintsAll x ↔
      Steps (Guarded TestsAlone WritingStep) (s, []) es x ∧ x.2.length < 2147483648)) ∧
      (x.1.worker = .closed → ∃ es' s', Steps WritingStep x es' (s', x.2) ∧ s'.client = .exited) := by
  refine ⟨fun hexit => ?_, fun hw => exits _ x.1 rfl hw⟩
  have hgood : ∀ (y : Session × List CString) e y', InStep y.1 y.2 → TestsAlone y e → WritingStep y e y' →
      InStep y'.1 y'.2 := by
    intro y e y' hy hg hs
    obtain ⟨s', ho, rfl⟩ := hs.outcome
    exact hy.step hg ho
  have hbad : ∀ (y : Session × List CString) e y', InStep y.1 y.2 → ¬ TestsAlone y e → WritingStep y e y' →
      Garbled y'.1 y'.2 := by
    intro y e y' hy hg hs
    obtain ⟨s', ho, rfl⟩ := hs.outcome
    cases ho with
    | readTest hc hne hb => exact hy.garbled hc (not_le.mp fun hle => hg fun _ => hle) hb
    | readMessage hc =>
        refine absurd (fun hc' => ?_) hg
        rw [hc'] at hc
        obtain hc | hc := hc <;>
          cases hc
    | _ => exact absurd trivial hg
  have htrap : ∀ (y : Session × List CString) e y', Garbled y.1 y.2 → WritingStep y e y' → Garbled y'.1 y'.2 := by
    intro y e y' hy hs
    obtain ⟨s', ho, rfl⟩ := hs.outcome
    exact hy.step ho
  obtain ⟨hin, hsteps⟩ | hgarbled := hrun.guarded_or_trap hgood hbad htrap h.inStep
  · rw [hin.printsAll_iff hexit]
    exact ⟨fun hlt => ⟨hsteps, hlt⟩, And.right⟩
  · refine iff_of_false (fun hall => hgarbled.texts_ne hexit hall.1) fun ⟨hsteps, _⟩ => ?_
    have hin : InStep x.1 x.2 := hsteps.invariant (I := fun y : Session × List CString => InStep y.1 y.2)
      (fun y e y' hy hs => hgood y e y' hy hs.1 hs.2) h.inStep
    exact hgarbled.texts_ne hexit (hin.texts_eq hexit)

/-- The string is read before a message is sent, and another one is sent before that is printed. -/
def slowWorker : List Event :=
  [.test, .read, .send ⟨ascii "hi", by decide⟩, .read, .send ⟨ascii "", by decide⟩, .print, .read, .print, .close, .eof]

theorem subscriber_prints_all_slow : ∃ x, Steps WritingStep (Session.start, []) slowWorker x ∧
    x.2 = [ascii "hi", ascii ""] ∧ PrintsAll x := by
  obtain ⟨x, hrun, htexts, hexit⟩ := exists_guarded TestsAlone
    (fun x => x.2 = [ascii "hi", ascii ""] ∧ x.1.client = .exited) WritingStep.of_withRecord (Session.start, [])
    slowWorker (by decide +kernel)
  have hsteps : Steps WritingStep (Session.start, []) slowWorker x := hrun.mono fun _ _ _ hs => hs.2
  refine ⟨x, hsteps, htexts, ((subscriber_prints_all Session.start_opened hsteps).1 hexit).mpr ⟨hrun, ?_⟩⟩
  rw [htexts]
  decide

/-- The worker sends a message right after the string, and both are there at the first read. -/
def fastWorker : List Event := [.test, .send ⟨ascii "hi", by decide⟩, .read, .read, .print, .close, .eof]

/-- The message is not printed. -/
theorem message_lost : ∃ x, Steps WritingStep (Session.start, []) fastWorker x ∧ x.2 = [ascii "hi"] ∧
    x.1.stdout = [.invalidType 0, .count 0] ∧ ¬ PrintsAll x := by
  obtain ⟨x, hrun, htexts, hout⟩ := exists_steps (fun x => x.2 = [ascii "hi"] ∧
    x.1.stdout = [.invalidType 0, .count 0]) WritingStep.of_withRecord (Session.start, []) fastWorker
    (by decide +kernel)
  refine ⟨x, hrun, htexts, hout, fun hall => ?_⟩
  have hlast := hall.2
  rw [hout, htexts] at hlast
  exact absurd hlast (by decide)

/-! ## SIGINT -/

/-- The texts that are printed are those written, in order and whole, up to some point; a subscriber that exits prints
their number last, and all of them if no SIGINT came. Once it came, at most the one message is still printed for which
the test of the loop had held. -/
theorem subscriber_interrupted {s : Session} {es es' : List ProcessEvent} {x x' : Process × List CString}
    (h : s.Opened) (hrun : Steps (Guarded TestsFirst ProcessStep) (.start s, []) es x)
    (hrest : Steps (Guarded TestsFirst ProcessStep) x es' x') :
    x'.1.session.texts <+: x'.2 ∧
      (x'.1.session.client = .exited →
        x'.1.session.stdout.getLast? = some (.count (Int.bmod x'.1.session.texts.length 4294967296)) ∧
        (x'.1.ended = false → x'.1.session.texts = x'.2)) ∧
      (x.1.ended = true → x'.1.session.texts = x.1.session.texts ∨
        x.1.tested = true ∧ ∃ message, x.1.session.client = .printing subscriberCode message ∧
          x'.1.session.texts = x.1.session.texts ++ [message]) := by
  have hstep : ∀ (x : Process × List CString) e x', Printing x → Guarded TestsFirst ProcessStep x e x' →
      Printing x' := fun _ _ _ hx hs => hx.step hs.1 hs.2.outcome
  have hx : Printing x := hrun.invariant hstep h.inStep.printing
  have hx' : Printing x' := hrest.invariant hstep hx
  refine ⟨(List.prefix_append _ _).trans hx'.texts, fun hexit => ⟨?_, fun hend => hx'.all hend hexit⟩, fun hend => ?_⟩
  · rw [hx'.counted.exited hexit, hx'.counted.counted]
  · have hquiet := hrest.invariant (I := fun y => Printing y ∧ y.1.ended = true ∧ OnlyDue x.1 y.1)
      (fun y e y' ⟨hy, hended, hdue⟩ hs =>
        ⟨hstep y e y' hy hs, hy.onlyDue hs.2.outcome hended hdue⟩) ⟨hx, hend, List.prefix_rfl, List.prefix_rfl⟩
    exact hquiet.2.2.texts

/-- SIGINT comes between the test of the loop and the print of the first of two messages. -/
def interruptedPrint : List ProcessEvent :=
  [.session .test, .session .read, .session (.send ⟨ascii "hi", by decide⟩), .session .read, .enter, .sigint]

/-- The message is printed, and the next one is not. -/
theorem subscriber_interrupted_print : ∃ x x', Steps (Guarded TestsFirst ProcessStep) (.start .start, [])
    interruptedPrint x ∧ Steps (Guarded TestsFirst ProcessStep) x
      [.session (.send ⟨ascii "ho", by decide⟩), .session .print, .session .read, .leave, .closePipe] x' ∧
    x'.1.session.stdout = [.message (ascii "hi"), .count 1] ∧ x'.1.session.texts <+: x'.2 ∧
      (x'.1.session.texts = x.1.session.texts ∨
        x.1.tested = true ∧ ∃ message, x.1.session.client = .printing subscriberCode message ∧
          x'.1.session.texts = x.1.session.texts ++ [message]) := by
  obtain ⟨x, hrun, hend, hafter⟩ := exists_guarded TestsFirst (fun x => x.1.ended = true ∧
      (runGuarded TestsFirst (withRecord processStep processWritten) x
        [.session (.send ⟨ascii "ho", by decide⟩), .session .print, .session .read, .leave, .closePipe]).any
          (fun x' => decide (x'.1.session.stdout = [.message (ascii "hi"), .count 1])) = true)
    ProcessStep.of_withRecord (.start .start, []) interruptedPrint (by decide +kernel)
  obtain ⟨x', hrest, hout⟩ := exists_guarded TestsFirst
    (fun x' => x'.1.session.stdout = [.message (ascii "hi"), .count 1]) ProcessStep.of_withRecord x _ hafter
  obtain ⟨hpre, -, hquiet⟩ := subscriber_interrupted Session.start_opened hrun hrest
  exact ⟨x, x', hrun, hrest, hout, hpre, hquiet hend⟩

end Mbroker.Subscriber
