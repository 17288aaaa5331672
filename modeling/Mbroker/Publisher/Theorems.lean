import Mbroker.Publisher.Process

/-!
# Runs of a publisher session

Which texts reach `tfs_write`, for every order of the publisher's writes and the worker's reads.
-/

namespace Mbroker.Publisher

open Mbroker.Lib Mbroker.Protocol

variable {s s' : Session} {l : Log} {es : List Event}

/-- The texts passed to `tfs_write` are those sent, in order and whole, and all of them once the pipe is drained
and the box did not fill up, if the worker's first read finds nothing but the probe. -/
theorem publisher_texts_whole (h : s.Accepted)
    (hrun : Steps (Guarded (fun x : Session × Log => TestsAlone x.1) LoggedStep) (s, .empty) es (s', l)) :
    l.passed <+: l.sent ∧
      (s'.pipe = [] → (∀ message, s'.worker ≠ .writing message) → l.full = false → l.passed = l.sent) := by
  have hinv := hrun.invariant (I := fun x => SessionInv x.1 x.2) (fun _ _ _ hI hs => hI.step hs.1 hs.2)
    h.sessionInv
  have hwhole := hinv.whole
  unfold Whole at hwhole
  cases hphase : s'.worker with
  | testing =>
      rw [hphase] at hwhole
      obtain ⟨hpassed, hsent⟩ := hwhole
      refine ⟨hpassed ▸ List.nil_prefix, fun hpipe _ _ => ?_⟩
      obtain ⟨-, hnil, -⟩ | ⟨-, hwait⟩ := hsent
      · rw [hpassed, hnil]
      · rw [hpipe] at hwait
        simp [messageTest] at hwait
  | reading =>
      rw [hphase] at hwhole
      obtain ⟨rest, hsent, hwait, -⟩ := hwhole
      refine ⟨hsent ▸ List.prefix_append _ _, fun hpipe _ _ => ?_⟩
      rw [hsent, messageBytes_eq_nil.mp (hwait.symm.trans hpipe), List.append_nil]
  | writing message =>
      rw [hphase] at hwhole
      obtain ⟨rest, hsent, -⟩ := hwhole
      exact ⟨hsent ▸ List.prefix_append _ _, fun _ hne => absurd rfl (hne message)⟩
  | ended =>
      rw [hphase] at hwhole
      obtain ⟨rest, hsent, -, hfull⟩ := hwhole
      refine ⟨hsent ▸ List.prefix_append _ _, fun _ _ h0 => ?_⟩
      rw [hsent, (hfull h0).1, List.append_nil]

/-- The probe is read before the message is sent. -/
theorem publisher_texts_whole_slow : ∃ x : Session × Log,
    Steps (Guarded (fun x : Session × Log => TestsAlone x.1) LoggedStep) (Session.start, .empty)
      [.test, .read, .send ⟨⟨[104, 105], by decide⟩, by decide⟩, .read, .write 3] x ∧
      x.2.sent = [⟨[104, 105], by decide⟩] ∧ x.2.passed <+: x.2.sent := by
  obtain ⟨x, hrun, hsent⟩ := exists_guarded (fun x : Session × Log => TestsAlone x.1)
    (fun x => x.2.sent = [⟨[104, 105], by decide⟩]) LoggedStep.of_loggedStep (Session.start, .empty)
    [.test, .read, .send ⟨⟨[104, 105], by decide⟩, by decide⟩, .read, .write 3] (by decide +kernel)
  exact ⟨x, hrun, hsent, (publisher_texts_whole Session.start_accepted hrun).1⟩

/-- The first read finds the probe and a message: it takes the start of the message with the probe, and an empty
text is stored instead of the message. -/
theorem publisher_texts_lost : ∃ x : Session × Log,
    Steps LoggedStep (Session.start, .empty)
      [.test, .send ⟨⟨[104, 105], by decide⟩, by decide⟩, .read, .read, .write 1] x ∧
      x.2.passed = [⟨[], by decide⟩] ∧ ¬ x.2.passed <+: x.2.sent :=
  exists_steps _ LoggedStep.of_loggedStep _ _ (by decide +kernel)

/-! ## The input -/

/-- Lines are sent in pieces of 1023 characters, the last of which is shorter, and empty if nothing is left; what is
behind the last newline is sent in pieces too, none of them empty. So the texts are the lines exactly if each fits the
buffer of `fgets`, with its newline if it has one. -/
theorem lines_whole_iff {ls : List CString} {last : CString} (hls : ∀ l ∈ ls, newline ∉ l.chars)
    (hlast : newline ∉ last.chars) :
    (texts (inputOf ls last)).map CString.chars = (ls.flatMap fun l => pieces (sizeofText - 1) l.chars) ++
      (pieces (sizeofText - 1) last.chars).filter (· ≠ []) ∧
    (texts (inputOf ls last) = ls ++ (if last.chars = [] then [] else [last]) ↔
      (∀ l ∈ ls, l.strlen + 1 < sizeofText) ∧ last.strlen < sizeofText) :=
  ⟨texts_inputOf hls hlast, texts_inputOf_eq_iff hls hlast⟩

theorem lines_whole_two : texts (inputOf [ascii "one", ascii ""] (ascii "two")) =
    [ascii "one", ascii ""] ++ (if (ascii "two").chars = [] then [] else [ascii "two"]) :=
  (lines_whole_iff (by decide) (by decide)).2.mpr ⟨by decide, by decide⟩

/-- A line and what is behind it, which the worker reads in between. -/
def readInTurn : List ProcessEvent :=
  [.test, .worker .read, .line, .worker .read, .worker (.write 4), .line, .worker .read, .worker (.write 3), .line,
    .worker .eof]

end Mbroker.Publisher
