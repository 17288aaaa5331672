import Mbroker.Subscriber.Session

/-!
# What a subscriber session keeps

As long as the first read takes nothing but the string, every later read takes one message, whole. If it takes the start
of a message with the string, that message is lost, or what is left of it is printed in its place.
-/

namespace Mbroker.Subscriber

open Mbroker.Lib Mbroker.Protocol

variable {s s' : Session} {texts : List CString} {m : CString}

/-! ## Small steps -/

/-- The text that is still to be printed. -/
def ClientPhase.pending : ClientPhase → List CString
  | .printing code message => if code = subscriberCode then [message] else []
  | _ => []

/-- What is in the pipe before the messages. -/
def Session.ahead (s : Session) : List UInt8 := if s.client = .testing ∧ s.worker ≠ .testing then messageTest else []

theorem Session.ahead_of_ne (h : s.client ≠ .testing) : s.ahead = [] := if_neg fun he => h he.1

theorem Session.finish_texts : s.finish.texts = s.texts := by
  simp [Session.finish, Session.printf, Session.texts, Output.text?]

theorem Session.print_texts {code : UInt8} {message : CString} :
    (s.print code message).texts = s.texts ++ (ClientPhase.printing code message).pending := by
  by_cases hcode : code = subscriberCode <;>
    simp [Session.print, Session.printf, Session.texts, ClientPhase.pending, Output.text?, hcode]

theorem Session.print_fields (s : Session) (code : UInt8) (message : CString) :
    (s.print code message).pipe = s.pipe ∧ (s.print code message).worker = s.worker ∧
      (s.print code message).client = .reading := by
  unfold Session.print
  split <;> exact ⟨rfl, rfl, rfl⟩

theorem Session.print_counted {code : UInt8} {message : CString}
    (h : s.msgCtr = Int.bmod s.texts.length 4294967296) :
    (s.print code message).msgCtr = Int.bmod (s.print code message).texts.length 4294967296 := by
  rw [Session.print_texts, List.length_append]
  by_cases hcode : code = subscriberCode
  · simp only [Session.print, hcode, ne_eq, not_true_eq_false, ↓reduceIte, Session.count, h,
      ClientPhase.pending, List.length_singleton]
    exact Int.bmod_add_bmod ..
  · simpa [Session.print, Session.printf, hcode, ClientPhase.pending] using h

theorem ClientPhase.length_pending (phase : ClientPhase) : phase.pending.length ≤ 1 := by
  unfold pending
  repeat' split
  all_goals simp

theorem Session.test_of_string (s : Session) (h : s.messageBuffer.bytes messageTest.length = messageTest) :
    s.test = { s with client := .accepted } ∧ s.messageBuffer 0 ≠ subscriberCode := by
  have hbyte : ∀ i < messageTest.length, s.messageBuffer i = messageTest.getD i 0 := by
    intro i hi
    have hget := congrArg (fun l => l[i]?) h
    simp only [Mem.getElem?_bytes _ hi] at hget
    rw [List.getD_eq_getElem?_getD, ← hget, Option.getD_some]
  have hsame : ∀ i ≤ (ascii "test").chars.length, messageTest.getD i 0 = (ascii "test").chars.getD i 0 := by decide
  refine ⟨if_pos (strcmp_eq_zero.mpr fun i hi => ?_), ?_⟩
  · rw [hbyte i (Nat.lt_succ_of_le hi), hsame i hi]
  · rw [hbyte 0 (by decide)]
    decide

/-! ## The session in step -/

/-- What was written is printed, about to be printed, or in the pipe. -/
structure InStep (s : Session) (texts : List CString) : Prop where
  rest : ∃ rest, texts = s.texts ++ s.client.pending ++ rest ∧ s.pipe = s.ahead ++ messageBytes subscriberCode rest
  short : ∀ t ∈ texts, t.strlen < sizeofText
  untested : s.worker = .testing → s.client = .testing ∧ texts = []
  accepted : s.client = .accepted → s.messageBuffer 0 ≠ subscriberCode
  counted : s.msgCtr = Int.bmod s.texts.length 4294967296
  exited : s.client = .exited → s.worker = .closed ∧ s.pipe = [] ∧ s.stdout.getLast? = some (.count s.msgCtr)
  silent : s.client = .testing → s.texts = []

theorem Session.Opened.inStep (h : s.Opened) : InStep s [] where
  rest := ⟨[], by simp [Session.texts, h.stdout, h.client, ClientPhase.pending],
    by simp [Session.ahead, h.pipe, h.worker]⟩
  short := nofun
  untested := fun _ => ⟨h.client, rfl⟩
  accepted := fun he => by simp [h.client] at he
  counted := by simp [Session.texts, h.stdout, h.msgCtr]
  exited := fun he => by simp [h.client] at he
  silent := fun _ => by simp [Session.texts, h.stdout]

namespace InStep

theorem test (h : InStep s texts) (hw : s.worker = .testing) :
    InStep { s with pipe := s.pipe ++ messageTest, worker := .sending } texts := by
  obtain ⟨hclient, rfl⟩ := h.untested hw
  obtain ⟨rest, htexts, hpipe⟩ := h.rest
  obtain ⟨hprinted, rfl⟩ := List.append_eq_nil_iff.mp htexts.symm
  have hnil : s.pipe = [] := by simpa [Session.ahead, hw] using hpipe
  refine ⟨⟨[], ?_, ?_⟩, h.short, nofun, h.accepted, h.counted, fun he => ?_, h.silent⟩
  · rw [List.append_nil]
    exact hprinted.symm
  · simp [hnil, Session.ahead, hclient]
  · rw [hclient] at he
    cases he

theorem send (h : InStep s texts) (hw : s.worker = .sending) (text : Text) :
    InStep { s with pipe := s.pipe ++ sendMessage subscriberCode text.1 } (texts ++ [text.1]) := by
  obtain ⟨rest, htexts, hpipe⟩ := h.rest
  refine ⟨⟨rest ++ [text.1], ?_, ?_⟩, fun t ht => ?_, fun hn => ?_, h.accepted, h.counted, fun he => ?_, h.silent⟩
  · rw [htexts, List.append_assoc]
    rfl
  · rw [messageBytes_append, ← List.append_assoc, hpipe]
    rfl
  · rcases List.mem_append.mp ht with ht | ht
    · exact h.short t ht
    · rw [List.mem_singleton] at ht
      rw [ht]
      exact text.2
  · rw [hw] at hn
    cases hn
  · have hclosed := (h.exited he).1
    rw [hw] at hclosed
    cases hclosed

theorem close (h : InStep s texts) (hw : s.worker = .sending) : InStep { s with worker := .closed } texts := by
  obtain ⟨rest, htexts, hpipe⟩ := h.rest
  refine ⟨⟨rest, htexts, ?_⟩, h.short, nofun, h.accepted, h.counted, fun he => ?_, h.silent⟩
  · simpa [Session.ahead, hw] using hpipe
  · have hclosed := (h.exited he).1
    rw [hw] at hclosed
    cases hclosed

/-- The first read takes the string, and what else fits. -/
theorem read_string (h : InStep s texts) (hc : s.client = .testing) (hne : s.pipe ≠ []) {b : Mem}
    (hb : b = readPipe s.messageBuffer 0 sizeofMessage s.pipe) :
    s.worker ≠ .testing ∧ s.pipe = messageTest ++ messageBytes subscriberCode texts ∧ b 0 ≠ subscriberCode ∧
      ({ s with pipe := s.pipe.drop sizeofMessage, messageBuffer := b } : Session).test =
        { s with pipe := s.pipe.drop sizeofMessage, messageBuffer := b, client := .accepted } := by
  obtain ⟨rest, htexts, hpipe⟩ := h.rest
  rw [h.silent hc, hc] at htexts
  obtain rfl : texts = rest := htexts
  have hworker : s.worker ≠ .testing := by
    intro hw
    obtain ⟨-, rfl⟩ := h.untested hw
    exact hne (by simpa [Session.ahead, hw] using hpipe)
  rw [Session.ahead, if_pos ⟨hc, hworker⟩] at hpipe
  have hstring : b.bytes messageTest.length = messageTest := by
    have hread : ((readPipe s.messageBuffer 0 sizeofMessage (messageTest ++ messageBytes subscriberCode texts)).ptr
        0).bytes messageTest.length = messageTest := bytes_readPipe (by decide) _
    rw [hb, hpipe]
    rwa [Mem.ptr_zero] at hread
  obtain ⟨s', hs'⟩ : ∃ s', s' = ({ s with pipe := s.pipe.drop sizeofMessage, messageBuffer := b } : Session) := ⟨_, rfl⟩
  obtain ⟨htest, hcode⟩ := s'.test_of_string (by rw [hs']; exact hstring)
  refine ⟨hworker, hpipe, ?_, ?_⟩
  · rw [hs'] at hcode
    exact hcode
  · rw [← hs', htest, hs']

theorem read_test (h : InStep s texts) (hc : s.client = .testing) (hne : s.pipe ≠ [])
    (halone : s.pipe.length ≤ messageTest.length) {b : Mem} (hb : b = readPipe s.messageBuffer 0 sizeofMessage s.pipe) :
    InStep ({ s with pipe := s.pipe.drop sizeofMessage, messageBuffer := b } : Session).test texts := by
  obtain ⟨hworker, hpipe, hcode, htest⟩ := h.read_string hc hne hb
  have hnone : messageBytes subscriberCode texts = [] := by
    rw [hpipe, List.length_append] at halone
    exact List.length_eq_zero_iff.mp (by omega)
  rw [htest]
  refine ⟨⟨[], ?_, ?_⟩, h.short, fun hw => absurd hw hworker, fun _ => hcode, h.counted, nofun, nofun⟩
  · change texts = s.texts ++ [] ++ []
    rw [messageBytes_eq_nil.mp hnone, h.silent hc]
    rfl
  · rw [hpipe, hnone]
    rfl

theorem read_message (h : InStep s texts) (hc : s.client = .accepted ∨ s.client = .reading) (hne : s.pipe ≠ [])
    {b : Mem} (hb : b = readPipe s.messageBuffer 0 sizeofMessage s.pipe) :
    InStep ({ s with pipe := s.pipe.drop sizeofMessage, messageBuffer := b } : Session).take texts := by
  obtain ⟨rest, htexts, hpipe⟩ := h.rest
  have htest : s.client ≠ .testing := by
    obtain hc | hc := hc <;>
      rw [hc] <;> nofun
  have hpending : s.client.pending = [] := by
    obtain hc | hc := hc <;>
      rw [hc] <;> rfl
  rw [Session.ahead_of_ne htest, List.nil_append] at hpipe
  rw [hpending, List.append_nil] at htexts
  cases rest with
  | nil => exact absurd hpipe hne
  | cons t rest =>
      have ht : t.strlen < sizeofText := h.short t (by simp [htexts])
      obtain ⟨hcode, htext, hrest⟩ := read_messageBytes subscriberCode s.messageBuffer rest ht
      rw [← hpipe, ← hb] at hcode htext
      rw [← hpipe] at hrest
      refine ⟨⟨rest, ?_, ?_⟩, h.short, fun hw => absurd (h.untested hw).1 htest, nofun, h.counted, nofun, nofun⟩
      · change texts = s.texts ++ (ClientPhase.printing (b 0) (messageText b)).pending ++ rest
        rw [hcode, htext, htexts, List.append_assoc]
        rfl
      · exact hrest

/-- At the end of the file the loop ends, and a subscriber that has got nothing takes "test" for a message. -/
theorem eof (h : InStep s texts) (hnil : s.pipe = []) (hw : s.worker = .closed) (htest : s.client ≠ .testing) :
    (s.client = .accepted → InStep s.take texts) ∧ (s.client = .reading → InStep s.finish texts) := by
  obtain ⟨rest, htexts, hpipe⟩ := h.rest
  rw [Session.ahead_of_ne htest, hnil] at hpipe
  obtain rfl : rest = [] := messageBytes_eq_nil.mp hpipe.symm
  have hworker : s.worker ≠ .testing := by
    rw [hw]
    nofun
  constructor
  · intro hc
    rw [hc] at htexts
    refine ⟨⟨[], ?_, hnil⟩, h.short, fun hw => absurd hw hworker, nofun, h.counted, nofun, nofun⟩
    change texts = s.texts ++ (if s.messageBuffer 0 = subscriberCode then _ else _) ++ []
    rw [if_neg (h.accepted hc)]
    exact htexts
  · intro hc
    rw [hc] at htexts
    refine ⟨⟨[], ?_, hnil⟩, h.short, fun hw => absurd hw hworker, nofun, ?_, fun _ => ⟨hw, hnil, ?_⟩, nofun⟩
    · rw [Session.finish_texts]
      exact htexts
    · rw [Session.finish_texts]
      exact h.counted
    · simp [Session.finish, Session.printf]

theorem print (h : InStep s texts) {code : UInt8} {message : CString} (hc : s.client = .printing code message) :
    InStep (s.print code message) texts := by
  obtain ⟨rest, htexts, hpipe⟩ := h.rest
  have htest : s.client ≠ .testing := by
    rw [hc]
    nofun
  rw [Session.ahead_of_ne htest] at hpipe
  obtain ⟨hsame, hworker, hclient⟩ := s.print_fields code message
  refine ⟨⟨rest, ?_, ?_⟩, h.short, fun hw => ?_, fun he => ?_, Session.print_counted h.counted, fun he => ?_,
    fun he => ?_⟩
  · rw [Session.print_texts, hclient, ← hc, htexts]
    simp [ClientPhase.pending]
  · rw [Session.ahead_of_ne (by rw [hclient]; nofun), hsame, hpipe]
  · rw [hworker] at hw
    exact absurd (h.untested hw).1 htest
  · rw [hclient] at he
    cases he
  · rw [hclient] at he
    cases he
  · rw [hclient] at he
    cases he

theorem step {x : Session × List CString} {e : Event} (h : InStep x.1 x.2) (hg : TestsAlone x e)
    (ho : Outcome x.1 e s') : InStep s' (written x.2 x.1 e s') := by
  cases ho with
  | test hw => exact h.test hw
  | send hw => exact h.send hw _
  | close hw => exact h.close hw
  | readTest hc hne hb => exact h.read_test hc hne (hg hc) hb
  | readMessage hc hne hb => exact h.read_message hc hne hb
  | eofTest hc hnil hw =>
      obtain ⟨rest, -, hpipe⟩ := h.rest
      rw [hnil, Session.ahead, if_pos ⟨hc, by rw [hw]; nofun⟩] at hpipe
      cases hpipe
  | eofAccepted hc hnil hw => exact (h.eof hnil hw (by rw [hc]; nofun)).1 hc
  | eofReading hc hnil hw => exact (h.eof hnil hw (by rw [hc]; nofun)).2 hc
  | print hc => exact h.print hc

theorem texts_eq (h : InStep s texts) (hexit : s.client = .exited) : s.texts = texts := by
  obtain ⟨rest, htexts, hpipe⟩ := h.rest
  obtain ⟨-, hnil, -⟩ := h.exited hexit
  rw [hnil, Session.ahead_of_ne (by rw [hexit]; nofun)] at hpipe
  obtain rfl : rest = [] := messageBytes_eq_nil.mp hpipe.symm
  simpa [hexit, ClientPhase.pending] using htexts.symm

/-- It was counted as far as an `int` goes. -/
theorem printsAll_iff (h : InStep s texts) (hexit : s.client = .exited) :
    PrintsAll (s, texts) ↔ texts.length < 2147483648 := by
  obtain ⟨-, -, hlast⟩ := h.exited hexit
  simp only [PrintsAll, hlast, h.counted, h.texts_eq hexit, true_and, Option.some.injEq, Output.count.injEq]
  rw [Int.bmod_def]
  split <;> omega

end InStep

/-! ## The session out of step -/

/-- How many more reads the bytes in the pipe are good for. -/
def readsLeft (pipe : List UInt8) : Nat := (pipe.length + 1024) / 1025

theorem readsLeft_drop {pipe : List UInt8} (h : pipe ≠ []) :
    readsLeft (pipe.drop sizeofMessage) + 1 = readsLeft pipe := by
  have hpos : 0 < pipe.length := List.length_pos_iff.mpr h
  have hsize : sizeofMessage = 1025 := rfl
  simp only [readsLeft, List.length_drop]
  omega

theorem readsLeft_send {pipe : List UInt8} {t : CString} :
    readsLeft (pipe ++ sendMessage subscriberCode t) = readsLeft pipe + 1 := by
  have hsize : sizeofMessage = 1025 := rfl
  simp only [readsLeft, List.length_append, length_sendMessage]
  omega

/-- There are too few reads for the texts, or the first text that is printed is shorter than the first one written. -/
def Spoiled (s : Session) (texts : List CString) : Prop :=
  (s.texts ++ s.client.pending).length + readsLeft s.pipe < texts.length ∨
    ∃ t ts m ms, s.texts ++ s.client.pending = t :: ts ∧ texts = m :: ms ∧ t.strlen < m.strlen

/-- At most one more text is printed for every read. -/
theorem Spoiled.next {texts' : List CString} (h : Spoiled s texts) (new ts : List CString)
    (hnew : s'.texts ++ s'.client.pending = s.texts ++ s.client.pending ++ new) (htexts' : texts' = texts ++ ts)
    (hreads : new.length + readsLeft s'.pipe ≤ readsLeft s.pipe + ts.length) : Spoiled s' texts' := by
  subst htexts'
  obtain hlost | ⟨t, ts', m, ms, hprinted, htexts, hlt⟩ := h
  · left
    rw [hnew]
    simp only [List.length_append] at hlost ⊢
    omega
  · right
    exact ⟨t, ts' ++ new, m, ms ++ ts, by rw [hnew, hprinted]; rfl, by rw [htexts]; rfl, hlt⟩

/-- The first read took the start of a message with the string. -/
inductive Garbled (s : Session) (texts : List CString) : Prop
  | taken {m rest} : s.worker ≠ .testing → s.client = .accepted → s.texts = [] → texts = m :: rest →
      m.strlen < sizeofText →
      s.pipe = (sendMessage subscriberCode m).drop 1020 ++ messageBytes subscriberCode rest → Garbled s texts
  | spoiled : s.worker ≠ .testing → s.client ≠ .testing → s.client ≠ .accepted → Spoiled s texts → Garbled s texts

/-- The first read takes the start of a message as well. -/
theorem InStep.garbled (h : InStep s texts) (hc : s.client = .testing) (hlong : messageTest.length < s.pipe.length)
    {b : Mem} (hb : b = readPipe s.messageBuffer 0 sizeofMessage s.pipe) :
    Garbled ({ s with pipe := s.pipe.drop sizeofMessage, messageBuffer := b } : Session).test texts := by
  have hne : s.pipe ≠ [] := List.ne_nil_of_length_pos (Nat.lt_of_le_of_lt (Nat.zero_le _) hlong)
  obtain ⟨hworker, hpipe, -, htest⟩ := h.read_string hc hne hb
  rw [htest]
  cases texts with
  | nil =>
      rw [hpipe, messageBytes_nil, List.append_nil] at hlong
      exact absurd hlong (Nat.lt_irrefl _)
  | cons m rest =>
      refine .taken hworker rfl (h.silent hc) rfl (h.short m List.mem_cons_self) ?_
      have hsize : sizeofMessage = messageTest.length + 1020 := rfl
      have hlen := length_sendMessage subscriberCode m
      rw [hpipe, hsize, ← List.drop_drop, List.drop_left, messageBytes_cons, List.drop_append_of_le_length (by omega)]

namespace Garbled

/-- What is left of a message of which the start was taken, if it passes for a message at all. -/
theorem read_taken {m : CString} {rest : List CString} {b : Mem} (hm : m.strlen < sizeofText)
    (hpipe : s.pipe = (sendMessage subscriberCode m).drop 1020 ++ messageBytes subscriberCode rest)
    (hb : b = readPipe s.messageBuffer 0 sizeofMessage s.pipe) (hcode : b 0 = subscriberCode) :
    (messageText b).strlen < m.strlen := by
  have hlen : ((sendMessage subscriberCode m).drop 1020).length = 5 := by
    rw [List.length_drop, length_sendMessage]
    rfl
  have hget : ∀ i < 5, some (b i) = (storeStringInBuffer m sizeofText)[1019 + i]? := by
    intro i hi
    have hlt : i < s.pipe.length := by
      rw [hpipe, List.length_append]
      omega
    have hbi : b i = s.pipe[i] := by
      have hread : readPipe s.messageBuffer 0 sizeofMessage s.pipe (0 + i) = s.pipe[i] :=
        readPipe_apply (Nat.lt_of_lt_of_le hi (by decide)) hlt
      rwa [Nat.zero_add, ← hb] at hread
    rw [hbi, ← List.getElem?_eq_getElem hlt, hpipe, List.getElem?_append_left (by omega), List.getElem?_drop,
      sendMessage]
    have hsucc : 1020 + i = (1019 + i) + 1 := by omega
    rw [hsucc, List.getElem?_cons_succ]
  have hlong : 1019 < m.strlen := by
    by_contra hle
    have hzero := hget 0 (by omega)
    rw [getElem?_storeStringInBuffer (by omega) (by decide), hcode] at hzero
    exact absurd hzero (by decide)
  have hnul : b.ptr 1 3 = 0 := by
    have hzero := hget 4 (by omega)
    have hmax : sizeofText = 1024 := rfl
    rw [getElem?_storeStringInBuffer (by omega) (by decide), Option.some.injEq] at hzero
    exact hzero
  have hshort : (messageText b).strlen ≤ 3 := removeStringsFromBuffer_le_of_nul hnul
  omega

theorem read_rest {m : CString} {rest : List CString} {b : Mem} (hw : s.worker ≠ .testing) (hnone : s.texts = [])
    (hm : m.strlen < sizeofText)
    (hpipe : s.pipe = (sendMessage subscriberCode m).drop 1020 ++ messageBytes subscriberCode rest) (hne : s.pipe ≠ [])
    (hb : b = readPipe s.messageBuffer 0 sizeofMessage s.pipe) :
    Garbled ({ s with pipe := s.pipe.drop sizeofMessage, messageBuffer := b } : Session).take (m :: rest) := by
  refine .spoiled hw nofun nofun ?_
  by_cases hcode : b 0 = subscriberCode
  · refine Or.inr ⟨messageText b, [], m, rest, ?_, rfl, read_taken hm hpipe hb hcode⟩
    change s.texts ++ (if b 0 = subscriberCode then [messageText b] else []) = _
    rw [hnone, if_pos hcode]
    rfl
  · refine Or.inl ?_
    change (s.texts ++ if b 0 = subscriberCode then [messageText b] else []).length +
      readsLeft (s.pipe.drop sizeofMessage) < _
    rw [hnone, if_neg hcode]
    have hreads := readsLeft_drop hne
    have hcount : readsLeft s.pipe = rest.length + 1 := by
      have hsize : sizeofMessage = 1025 := rfl
      rw [readsLeft, hpipe, List.length_append, length_messageBytes, List.length_drop, length_sendMessage, hsize]
      omega
    simp only [List.append_nil, List.length_nil, List.length_cons]
    omega

theorem step {x : Session × List CString} {e : Event} (h : Garbled x.1 x.2) (ho : Outcome x.1 e s') :
    Garbled s' (written x.2 x.1 e s') := by
  cases h with
  | @taken m rest hw hc hnone htexts hm hpipe =>
      have hne : x.1.pipe ≠ [] := by
        refine List.ne_nil_of_length_pos ?_
        rw [hpipe, List.length_append, List.length_drop, length_sendMessage]
        exact Nat.lt_add_right _ (by decide)
      cases ho with
      | test hw' => exact absurd hw' hw
      | @send text =>
          have htexts' : x.2 ++ [text.1] = m :: (rest ++ [text.1]) := by rw [htexts, List.cons_append]
          refine .taken hw hc hnone htexts' hm ?_
          rw [messageBytes_append, ← List.append_assoc, ← hpipe]
      | close => exact .taken nofun hc hnone htexts hm hpipe
      | readTest hc' | eofTest hc' | eofReading hc' | print hc' =>
          rw [hc] at hc'
          cases hc'
      | readMessage _ _ hb =>
          simp only [written]
          rw [htexts]
          exact read_rest hw hnone hm hpipe hne hb
      | eofAccepted _ hnil => exact absurd hnil hne
  | spoiled hw htest hacc h =>
      cases ho with
      | test hw' => exact absurd hw' hw
      | readTest hc | eofTest hc => exact absurd hc htest
      | eofAccepted hc => exact absurd hc hacc
      | @send text =>
          refine .spoiled hw htest hacc (h.next [] [text.1] (List.append_nil _).symm rfl ?_)
          exact (Nat.zero_add _).trans_le readsLeft_send.le
      | close => exact .spoiled nofun htest hacc h
      | @readMessage b hc hne hb =>
          have hc := hc.resolve_left hacc
          have hreads := readsLeft_drop hne
          have hone := ClientPhase.length_pending (.printing (b 0) (messageText b))
          refine .spoiled hw nofun nofun (h.next (ClientPhase.printing (b 0) (messageText b)).pending [] ?_
            (List.append_nil _).symm ?_)
          · rw [hc]
            exact congrArg (· ++ _) (List.append_nil _).symm
          · change _ + readsLeft (x.1.pipe.drop sizeofMessage) ≤ _ + 0
            omega
      | eofReading hc =>
          refine .spoiled hw nofun nofun (h.next [] [] ?_ (List.append_nil _).symm (Nat.zero_add _).le)
          rw [Session.finish_texts, hc, List.append_nil]
          rfl
      | @print code message hc =>
          obtain ⟨hsame, hworker, hclient⟩ := x.1.print_fields code message
          refine .spoiled (by rw [hworker]; exact hw) (by rw [hclient]; nofun) (by rw [hclient]; nofun)
            (h.next [] [] ?_ (List.append_nil _).symm ?_)
          · rw [Session.print_texts, hclient, hc, List.append_nil]
            exact List.append_nil _
          · rw [hsame]
            exact (Nat.zero_add _).le

theorem texts_ne (h : Garbled s texts) (hexit : s.client = .exited) : s.texts ≠ texts := by
  intro hall
  cases h with
  | taken _ hc =>
      rw [hexit] at hc
      cases hc
  | spoiled _ _ _ h =>
      rw [Spoiled, hexit] at h
      simp only [ClientPhase.pending, List.append_nil, hall] at h
      obtain hlost | ⟨t, ts, m, ms, hprinted, hwritten, hlt⟩ := h
      · omega
      · rw [hprinted, List.cons.injEq] at hwritten
        rw [hwritten.1] at hlt
        exact absurd hlt (Nat.lt_irrefl _)

end Garbled

end Mbroker.Subscriber
