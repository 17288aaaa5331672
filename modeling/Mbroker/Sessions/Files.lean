import Mbroker.Fs.Views
import Mbroker.Sessions.Invariants

/-!
# The files of the sessions

The broker's file system seen through the handles of the sessions in progress. A session that ends leaves its
handle open; it is not seen any more, so its file may be removed.
-/

namespace Mbroker.Sessions

open Mbroker.Lib Mbroker.Fs Mbroker.Protocol

variable {b b' b₁ : Broker} {e : Event} {L L' : Layout} {a a' : FileSystem} {w : Nat} {old phase : Phase}
  {p : CString}

/-! ## What is known -/

/-- The name of the file that the handle `i` is on. -/
def fileOf (a : FileSystem) (i : Nat) : Option (List UInt8) := (a.handles i).map Prod.fst

theorem fileOf_eq_some {i : Nat} {n : List UInt8} : fileOf a i = some n ↔ ∃ off, a.handles i = some (n, off) := by
  simp [fileOf]

@[simp] theorem fileOf_setHandle_same {i : Nat} {x : Option (List UInt8 × Nat)} :
    fileOf (a.setHandle i x) i = x.map Prod.fst := by
  simp [fileOf]

theorem fileOf_setHandle_ne {i j : Nat} {x : Option (List UInt8 × Nat)} (hji : j ≠ i) :
    fileOf (a.setHandle i x) j = fileOf a j := by
  simp [fileOf, FileSystem.setHandle_ne hji]

theorem fileOf_seek {i off off' : Nat} {n : List UInt8} (hi : a.handles i = some (n, off)) (j : Nat) :
    fileOf (a.setHandle i (some (n, off'))) j = fileOf a j := by
  by_cases hji : j = i
  · subst hji
    simp [fileOf, hi]
  · exact fileOf_setHandle_ne hji

/-- The sessions in progress and their files: the handles in view are those of the sessions, one each. -/
structure Files (b : Broker) (L : Layout) (a : FileSystem) : Prop where
  view : View b.fs L a
  params : b.fs.fsParams = tfsDefaultParams
  outside : ∀ v, b.numThreads ≤ v → b.phase v = .idle
  session : ∀ v p (i : Nat), (b.phase v).opened = some (p, (i : Int)) →
    validPathname p = true ∧ fileOf a i = some p.tail.chars
  owner : ∀ i n, fileOf a i = some n → ∃ v p, (b.phase v).opened = some (p, (i : Int)) ∧ p.tail.chars = n
  apart : ∀ v u p q (i : Nat), (b.phase v).opened = some (p, (i : Int)) → (b.phase u).opened = some (q, (i : Int)) →
    v = u

theorem Broker.Started.files (h : b.Started) : Files b Layout.empty FileSystem.empty where
  view := h.initialised.view
  params := h.initialised.params
  outside := fun v _ => h.phase v
  session := fun v p i hv => by
    rw [h.phase v] at hv
    cases hv
  owner := fun i n hi => by cases hi
  apart := fun v u p q i hv => by
    rw [h.phase v] at hv
    cases hv

/-- What the view shows of the sessions of the other workers stays as it is. -/
def Untouched (b : Broker) (w : Nat) (a a' : FileSystem) : Prop :=
  ∀ v p (i : Nat), v ≠ w → (b.phase v).opened = some (p, (i : Int)) →
    a'.handles i = a.handles i ∧ a'.content p.tail.chars = a.content p.tail.chars

theorem Untouched.refl : Untouched b w a a := fun _ _ _ _ _ => ⟨rfl, rfl⟩

/-- A file is not removed while a session in progress has a handle on it. -/
def NotRemoved (b : Broker) : Event → Prop
  | .tfsUnlink w => match b.phase w with
    | .remove name => ∀ v < b.numThreads, ∀ f ∈ (b.phase v).opened, 0 ≤ f.2 → f.1 ≠ name
    | _ => True
  | _ => True

instance (b : Broker) : DecidablePred (NotRemoved b) := by
  intro e
  induction e using Event.casesOn with
  | tfsUnlink w =>
      dsimp only [NotRemoved]
      induction b.phase w using Phase.casesOn with
      | remove name => infer_instance
      | _ => exact isTrue trivial
  | _ => exact isTrue trivial

namespace Files

/-- The file of a session, and where its handle is in it. -/
theorem handle (h : Files b L a) {v i : Nat} (hv : (b.phase v).opened = some (p, (i : Int))) :
    validPathname p = true ∧ p.tail.chars ∈ a.names ∧
      ∃ off, a.handles i = some (p.tail.chars, off) ∧ off ≤ (a.content p.tail.chars).length := by
  obtain ⟨hp, hfile⟩ := h.session v p i hv
  obtain ⟨off, hi⟩ := fileOf_eq_some.mp hfile
  obtain ⟨hn, -, hoff, -⟩ := h.view.entry hi
  exact ⟨hp, hn, off, hi, hoff⟩

theorem tail_ne (h : Files b L a) {v u i j : Nat} {q : CString} (hv : (b.phase v).opened = some (p, (i : Int)))
    (hu : (b.phase u).opened = some (q, (j : Int))) (hpq : p ≠ q) : p.tail.chars ≠ q.tail.chars := by
  intro he
  exact hpq (eq_of_slash (h.session u q j hu).1 (by rw [← he]; exact slash_tail (h.session v p i hv).1))

theorem untouched_of_free (h : Files b L a) {i : Nat} {x : Option (List UInt8 × Nat)} (hi : a.handles i = none) :
    Untouched b w a (a.setHandle i x) := by
  intro v p j _ hv
  refine ⟨FileSystem.setHandle_ne ?_, rfl⟩
  rintro rfl
  obtain ⟨-, -, off, hj, -⟩ := h.handle hv
  rw [hi] at hj
  cases hj

/-- The handle of the worker `w` is nobody else's. -/
theorem untouched_of_own (h : Files b L a) {i : Nat} {x : Option (List UInt8 × Nat)}
    (hw : (b.phase w).opened = some (p, (i : Int))) : Untouched b w a (a.setHandle i x) := by
  intro v q j hvw hv
  refine ⟨FileSystem.setHandle_ne ?_, rfl⟩
  rintro rfl
  exact hvw (h.apart v w q p j hv hw)

/-! ## Steps that open and end no session -/

theorem outsideIdle (h : Files b L a) : OutsideIdle b := h.outside

theorem lt_of_opened (h : Files b L a) {v : Nat} {f : CString × Int} (hv : (b.phase v).opened = some f) :
    v < b.numThreads := by
  by_contra hle
  rw [h.outside v (not_lt.mp hle)] at hv
  cases hv

theorem opened_setPhase (hb : b₁.phase = b.phase) (hw : b.phase w = old) (hop : phase.opened = old.opened) (v : Nat) :
    ((b₁.setPhase w phase).phase v).opened = (b.phase v).opened := by
  simp only [Broker.setPhase, hb]
  by_cases hvw : v = w
  · subst hvw
    rw [Function.update_self, hop, hw]
  · rw [Function.update_of_ne hvw]

theorem keep (h : Files b L a) (hb : b₁.phase = b.phase) (hthreads : b₁.numThreads = b.numThreads)
    (hlt : w < b.numThreads) (hw : b.phase w = old) (hop : phase.opened = old.opened) (hview : View b₁.fs L' a')
    (hparams : b₁.fs.fsParams = b.fs.fsParams) (hfile : ∀ i, fileOf a' i = fileOf a i) :
    Files (b₁.setPhase w phase) L' a' where
  view := hview
  params := hparams.trans h.params
  outside := h.outsideIdle.setPhase hb hthreads hlt
  session := fun v p i hv => by
    rw [opened_setPhase hb hw hop] at hv
    rw [hfile]
    exact h.session v p i hv
  owner := fun i n hi => by
    rw [hfile] at hi
    obtain ⟨v, p, hv, hp⟩ := h.owner i n hi
    exact ⟨v, p, by rw [opened_setPhase hb hw hop]; exact hv, hp⟩
  apart := fun v u p q i hv hu => by
    rw [opened_setPhase hb hw hop] at hv hu
    exact h.apart v u p q i hv hu

theorem quiet (h : Files b L a) (hb : b₁.phase = b.phase) (hthreads : b₁.numThreads = b.numThreads)
    (hfs : b₁.fs = b.fs) (hw : b.phase w = old) (hold : old.isIdle = false) (hop : phase.opened = old.opened) :
    Files (b₁.setPhase w phase) L a :=
  h.keep hb hthreads (h.outsideIdle.lt hw hold) hw hop (by rw [hfs]; exact h.view) (by rw [hfs]) fun _ => rfl

/-! ## The end of a session -/

end Files

/-- The view when what a session opened is not used any more. -/
def release (a : FileSystem) : Option (CString × Int) → FileSystem
  | some (_, .ofNat i) => a.setHandle i none
  | _ => a

theorem release_content (f : Option (CString × Int)) : (release a f).content = a.content := by
  unfold release
  split <;> rfl

theorem release_names (f : Option (CString × Int)) : (release a f).names = a.names := by
  unfold release
  split <;> rfl

theorem release_handles {f : Option (CString × Int)} {i : Nat} (hi : ∀ p, f ≠ some (p, (i : Int))) :
    (release a f).handles i = a.handles i := by
  unfold release
  split
  · rename_i p j
    refine FileSystem.setHandle_ne ?_
    rintro rfl
    exact hi p rfl
  · rfl

theorem release_self {q : CString} {i : Nat} : (release a (some (q, (i : Int)))).handles i = none :=
  FileSystem.setHandle_same

namespace Files

theorem untouched_release (h : Files b L a) : Untouched b w a (release a (b.phase w).opened) := by
  intro v p i hvw hv
  refine ⟨release_handles fun q hq => ?_, by rw [release_content]⟩
  exact hvw (h.apart v w p q i hv hq)

theorem finish (h : Files b L a) (hb : b₁.phase = b.phase) (hthreads : b₁.numThreads = b.numThreads)
    (hfs : b₁.fs = b.fs) (hw : b.phase w = old) (hold : old.isIdle = false) (hop : phase.opened = none) :
    Files (b₁.setPhase w phase) L (release a old.opened) := by
  have hother : ∀ v p (i : Int), ((b₁.setPhase w phase).phase v).opened = some (p, i) →
      v ≠ w ∧ (b.phase v).opened = some (p, i) := by
    intro v p i hv
    exact setPhase_none hb hop hv
  refine
    { view := ?_
      params := by rw [← h.params, ← hfs]; rfl
      outside := h.outsideIdle.setPhase hb hthreads (h.outsideIdle.lt hw hold)
      session := fun v p i hv => ?_
      owner := fun i n hi => ?_
      apart := fun v u p q i hv hu => h.apart v u p q i (hother v p i hv).2 (hother u q i hu).2 }
  · change View b₁.fs L _
    rw [hfs]
    unfold release
    split
    · exact h.view.forget _
    · exact h.view
  · obtain ⟨hvw, hv⟩ := hother v p i hv
    obtain ⟨hp, hfile⟩ := h.session v p i hv
    refine ⟨hp, ?_⟩
    rw [fileOf, release_handles fun q hq => ?_]
    · exact hfile
    · exact hvw (h.apart v w p q i hv (by rw [hw]; exact hq))
  · by_cases hq : ∃ q, old.opened = some (q, (i : Int))
    · obtain ⟨q, hq⟩ := hq
      rw [hq, fileOf, release_self] at hi
      cases hi
    · rw [fileOf, release_handles fun q hq' => hq ⟨q, hq'⟩] at hi
      obtain ⟨v, p, hv, hp⟩ := h.owner i n hi
      have hvw : v ≠ w := by
        rintro rfl
        rw [hw] at hv
        exact hq ⟨p, hv⟩
      refine ⟨v, p, ?_, hp⟩
      simp only [Broker.setPhase_ne _ _ hvw, hb]
      exact hv

/-! ## Calls of TecnicoFS -/

theorem opening (h : Files b L a) {r : Int} (hb : b₁.phase = b.phase) (hthreads : b₁.numThreads = b.numThreads)
    (hw : b.phase w = old) (hold : old.isIdle = false) (hnone : old.opened = none) (hop : phase.opened = some (p, r))
    (hview : View b₁.fs L a') (hparams : b₁.fs.fsParams = b.fs.fsParams)
    (hnew : ∀ i : Nat, r = i → a.handles i = none ∧ validPathname p = true ∧ fileOf a' i = some p.tail.chars)
    (hkeep : ∀ i : Nat, r ≠ i → fileOf a' i = fileOf a i) : Files (b₁.setPhase w phase) L a' := by
  have hself : ((b₁.setPhase w phase).phase w).opened = some (p, r) := by
    simp only [Broker.setPhase_self, hop]
  have hother : ∀ v, v ≠ w → ((b₁.setPhase w phase).phase v).opened = (b.phase v).opened := by
    intro v hv
    simp only [Broker.setPhase_ne _ _ hv, hb]
  have hdiff : ∀ v q (i : Nat), v ≠ w → (b.phase v).opened = some (q, (i : Int)) → r ≠ i := by
    rintro v q i hv hq rfl
    obtain ⟨-, hfile⟩ := h.session v q i hq
    rw [fileOf, (hnew i rfl).1] at hfile
    cases hfile
  refine
    { view := hview
      params := hparams.trans h.params
      outside := h.outsideIdle.setPhase hb hthreads (h.outsideIdle.lt hw hold)
      session := fun v q i hv => ?_
      owner := fun i n hi => ?_
      apart := fun v u q q' i hv hu => ?_ }
  · by_cases hvw : v = w
    · subst hvw
      rw [hself] at hv
      cases hv
      exact (hnew i rfl).2
    · rw [hother v hvw] at hv
      rw [hkeep i (hdiff v q i hvw hv)]
      exact h.session v q i hv
  · by_cases hri : r = i
    · rw [(hnew i hri).2.2] at hi
      cases hi
      exact ⟨w, p, by rw [hself, hri], rfl⟩
    · rw [hkeep i hri] at hi
      obtain ⟨v, q, hv, hq⟩ := h.owner i n hi
      refine ⟨v, q, ?_, hq⟩
      rw [hother v ?_]
      · exact hv
      · rintro rfl
        rw [hw, hnone] at hv
        cases hv
  · by_cases hvw : v = w
    · by_cases huw : u = w
      · rw [hvw, huw]
      · rw [hvw, hself] at hv
        rw [hother u huw] at hu
        cases hv
        exact absurd rfl (hdiff u q' i huw hu)
    · rw [hother v hvw] at hv
      by_cases huw : u = w
      · rw [huw, hself] at hu
        cases hu
        exact absurd rfl (hdiff v q i hvw hv)
      · rw [hother u huw] at hu
        exact h.apart v u q q' i hv hu

theorem openBox (h : Files b L a) {mode : Nat} {res : Int × State} (phase : Phase)
    (hmode : mode = 0 ∨ mode = tfsOAppend) (hw : b.phase w = old) (hold : old.isIdle = false)
    (hnone : old.opened = none)
    (he : Fs.tfsOpen b.fs (some p) mode = .ok res) (hop : phase.opened = some (p, res.1)) :
    res.1 = -1 ∧ Files ({ b with fs := res.2 }.setPhase w phase) L a ∨
      ∃ i : Nat, res.1 = i ∧ a.handles i = none ∧ Files ({ b with fs := res.2 }.setPhase w phase) L
        (a.setHandle i
          (some (p.tail.chars, if hasFlag mode tfsOAppend then (a.content p.tail.chars).length else 0))) := by
  have hflags : hasFlag mode tfsOCreat = false ∧ hasFlag mode tfsOTrunc = false := by
    obtain rfl | rfl := hmode
    · exact ⟨rfl, rfl⟩
    · exact ⟨rfl, rfl⟩
  have hparams : res.2.fsParams = b.fs.fsParams := by
    obtain ⟨-, hsame, -⟩ | ⟨-, -, hsame, -⟩ := h.view.inv.tfsOpen_effect he
    · exact hsame
    · exact hsame
  obtain ⟨hr, hview⟩ | ⟨i, hr, hi, hp, -, hview⟩ := h.view.tfsOpen hflags.1 hflags.2 he
  · refine Or.inl ⟨hr, h.opening rfl rfl hw hold hnone hop hview hparams (fun j hj => ?_) fun _ _ => rfl⟩
    omega
  · refine Or.inr ⟨i, hr, hi, h.opening rfl rfl hw hold hnone hop hview hparams (fun j hj => ?_) fun j hj => ?_⟩
    · obtain rfl : i = j := by omega
      exact ⟨hi, hp, by simp⟩
    · exact fileOf_setHandle_ne (by rintro rfl; exact hj hr)

theorem createBox (h : Files b L a) {res : Int × State} (hw : b.phase w = old) (hold : old.isIdle = false)
    (hnone : old.opened = none) (he : Fs.tfsOpen b.fs (some p) tfsOCreat = .ok res) (hop : phase.opened = none) :
    ∃ L' a', Files ({ b with fs := res.2 }.setPhase w phase) L' a' ∧ Untouched b w a a' ∧
      (a' = a ∨ p.tail.chars ∉ a.names ∧
        a' = { a.setContent p.tail.chars [] with names := insert p.tail.chars a.names }) := by
  have hparams : res.2.fsParams = b.fs.fsParams := by
    obtain ⟨-, hsame, -⟩ | ⟨-, -, hsame, -⟩ := h.view.inv.tfsOpen_effect he
    · exact hsame
    · exact hsame
  obtain ⟨L', hview | ⟨hnew, hview⟩⟩ := h.view.tfsOpen_create he
  · exact ⟨L', a, h.keep rfl rfl (h.outsideIdle.lt hw hold) hw (by rw [hop, hnone]) hview hparams fun _ => rfl, .refl,
      Or.inl rfl⟩
  · refine ⟨L', _, h.keep rfl rfl (h.outsideIdle.lt hw hold) hw (by rw [hop, hnone]) hview hparams fun _ => rfl,
      fun v q i _ hv => ⟨rfl, FileSystem.setContent_ne fun he => hnew ?_⟩, Or.inr ⟨hnew, rfl⟩⟩
    rw [← he]
    exact (h.handle hv).2.1

theorem removeBox (h : Files b L a) {res : Int × State} (hw : b.phase w = .remove p)
    (hg : NotRemoved b (.tfsUnlink w)) (he : Fs.tfsUnlink b.fs (some p) = .ok res) (hop : phase.opened = none) :
    ∃ L' a', Files ({ b with fs := res.2 }.setPhase w phase) L' a' ∧ Untouched b w a a' ∧
      (a' = a ∨ a' = { a with names := a.names.erase p.tail.chars }) := by
  have hhandle : validPathname p = true → ¬ a.HasHandle p.tail.chars := by
    rintro hp ⟨i, off, hi⟩
    obtain ⟨v, q, hv, hq⟩ := h.owner i p.tail.chars (fileOf_eq_some.mpr ⟨off, hi⟩)
    have hqp : q = p := eq_of_slash hp (by rw [slash_tail (h.session v q i hv).1, hq])
    simp only [NotRemoved, hw] at hg
    exact hg v (h.lt_of_opened hv) (q, i) hv (by omega) hqp
  have hparams : res.2.fsParams = b.fs.fsParams := (h.view.inv.tfsUnlink_same he).1
  obtain ⟨L', hview | hview⟩ := h.view.tfsUnlink hhandle he
  · exact ⟨L', a, h.keep rfl rfl (h.outsideIdle.lt hw rfl) hw hop hview hparams fun _ => rfl, .refl, Or.inl rfl⟩
  · exact ⟨L', _, h.keep rfl rfl (h.outsideIdle.lt hw rfl) hw hop hview hparams fun _ => rfl,
      fun _ _ _ _ _ => ⟨rfl, rfl⟩, Or.inr rfl⟩

theorem read (h : Files b L a) {fh : Int} {len : Nat} {res : Int × List UInt8 × State} (hb : b₁.phase = b.phase)
    (hthreads : b₁.numThreads = b.numThreads) (hfs : b₁.fs = res.2.2) (hw : b.phase w = old)
    (hold : old.isIdle = false) (hf : old.opened = some (p, fh)) (he : Fs.tfsRead b.fs fh len = .ok res)
    (hres : 0 ≤ res.1) (hop : phase.opened = old.opened) :
    ∃ (i off : Nat), fh = i ∧ a.handles i = some (p.tail.chars, off) ∧
      res.2.1 = ((a.content p.tail.chars).drop off).take len ∧ Files (b₁.setPhase w phase) L
        (a.setHandle i (some (p.tail.chars, off + res.2.1.length))) := by
  have ho := h.view.inv.tfsRead_outcome he
  obtain ⟨i, rfl⟩ : ∃ i : Nat, fh = i := by
    cases ho with
    | closed hget =>
        have hres : (0 : Int) ≤ -1 := hres
        omega
    | nothing => exact ⟨_, rfl⟩
    | data => exact ⟨_, rfl⟩
  obtain ⟨off, hi⟩ := fileOf_eq_some.mp (h.session w p i (by rw [hw]; exact hf)).2
  obtain ⟨hdata, hview⟩ := h.view.tfsRead hi he
  refine ⟨i, off, rfl, hi, hdata, h.keep hb hthreads (h.outsideIdle.lt hw hold) hw hop ?_ ?_ (fileOf_seek hi)⟩
  · rw [hfs]
    exact hview
  · rw [hfs]
    exact (h.view.inv.tfsRead_same he).1

/-- A session that writes stores nothing, or what fits the block. -/
theorem write (h : Files b L a) {fh : Int} {m : Nat} {buffer : Mem} {res : Int × State} (phase : Phase)
    (hb : b₁.phase = b.phase)
    (hthreads : b₁.numThreads = b.numThreads) (hfs : b₁.fs = res.2) (hw : b.phase w = old)
    (hold : old.isIdle = false) (hf : old.opened = some (p, fh)) (hm : m ≤ 4096)
    (he : Fs.tfsWrite b.fs fh buffer m = .ok res) (hop : phase.opened = old.opened) :
    res.1 ≤ 0 ∧ Files (b₁.setPhase w phase) L a ∨ 0 < res.1 ∧ ∃ (i off : Nat), fh = i ∧
      a.handles i = some (p.tail.chars, off) ∧ off < b.fs.blockSize ∧
        Files (b₁.setPhase w phase) L
        ((a.setContent p.tail.chars (overwrite (a.content p.tail.chars) off
          (buffer.bytes (min m (b.fs.blockSize - off))))).setHandle i
            (some (p.tail.chars, off + min m (b.fs.blockSize - off)))) := by
  have hparams : b₁.fs.fsParams = b.fs.fsParams := by
    rw [hfs]
    exact (h.view.inv.tfsWrite_same he).1
  have hlt := h.outsideIdle.lt hw hold
  have hsession : ∀ i : Nat, fh = i → res.1 ≤ 0 ∧ Files (b₁.setPhase w phase) L a ∨ 0 < res.1 ∧
      ∃ (i off : Nat), fh = i ∧ a.handles i = some (p.tail.chars, off) ∧ off < b.fs.blockSize ∧
        Files (b₁.setPhase w phase) L
        ((a.setContent p.tail.chars (overwrite (a.content p.tail.chars) off
          (buffer.bytes (min m (b.fs.blockSize - off))))).setHandle i
            (some (p.tail.chars, off + min m (b.fs.blockSize - off)))) := by
    rintro i rfl
    obtain ⟨off, hi⟩ := fileOf_eq_some.mp (h.session w p i (by rw [hw]; exact hf)).2
    obtain ⟨hn, -, hoff, -⟩ := h.view.entry hi
    have hmax := h.view.content_le hn
    have hbs : b.fs.blockSize = 1024 := by rw [State.blockSize, h.params]; rfl
    obtain ⟨hr, hview⟩ | ⟨hr, hroom, hview⟩ := h.view.tfsWrite hi (by omega) he
    · exact Or.inl ⟨hr, h.keep hb hthreads hlt hw hop (by rw [hfs]; exact hview) hparams fun _ => rfl⟩
    · refine Or.inr ⟨hr, i, off, rfl, hi, hroom,
        h.keep hb hthreads hlt hw hop (by rw [hfs]; exact hview) hparams fun j => ?_⟩
      exact fileOf_seek (a := a.setContent _ _) hi j
  obtain ⟨res', he', ho⟩ | ⟨he', -⟩ := h.view.inv.tfsWrite_outcome fh buffer m
  swap
  · rw [he] at he'
    cases he'
  rw [he] at he'
  cases he'
  cases ho with
  | closed hget =>
      have hview : View b₁.fs L a := by rw [hfs]; exact h.view
      exact Or.inl ⟨by simp, h.keep hb hthreads hlt hw hop hview hparams fun _ => rfl⟩
  | nothing => exact hsession _ rfl
  | noBlock => exact hsession _ rfl
  | fresh => exact hsession _ rfl
  | inPlace => exact hsession _ rfl

end Files

end Mbroker.Sessions
