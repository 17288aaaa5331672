import Mbroker.Dispatch.Model

/-!
# The end of the loop of main

SIGINT sets `end`, which `main` looks at before it reads. A read that it interrupts is followed by `pcq_enqueue` all the
same, and the buffer still holds the request before.
-/

namespace Mbroker.Dispatch

open Mbroker.Lib Mbroker.Protocol Mbroker.Queue

variable {s : System} {x x' : System × Log} {e : Event} {es es' : List Event} {k : Nat} {b : List UInt8}

/-! ## What a step does to main -/

inductive MainOutcome (x : System × Log) : Event → System × Log → Prop
  /-- `main` and its buffer stay as they are. -/
  | other {e : Event} {s : System} {l : Log} : s.main = x.1.main → s.memory = x.1.memory →
      (x.1.«end» = true → s.«end» = true) → l.enqueued = x.2.enqueued → MainOutcome x e (s, l)
  | test : x.1.main = .testing →
      MainOutcome x .test ({ x.1 with main := if x.1.«end» then .exited else .reading }, x.2)
  | read {s : System} : x.1.main = .reading → s.main = .enqueuing → s.«end» = x.1.«end» → MainOutcome x .read (s, x.2)
  | interrupted : x.1.main = .reading → MainOutcome x .interrupted ({ x.1 with main := .enqueuing }, x.2)
  | enqueue {queue} : x.1.main = .enqueuing → MainOutcome x .enqueue
      ({ x.1 with queue := queue, main := .testing }, { x.2 with enqueued := x.2.enqueued ++ [x.1.buffer] })

theorem Log.decode_enqueued (l : Log) (w : Nat) (phase : WorkerPhase) : (l.decode w phase).enqueued = l.enqueued := by
  cases phase <;> rfl

theorem LoggedStep.main (h : LoggedStep x e x') : MainOutcome x e x' := by
  obtain ⟨hs, hlog⟩ := h
  obtain ⟨s', l'⟩ := x'
  simp only at hs hlog
  subst hlog
  have hend : ∀ {w : Nat}, e.worker = some w → x.1.«end» = true → s'.«end» = true := by
    intro w hw hend
    cases e <;> simp only [Event.worker, reduceCtorEq] at hw <;> simp only [Step, step] at hs <;>
      repeat' split at hs
    all_goals cases hs
    all_goals exact hend
  cases e with
  | write r =>
      cases hs
      exact .other rfl rfl id rfl
  | signal =>
      cases hs
      exact .other rfl rfl (fun _ => rfl) rfl
  | test =>
      simp only [Step, step] at hs
      split at hs
      · rename_i hmain
        cases hs
        exact .test hmain
      · cases hs
  | read =>
      simp only [Step, step] at hs
      split at hs
      · rename_i hmain hpipe
        cases hs
        exact .read hmain rfl rfl
      · cases hs
  | interrupted =>
      simp only [Step, step] at hs
      split at hs
      · rename_i hmain
        cases hs
        exact .interrupted hmain
      · cases hs
  | enqueue =>
      simp only [Step, step] at hs
      split at hs
      · rename_i hmain hq
        cases hs
        exact .enqueue hmain
      · cases hs
  | dequeue w | finish w =>
      obtain ⟨-, hmemory, hmain⟩ := hs.of_worker rfl
      exact .other hmain hmemory (hend rfl) rfl
  | copyCode w | copyPath w | copyBox w =>
      obtain ⟨-, hmemory, hmain⟩ := hs.of_worker rfl
      exact .other hmain hmemory (hend rfl) (Log.decode_enqueued _ _ _)

/-! ## After SIGINT -/

/-- `end` is set, and `main` has enqueued at most one pointer more than `k`. -/
structure Stopping (k : Nat) (x : System × Log) : Prop where
  «end» : x.1.«end» = true
  enqueued : x.2.enqueued.length ≤ k + 1
  main : x.1.main = .testing ∨ x.1.main = .exited ∨ x.2.enqueued.length ≤ k

/-- Inside the loop the pointer that may still come has not. -/
theorem Stopping.le (h : Stopping k x) (htest : x.1.main ≠ .testing) (hexit : x.1.main ≠ .exited) :
    x.2.enqueued.length ≤ k := (h.main.resolve_left htest).resolve_left hexit

theorem Stopping.step (h : Stopping k x) (ho : MainOutcome x e x') : Stopping k x' := by
  cases ho with
  | other hmain _ hend hlog =>
      refine ⟨hend h.«end», hlog ▸ h.enqueued, ?_⟩
      rw [hmain, hlog]
      exact h.main
  | test => exact ⟨h.«end», h.enqueued, Or.inr (Or.inl (if_pos h.«end»))⟩
  | read hmain _ hend =>
      have hle := h.le (by rw [hmain]; nofun) (by rw [hmain]; nofun)
      exact ⟨hend.trans h.«end», h.enqueued, Or.inr (Or.inr hle)⟩
  | interrupted hmain =>
      have hle := h.le (by rw [hmain]; nofun) (by rw [hmain]; nofun)
      exact ⟨h.«end», h.enqueued, Or.inr (Or.inr hle)⟩
  | enqueue hmain =>
      have hle := h.le (by rw [hmain]; nofun) (by rw [hmain]; nofun)
      refine ⟨h.«end», ?_, Or.inl rfl⟩
      rw [List.length_append, List.length_singleton]
      exact Nat.succ_le_succ hle

/-! ## The buffer -/

/-- Until the next read, the buffer holds what was enqueued last. -/
def HoldsLast (x : System × Log) : Prop :=
  x.1.main ≠ .enqueuing → ∀ b, x.2.enqueued.getLast? = some b → x.1.buffer = b

theorem System.buffer_congr {s' : System} (h : s'.memory = s.memory) : s'.buffer = s.buffer := by
  rw [System.buffer, h]
  rfl

theorem HoldsLast.step (h : HoldsLast x) (ho : MainOutcome x e x') : HoldsLast x' := by
  cases ho with
  | other hmain hmemory _ hlog =>
      intro hne b hb
      rw [System.buffer_congr hmemory]
      exact h (hmain ▸ hne) b (hlog ▸ hb)
  | test hmain => exact fun _ => h (by rw [hmain]; nofun)
  | read _ hmain => exact fun hne => absurd hmain hne
  | interrupted => exact fun hne => absurd rfl hne
  | enqueue =>
      intro _ b hb
      simp only [List.getLast?_concat, Option.some.injEq] at hb
      exact hb

/-- From now on the buffer holds `b`, and what is enqueued behind `l` is that. -/
def Repeats (b : List UInt8) (l : List (List UInt8)) (x : System × Log) : Prop :=
  x.1.buffer = b ∧ ∃ n, x.2.enqueued = l ++ List.replicate n b

theorem Repeats.step {l : List (List UInt8)} (h : Repeats b l x) (he : e ≠ .read) (ho : MainOutcome x e x') :
    Repeats b l x' := by
  obtain ⟨hbuffer, n, hn⟩ := h
  cases ho with
  | other _ hmemory _ hlog => exact ⟨(System.buffer_congr hmemory).trans hbuffer, n, hlog.trans hn⟩
  | test | interrupted => exact ⟨hbuffer, n, hn⟩
  | read => exact absurd rfl he
  | enqueue =>
      refine ⟨hbuffer, n + 1, ?_⟩
      rw [hn, hbuffer, List.append_assoc, List.replicate_succ']

/-! ## SIGINT -/

end Mbroker.Dispatch
