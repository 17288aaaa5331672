import Mathlib.Data.Nat.ModEq
import Mathlib.Logic.Function.Basic
import Mathlib.Tactic.Common

/-!
# The producer-consumer queue

The ring of `producer-consumer/producer-consumer.c`. `pcq_enqueue` and `pcq_dequeue` hold
`pcq_current_size_lock` from the test of the size to the end, so each is one step once it does not have to wait;
`none` stands for a caller that sleeps.
-/

namespace Mbroker.Queue

structure PcQueue (α : Type) where
  pcqBuffer : Nat → α
  pcqCapacity : Nat
  pcqCurrentSize : Nat
  pcqHead : Nat
  pcqTail : Nat

variable {α : Type}

/-- `buffer` is what the memory given by `malloc` holds. -/
def pcqCreate (buffer : Nat → α) (capacity : Nat) : PcQueue α where
  pcqBuffer := buffer
  pcqCapacity := capacity
  pcqCurrentSize := 0
  pcqHead := 0
  pcqTail := 0

def pcqEnqueue (queue : PcQueue α) (elem : α) : Option (PcQueue α) :=
  if queue.pcqCurrentSize = queue.pcqCapacity then none
  else some
    { queue with
      pcqBuffer := Function.update queue.pcqBuffer queue.pcqTail elem
      pcqTail := (queue.pcqTail + 1) % queue.pcqCapacity
      pcqCurrentSize := queue.pcqCurrentSize + 1 }

def pcqDequeue (queue : PcQueue α) : Option (α × PcQueue α) :=
  if queue.pcqCurrentSize = 0 then none
  else some (queue.pcqBuffer queue.pcqHead,
    { queue with
      pcqHead := (queue.pcqHead + 1) % queue.pcqCapacity
      pcqCurrentSize := queue.pcqCurrentSize - 1 })

theorem pcqEnqueue_eq_some {queue queue' : PcQueue α} {x : α} : pcqEnqueue queue x = some queue' ↔
    queue.pcqCurrentSize ≠ queue.pcqCapacity ∧ queue' =
      { queue with
        pcqBuffer := Function.update queue.pcqBuffer queue.pcqTail x
        pcqTail := (queue.pcqTail + 1) % queue.pcqCapacity
        pcqCurrentSize := queue.pcqCurrentSize + 1 } := by
  simp [pcqEnqueue, eq_comm]

theorem pcqDequeue_eq_some {queue queue' : PcQueue α} {x : α} : pcqDequeue queue = some (x, queue') ↔
    queue.pcqCurrentSize ≠ 0 ∧ x = queue.pcqBuffer queue.pcqHead ∧ queue' =
      { queue with
        pcqHead := (queue.pcqHead + 1) % queue.pcqCapacity
        pcqCurrentSize := queue.pcqCurrentSize - 1 } := by
  simp [pcqDequeue, eq_comm]

/-- The elements in the ring, from `pcq_head` on. -/
def PcQueue.contents (queue : PcQueue α) : List α :=
  (List.range queue.pcqCurrentSize).map fun i => queue.pcqBuffer ((queue.pcqHead + i) % queue.pcqCapacity)

/-- The slot `j` of the buffer holds an element. -/
def PcQueue.Occupied (queue : PcQueue α) (j : Nat) : Prop :=
  ∃ i < queue.pcqCurrentSize, (queue.pcqHead + i) % queue.pcqCapacity = j

instance (queue : PcQueue α) : DecidablePred queue.Occupied := fun j => by
  unfold PcQueue.Occupied
  infer_instance

/-! ## First in, first out -/

/-- The queue holds the elements `xs`, the oldest first. -/
structure Holds (queue : PcQueue α) (xs : List α) : Prop where
  size : queue.pcqCurrentSize = xs.length
  le : xs.length ≤ queue.pcqCapacity
  tail : queue.pcqTail = (queue.pcqHead + xs.length) % queue.pcqCapacity
  cell : ∀ i (h : i < xs.length), queue.pcqBuffer ((queue.pcqHead + i) % queue.pcqCapacity) = xs[i]
  head : queue.pcqHead % queue.pcqCapacity = queue.pcqHead

theorem pcqCreate_holds (buffer : Nat → α) (capacity : Nat) : Holds (pcqCreate buffer capacity) [] where
  size := rfl
  le := Nat.zero_le _
  tail := (Nat.zero_mod _).symm
  cell := nofun
  head := Nat.zero_mod _

/-- Distinct places of the ring are distinct entries of the buffer. -/
theorem ring_ne {head i n cap : Nat} (hi : i < n) (hn : n < cap) : (head + i) % cap ≠ (head + n) % cap := by
  intro h
  have hmod := Nat.ModEq.add_left_cancel' head h
  have := Nat.ModEq.eq_of_lt_of_lt hmod (hi.trans hn) hn
  omega

namespace Holds

variable {queue queue' : PcQueue α} {xs : List α} {x : α}

theorem enqueue (h : Holds queue xs) (he : pcqEnqueue queue x = some queue') : Holds queue' (xs ++ [x]) := by
  unfold pcqEnqueue at he
  split at he
  · cases he
  · rename_i hfull
    cases he
    have hlt : xs.length < queue.pcqCapacity := lt_of_le_of_ne h.le (h.size ▸ hfull)
    exact
      { size := by simp [h.size]
        le := by rw [List.length_append]; exact hlt
        tail := by
          rw [List.length_append, List.length_singleton, h.tail]
          simp only [← Nat.add_assoc, Nat.mod_add_mod]
        cell := fun i hi => by
          by_cases hold : i < xs.length
          · have hne : (queue.pcqHead + i) % queue.pcqCapacity ≠ (queue.pcqHead + xs.length) % queue.pcqCapacity :=
              ring_ne hold hlt
            simp only [h.tail, Function.update_of_ne hne, List.getElem_append_left hold]
            exact h.cell i hold
          · obtain rfl : i = xs.length := by simp at hi; omega
            simp only [h.tail, Function.update_self, List.getElem_append_right (le_refl _), Nat.sub_self,
              List.getElem_singleton]
        head := h.head }

theorem dequeue (h : Holds queue xs) (he : pcqDequeue queue = some (x, queue')) :
    ∃ ys, xs = x :: ys ∧ Holds queue' ys := by
  unfold pcqDequeue at he
  split at he
  · cases he
  · rename_i hempty
    cases he
    cases xs with
    | nil => exact absurd h.size hempty
    | cons y ys =>
        have hfirst := h.cell 0 (Nat.succ_pos _)
        rw [Nat.add_zero, h.head, List.getElem_cons_zero] at hfirst
        refine ⟨ys, by rw [hfirst], ?_⟩
        exact
          { size := by simp [h.size]
            le := (Nat.le_succ _).trans h.le
            tail := by
              change queue.pcqTail = _
              rw [h.tail, Nat.mod_add_mod, List.length_cons, Nat.add_assoc, Nat.add_comm 1]
            cell := fun i hi => by
              have hnext := h.cell (i + 1) (by simpa using hi)
              simp only [Nat.mod_add_mod, List.getElem_cons_succ] at hnext ⊢
              rw [Nat.add_assoc, Nat.add_comm 1]
              exact hnext
            head := Nat.mod_mod _ _ }

theorem contents_eq (h : Holds queue xs) : queue.contents = xs := by
  apply List.ext_getElem
  · simp [PcQueue.contents, h.size]
  · intro i h₁ h₂
    simp only [PcQueue.contents, List.getElem_map, List.getElem_range]
    exact h.cell i h₂

/-- An element goes into a slot that held none. -/
theorem occupied_enqueue (h : Holds queue xs) (he : pcqEnqueue queue x = some queue') :
    ¬ queue.Occupied queue.pcqTail ∧ queue.pcqTail < queue.pcqCapacity ∧
      ∀ j, queue'.Occupied j ↔ j = queue.pcqTail ∨ queue.Occupied j := by
  obtain ⟨hfull, rfl⟩ := pcqEnqueue_eq_some.mp he
  have hlt : queue.pcqCurrentSize < queue.pcqCapacity := lt_of_le_of_ne (h.size ▸ h.le) hfull
  have htail : queue.pcqTail = (queue.pcqHead + queue.pcqCurrentSize) % queue.pcqCapacity := by
    rw [h.size]
    exact h.tail
  refine ⟨?_, ?_, fun j => ?_⟩
  · rintro ⟨i, hi, hj⟩
    rw [htail] at hj
    exact ring_ne hi hlt hj
  · rw [htail]
    exact Nat.mod_lt _ (by omega)
  · constructor
    · rintro ⟨i, hi, rfl⟩
      change i < queue.pcqCurrentSize + 1 at hi
      obtain hi | rfl : i < queue.pcqCurrentSize ∨ i = queue.pcqCurrentSize := by omega
      · exact Or.inr ⟨i, hi, rfl⟩
      · exact Or.inl htail.symm
    · rintro (rfl | ⟨i, hi, rfl⟩)
      · exact ⟨queue.pcqCurrentSize, Nat.lt_succ_self _, htail.symm⟩
      · exact ⟨i, Nat.lt_succ_of_lt hi, rfl⟩

/-- An element is taken out of a slot that holds it, and leaves it free. -/
theorem occupied_dequeue (h : Holds queue xs) (he : pcqDequeue queue = some (x, queue')) :
    queue.Occupied queue.pcqHead ∧ queue.pcqHead < queue.pcqCapacity ∧
      ∀ j, queue'.Occupied j ↔ j ≠ queue.pcqHead ∧ queue.Occupied j := by
  obtain ⟨hempty, -, rfl⟩ := pcqDequeue_eq_some.mp he
  have hle : queue.pcqCurrentSize ≤ queue.pcqCapacity := h.size ▸ h.le
  have hshift : ∀ i, ((queue.pcqHead + 1) % queue.pcqCapacity + i) % queue.pcqCapacity =
      (queue.pcqHead + (i + 1)) % queue.pcqCapacity := by
    intro i
    rw [Nat.mod_add_mod, Nat.add_assoc, Nat.add_comm 1 i]
  have hne : ∀ i, i + 1 < queue.pcqCurrentSize → (queue.pcqHead + (i + 1)) % queue.pcqCapacity ≠ queue.pcqHead := by
    intro i hi he
    have hzero : (queue.pcqHead + 0) % queue.pcqCapacity ≠ (queue.pcqHead + (i + 1)) % queue.pcqCapacity :=
      ring_ne (Nat.succ_pos i) (Nat.lt_of_lt_of_le hi hle)
    rw [Nat.add_zero, h.head] at hzero
    exact hzero he.symm
  refine ⟨⟨0, Nat.pos_of_ne_zero hempty, h.head⟩, ?_, fun j => ?_⟩
  · rw [← h.head]
    exact Nat.mod_lt _ (by omega)
  · constructor
    · rintro ⟨i, hi, rfl⟩
      change i < queue.pcqCurrentSize - 1 at hi
      simp only [hshift]
      exact ⟨hne i (by omega), i + 1, by omega, rfl⟩
    · rintro ⟨hj, i, hi, rfl⟩
      cases i with
      | zero => exact absurd h.head hj
      | succ i => exact ⟨i, by change i < queue.pcqCurrentSize - 1; omega, hshift i⟩

/-- A caller of `pcq_dequeue` sleeps exactly when the queue is empty. -/
theorem dequeue_eq_none (h : Holds queue xs) : pcqDequeue queue = none ↔ xs = [] := by
  simp [pcqDequeue, h.size]

end Holds

end Mbroker.Queue
