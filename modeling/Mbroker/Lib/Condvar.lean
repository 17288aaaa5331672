import Mathlib.Data.Finset.Card
import Mathlib.Data.Finset.Disjoint
import Mathlib.Data.Finset.SDiff

/-!
# Condition variables

The threads asleep on a condition variable, and those that were woken and have not run since. `Covers c n` is
what signalling once for every new resource gives: as long as a thread is asleep, the woken ones are enough for
the `n` resources that are free, also when threads that never slept take some of them.
-/

namespace Mbroker.Lib

structure Condvar (ι : Type) where
  asleep : Finset ι
  woken : Finset ι
  disjoint : Disjoint asleep woken

namespace Condvar

variable {ι : Type} {c : Condvar ι} {t : ι} {ts : Finset ι} {n : Nat}

def empty : Condvar ι := ⟨∅, ∅, Finset.disjoint_empty_left _⟩

/-- As long as a thread is asleep, there are at least `n` woken ones. -/
def Covers (c : Condvar ι) (n : Nat) : Prop := c.asleep.Nonempty → n ≤ c.woken.card

theorem empty_covers : (empty : Condvar ι).Covers n := fun h => absurd h (by simp [empty])

theorem Covers.mono {m : Nat} (h : c.Covers n) (hm : m ≤ n) : c.Covers m := fun hs => hm.trans (h hs)

/-! ## What threads do -/

variable [DecidableEq ι]

/-- The thread `t` falls asleep, woken before or not. -/
def sleep (c : Condvar ι) (t : ι) : Condvar ι where
  asleep := insert t c.asleep
  woken := c.woken.erase t
  disjoint := by
    rw [Finset.disjoint_insert_left]
    exact ⟨Finset.notMem_erase _ _, c.disjoint.mono_right (Finset.erase_subset _ _)⟩

/-- The thread `t` runs on, woken before or not. -/
def leave (c : Condvar ι) (t : ι) : Condvar ι where
  asleep := c.asleep
  woken := c.woken.erase t
  disjoint := c.disjoint.mono_right (Finset.erase_subset _ _)

/-- Those of the threads `ts` that are asleep wake up. -/
def wake (c : Condvar ι) (ts : Finset ι) : Condvar ι where
  asleep := c.asleep \ ts
  woken := c.woken ∪ (c.asleep ∩ ts)
  disjoint := by
    rw [Finset.disjoint_union_right]
    exact ⟨c.disjoint.mono_left Finset.sdiff_subset,
      Finset.disjoint_sdiff.symm.mono_right Finset.inter_subset_right⟩

/-- A signal may wake the threads `ts`: at least one, if there is one asleep. -/
def Signals (c : Condvar ι) (ts : Finset ι) : Prop := ts ⊆ c.asleep ∧ (c.asleep.Nonempty → ts.Nonempty)

instance (c : Condvar ι) (ts : Finset ι) : Decidable (c.Signals ts) := by
  unfold Signals
  infer_instance

/-! ## Enough woken threads -/

namespace Covers

theorem card_wake (hts : ts ⊆ c.asleep) : (c.wake ts).woken.card = c.woken.card + ts.card := by
  simp only [Condvar.wake, Finset.inter_eq_right.mpr hts]
  exact Finset.card_union_of_disjoint (c.disjoint.symm.mono_right hts)

theorem wake (h : c.Covers n) (hts : ts ⊆ c.asleep) : (c.wake ts).Covers n := by
  intro hs
  have hold := h (hs.mono Finset.sdiff_subset)
  rw [card_wake hts]
  omega

theorem signal (h : c.Covers n) (hts : c.Signals ts) : (c.wake ts).Covers (n + 1) := by
  intro hs
  have hasleep : c.asleep.Nonempty := hs.mono Finset.sdiff_subset
  have hold := h hasleep
  have hpos := Finset.card_pos.mpr (hts.2 hasleep)
  rw [card_wake hts.1]
  omega

theorem leave (h : c.Covers (n + 1)) : (c.leave t).Covers n := by
  intro hs
  have hold := h hs
  have herase := Finset.pred_card_le_card_erase (a := t) (s := c.woken)
  simp only [Condvar.leave]
  omega

theorem sleep : (c.sleep t).Covers 0 := fun _ => Nat.zero_le _

end Covers

end Condvar

end Mbroker.Lib
