import Mathlib.Tactic.Common

/-!
# Runs of labelled transition systems

A system is a relation `step : σ → ι → σ → Prop`; a run is a list of labels taken one after another.
The rules of this file turn a fact about one step into a fact about every run.
-/

namespace Mbroker.Lib

variable {σ τ ι κ ο ε α : Type}

/-! ## Runs of a relation -/

/-- `Steps step s is s'`: the labels `is`, taken in order from `s`, lead to `s'`. -/
inductive Steps (step : σ → ι → σ → Prop) : σ → List ι → σ → Prop
  | nil {s} : Steps step s [] s
  | cons {s s' s'' i is} : step s i s' → Steps step s' is s'' → Steps step s (i :: is) s''

/-- The steps of a system whose labels meet the condition `g` in the state they are taken from. -/
def Guarded (g : σ → ι → Prop) (step : σ → ι → σ → Prop) (s : σ) (i : ι) (s' : σ) : Prop :=
  g s i ∧ step s i s'

namespace Steps

variable {step : σ → ι → σ → Prop} {s s' s'' : σ} {i : ι} {is js : List ι}

/-- A property that every step preserves holds after every run that starts with it. -/
theorem invariant {I : σ → Prop} (hstep : ∀ s i s', I s → step s i s' → I s')
    (h : Steps step s is s') (h0 : I s) : I s' := by
  induction h with
  | nil => exact h0
  | cons hs _ ih => exact ih (hstep _ _ _ h0 hs)

/-- A step that meets the guard keeps `I`, and one that does not leads into the trap `T`, which no step leaves. -/
theorem guarded_or_trap {g : σ → ι → Prop} {I T : σ → Prop} (hgood : ∀ s i s', I s → g s i → step s i s' → I s')
    (hbad : ∀ s i s', I s → ¬ g s i → step s i s' → T s') (htrap : ∀ s i s', T s → step s i s' → T s')
    (h : Steps step s is s') (h0 : I s) : I s' ∧ Steps (Guarded g step) s is s' ∨ T s' := by
  induction h with
  | nil => exact Or.inl ⟨h0, .nil⟩
  | @cons s s₁ s' i is hs hrest ih =>
      by_cases hg : g s i
      · obtain ⟨hI, hsteps⟩ | hT := ih (hgood s i s₁ h0 hg hs)
        · exact Or.inl ⟨hI, .cons ⟨hg, hs⟩ hsteps⟩
        · exact Or.inr hT
      · exact Or.inr (hrest.invariant htrap (hbad s i s₁ h0 hg hs))

/-- Then a property that tells the two apart says of the last state whether every step met the guard. -/
theorem iff_guarded {g : σ → ι → Prop} {I T P : σ → Prop} (hgood : ∀ s i s', I s → g s i → step s i s' → I s')
    (hbad : ∀ s i s', I s → ¬ g s i → step s i s' → T s') (htrap : ∀ s i s', T s → step s i s' → T s')
    (hI : ∀ s, I s → P s) (hT : ∀ s, T s → ¬ P s) (h : Steps step s is s') (h0 : I s) :
    P s' ↔ Steps (Guarded g step) s is s' := by
  constructor
  · intro hP
    obtain ⟨-, hsteps⟩ | htrapped := h.guarded_or_trap hgood hbad htrap h0
    · exact hsteps
    · exact absurd hP (hT s' htrapped)
  · intro hsteps
    exact hI s' (hsteps.invariant (fun s i s' h hs => hgood s i s' h hs.1 hs.2) h0)

/-- If `P` holds after a step exactly when the step met the guard, then it holds in every state that a run reaches
exactly when every step met the guard. -/
theorem always_iff {g : σ → ι → Prop} {I P : σ → Prop} (hgood : ∀ s i s', I s → g s i → step s i s' → I s')
    (hP : ∀ s i s', I s → step s i s' → (P s' ↔ g s i)) (h0 : I s) :
    Steps (fun s i s' => step s i s' ∧ P s') s is s' ↔ Steps (Guarded g step) s is s' := by
  constructor
  · intro h
    induction h with
    | nil => exact .nil
    | @cons s s₁ s' i is hs _ ih =>
        have hg := (hP s i s₁ h0 hs.1).mp hs.2
        exact .cons ⟨hg, hs.1⟩ (ih (hgood s i s₁ h0 hg hs.1))
  · intro h
    induction h with
    | nil => exact .nil
    | @cons s s₁ s' i is hs _ ih =>
        exact .cons ⟨hs.2, (hP s i s₁ h0 hs.2).mpr hs.1⟩ (ih (hgood s i s₁ h0 hs.1 hs.2))

theorem append (h : Steps step s is s') (h' : Steps step s' js s'') : Steps step s (is ++ js) s'' := by
  induction h with
  | nil => exact h'
  | cons hs _ ih => exact .cons hs (ih h')

/-- If every step is, seen through `f`, a run of another system, then so is every run. -/
theorem project {f : σ → τ} {step' : τ → κ → τ → Prop}
    (hstep : ∀ s i s', step s i s' → ∃ ks, Steps step' (f s) ks (f s')) (h : Steps step s is s') :
    ∃ ks, Steps step' (f s) ks (f s') := by
  induction h with
  | nil => exact ⟨[], .nil⟩
  | cons hs _ ih =>
      obtain ⟨ks, hks⟩ := hstep _ _ _ hs
      obtain ⟨ls, hls⟩ := ih
      exact ⟨ks ++ ls, hks.append hls⟩

theorem one (h : step s i s') : Steps step s [i] s' := .cons h .nil

/-- A property of the labels so far and the state that they lead to. -/
theorem invariant_along {I : List ι → σ → Prop} (hstep : ∀ is s₁ i s₂, Steps step s is s₁ → I is s₁ →
    step s₁ i s₂ → I (is ++ [i]) s₂) (h : Steps step s is s') (h0 : I [] s) : I is s' := by
  have hfrom : ∀ {s₁ is s₂}, Steps step s₁ is s₂ → ∀ {pre}, Steps step s pre s₁ → I pre s₁ → I (pre ++ is) s₂ := by
    intro s₁ is s₂ h
    induction h with
    | nil =>
        intro pre _ hI
        rwa [List.append_nil]
    | cons hs _ ih =>
        intro pre hpre hI
        have hnext := ih (hpre.append (.cons hs .nil)) (hstep _ _ _ _ hpre hI hs)
        rwa [List.append_assoc] at hnext
  exact hfrom h .nil h0

theorem mono {step' : σ → ι → σ → Prop} (hsub : ∀ s i s', step s i s' → step' s i s')
    (h : Steps step s is s') : Steps step' s is s' := by
  induction h with
  | nil => exact .nil
  | cons hs _ ih => exact .cons (hsub _ _ _ hs) ih

/-! ## Runs that come to rest -/

/-- If every step makes `μ` smaller, a run from `s` has at most `μ s` steps. -/
theorem length_add_le {I : σ → Prop} {μ : σ → Nat} (hstep : ∀ s i s', I s → step s i s' → I s' ∧ μ s' < μ s)
    (h : Steps step s is s') (h0 : I s) : is.length + μ s' ≤ μ s := by
  induction h with
  | nil => exact Nat.le_of_eq (Nat.zero_add _)
  | cons hs _ ih =>
      obtain ⟨hI, hlt⟩ := hstep _ _ _ h0 hs
      have hle := ih hI
      rw [List.length_cons]
      omega

/-- Then some run leads to a state in which no step can be taken. -/
theorem exists_rest {I : σ → Prop} {μ : σ → Nat} (hstep : ∀ s i s', I s → step s i s' → I s' ∧ μ s' < μ s)
    (h0 : I s) : ∃ is s', Steps step s is s' ∧ ∀ i s'', ¬ step s' i s'' := by
  induction hn : μ s using Nat.strongRecOn generalizing s with
  | ind n ih =>
      by_cases hrest : ∃ i s', step s i s'
      · obtain ⟨i, s₁, hs⟩ := hrest
        obtain ⟨hI, hlt⟩ := hstep _ _ _ h0 hs
        obtain ⟨is, s', h, hrest⟩ := ih _ (hn ▸ hlt) hI rfl
        exact ⟨i :: is, s', .cons hs h, hrest⟩
      · exact ⟨[], s, .nil, fun i s' hs => hrest ⟨i, s', hs⟩⟩

end Steps

/-! ## Systems whose next state is a function -/

/-- The state after the labels `is`, if every step can be taken and every label meets the condition. -/
def runGuarded (g : σ → ι → Prop) [∀ s i, Decidable (g s i)] (next : σ → ι → Option σ) : σ → List ι → Option σ
  | s, [] => some s
  | s, i :: is => if g s i then (next s i).bind fun s' => runGuarded g next s' is else none

theorem Steps.of_runGuarded {g : σ → ι → Prop} [∀ s i, Decidable (g s i)] {next : σ → ι → Option σ}
    {step : σ → ι → σ → Prop} (hnext : ∀ s i s', next s i = some s' → step s i s') :
    ∀ {is : List ι} {s s' : σ}, runGuarded g next s is = some s' → Steps (Guarded g step) s is s'
  | [], s, s', h => by
      cases h
      exact .nil
  | i :: is, s, s', h => by
      rw [runGuarded] at h
      split at h
      · rename_i hg
        obtain ⟨s₁, h₁, h₂⟩ := Option.bind_eq_some_iff.mp h
        exact .cons ⟨hg, hnext _ _ _ h₁⟩ (of_runGuarded hnext h₂)
      · cases h

theorem exists_guarded (g : σ → ι → Prop) [∀ s i, Decidable (g s i)] (P : σ → Prop) [DecidablePred P]
    {next : σ → ι → Option σ} {step : σ → ι → σ → Prop} (hnext : ∀ s i s', next s i = some s' → step s i s')
    (s : σ) (is : List ι) (h : (runGuarded g next s is).any (fun s' => decide (P s')) = true) :
    ∃ s', Steps (Guarded g step) s is s' ∧ P s' := by
  cases hrun : runGuarded g next s is with
  | none =>
      rw [hrun] at h
      cases h
  | some s' =>
      rw [hrun] at h
      exact ⟨s', .of_runGuarded hnext hrun, of_decide_eq_true h⟩

theorem exists_steps (P : σ → Prop) [DecidablePred P] {next : σ → ι → Option σ} {step : σ → ι → σ → Prop}
    (hnext : ∀ s i s', next s i = some s' → step s i s') (s : σ) (is : List ι)
    (h : (runGuarded (fun _ _ => True) next s is).any (fun s' => decide (P s')) = true) :
    ∃ s', Steps step s is s' ∧ P s' := by
  obtain ⟨s', hrun, hP⟩ := exists_guarded (fun _ _ => True) P hnext s is h
  exact ⟨s', hrun.mono fun _ _ _ hs => hs.2, hP⟩

/-! ## Records of a run -/

/-- A system with a record beside its state, which every step brings up to date. -/
def withRecord (next : σ → ι → Option σ) (record : α → σ → ι → σ → α) (x : σ × α) (i : ι) : Option (σ × α) :=
  (next x.1 i).map fun s' => (s', record x.2 x.1 i s')

theorem withRecord_eq_some {next : σ → ι → Option σ} {record : α → σ → ι → σ → α} {x x' : σ × α} {i : ι} :
    withRecord next record x i = some x' ↔ next x.1 i = some x'.1 ∧ x'.2 = record x.2 x.1 i x'.1 := by
  rw [withRecord, Option.map_eq_some_iff]
  constructor
  · rintro ⟨s', hs, rfl⟩
    exact ⟨hs, rfl⟩
  · rintro ⟨hs, hr⟩
    exact ⟨x'.1, hs, by rw [← hr]⟩

/-! ## Deterministic machines that answer every call -/

/-- The answers of a machine that may stop with a fault, for a list of calls. -/
def runCalls (exec : σ → ι → Except ε (ο × σ)) : σ → List ι → Except ε (List ο × σ)
  | s, [] => .ok ([], s)
  | s, c :: cs =>
    match exec s c with
    | .error e => .error e
    | .ok (o, s') =>
      match runCalls exec s' cs with
      | .error e => .error e
      | .ok (os, s'') => .ok (o :: os, s'')

/-- The answers of a machine that never stops. -/
def answers (spec : α → ι → ο × α) : α → List ι → List ο × α
  | a, [] => ([], a)
  | a, c :: cs => ((spec a c).1 :: (answers spec (spec a c).2 cs).1, (answers spec (spec a c).2 cs).2)

/-- Every call of the list meets the condition `ok` in the state of `spec` it is made in. -/
def AllAllowed (spec : α → ι → ο × α) (ok : α → ι → Prop) : α → List ι → Prop
  | _, [] => True
  | a, c :: cs => ok a c ∧ AllAllowed spec ok (spec a c).2 cs

/-- Forward simulation for machines that answer: if related states give the same answer to every
allowed call and stay related, the machines answer every allowed list of calls alike. -/
theorem runCalls_eq_answers {exec : σ → ι → Except ε (ο × σ)} {spec : α → ι → ο × α}
    {ok : α → ι → Prop} {R : σ → α → Prop}
    (hsim : ∀ s a c, R s a → ok a c → ∃ s', exec s c = .ok ((spec a c).1, s') ∧ R s' (spec a c).2) :
    ∀ (cs : List ι) (s : σ) (a : α), R s a → AllAllowed spec ok a cs →
      ∃ s', runCalls exec s cs = .ok ((answers spec a cs).1, s') ∧ R s' (answers spec a cs).2
  | [], s, a, hR, _ => ⟨s, rfl, hR⟩
  | c :: cs, s, a, hR, ⟨hok, hall⟩ => by
      obtain ⟨s₁, he, hR₁⟩ := hsim s a c hR hok
      obtain ⟨s₂, hrun, hR₂⟩ := runCalls_eq_answers hsim cs s₁ (spec a c).2 hR₁ hall
      exact ⟨s₂, by simp only [runCalls, he, hrun, answers], hR₂⟩

end Mbroker.Lib
