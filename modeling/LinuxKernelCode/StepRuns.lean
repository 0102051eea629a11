import Mathlib.Data.List.Basic

/-!
# Runs of a deterministic machine

A machine answers a label and moves to a next state.  A run is a word of
labels.  Side conditions on a run are of two kinds: a guard on each label in
the state it is taken from, and a property of every state along the run.  The
three rules below are an invariant rule, a rule which exchanges the two kinds
of condition, and a simulation rule which carries the answers along.
-/

namespace LinuxKernelCode.Runs

universe u v w

variable {σ : Type u} {ι : Type v} {ο : Type w}

/-- Every label meets the guard in the state it is taken from. -/
def Guarded (step : σ → ι → σ) (guard : σ → ι → Prop) : σ → List ι → Prop
  | _, [] => True
  | state, label :: rest =>
      guard state label ∧ Guarded step guard (step state label) rest

instance Guarded.instDecidable
    (step : σ → ι → σ) (guard : σ → ι → Prop)
    [∀ state label, Decidable (guard state label)] :
    (state : σ) → (word : List ι) → Decidable (Guarded step guard state word)
  | _, [] => .isTrue trivial
  | state, label :: rest =>
      have := Guarded.instDecidable step guard (step state label) rest
      inferInstanceAs (Decidable (_ ∧ _))

/-- The property holds in every state along the run, first and last included. -/
def Always (step : σ → ι → σ) (good : σ → Prop) : σ → List ι → Prop
  | state, [] => good state
  | state, label :: rest =>
      good state ∧ Always step good (step state label) rest

instance Always.instDecidable
    (step : σ → ι → σ) (good : σ → Prop) [DecidablePred good] :
    (state : σ) → (word : List ι) → Decidable (Always step good state word)
  | state, [] => inferInstanceAs (Decidable (good state))
  | state, label :: rest =>
      have := Always.instDecidable step good (step state label) rest
      inferInstanceAs (Decidable (_ ∧ _))

variable {step : σ → ι → σ} {guard : σ → ι → Prop} {state : σ} {word : List ι}

theorem Always.head
    {good : σ → Prop} (halways : Always step good state word) :
    good state := by
  cases word with
  | nil => exact halways
  | cons _ _ => exact halways.1

theorem Always.last
    {good : σ → Prop} (halways : Always step good state word) :
    good (word.foldl step state) := by
  induction word generalizing state with
  | nil => exact halways
  | cons label rest ih => exact ih halways.2

theorem Guarded.mono
    {weaker : σ → ι → Prop}
    (hguarded : Guarded step guard state word)
    (himp : ∀ state label, guard state label → weaker state label) :
    Guarded step weaker state word := by
  induction word generalizing state with
  | nil => trivial
  | cons label rest ih =>
      exact ⟨himp state label hguarded.1, ih hguarded.2⟩

theorem Guarded.and
    {other : σ → ι → Prop}
    (hguarded : Guarded step guard state word)
    (hother : Guarded step other state word) :
    Guarded step (fun state label => guard state label ∧ other state label)
      state word := by
  induction word generalizing state with
  | nil => trivial
  | cons label rest ih =>
      exact ⟨⟨hguarded.1, hother.1⟩, ih hguarded.2 hother.2⟩

theorem guarded_of_forall
    {accepts : ι → Prop} (haccepts : ∀ label ∈ word, accepts label) :
    Guarded step (fun _ label => accepts label) state word := by
  induction word generalizing state with
  | nil => trivial
  | cons label rest ih =>
      exact ⟨haccepts label (by simp),
        ih fun other hother => haccepts other (by simp [hother])⟩

theorem Guarded.front
    {done : List ι} (hguarded : Guarded step guard state word)
    (hdone : done <+: word) : Guarded step guard state done := by
  induction done generalizing state word with
  | nil => trivial
  | cons label done ih =>
      cases word with
      | nil => simp at hdone
      | cons other rest =>
          obtain ⟨rfl, hrest⟩ := List.cons_prefix_cons.mp hdone
          exact ⟨hguarded.1, ih hguarded.2 hrest⟩

/-- Invariant rule. -/
theorem Guarded.invariant
    {inv : σ → Prop}
    (hguarded : Guarded step guard state word)
    (hstep : ∀ state label, inv state → guard state label →
      inv (step state label))
    (hinit : inv state) :
    inv (word.foldl step state) := by
  induction word generalizing state with
  | nil => exact hinit
  | cons label rest ih =>
      exact ih hguarded.2 (hstep state label hinit hguarded.1)

theorem Guarded.always
    (hguarded : Guarded step guard state word)
    (inv : σ → Prop) {good : σ → Prop}
    (hstep : ∀ state label, inv state → guard state label →
      inv (step state label))
    (hgood : ∀ state, inv state → good state)
    (hinit : inv state) :
    Always step good state word := by
  induction word generalizing state with
  | nil => exact hgood state hinit
  | cons label rest ih =>
      exact ⟨hgood state hinit,
        ih hguarded.2 (hstep state label hinit hguarded.1)⟩

theorem Guarded.strengthen
    (hguarded : Guarded step guard state word)
    (inv : σ → Prop) {stronger : σ → ι → Prop}
    (hstep : ∀ state label, inv state → guard state label →
      inv (step state label))
    (hstronger : ∀ state label, inv state → guard state label →
      stronger state label)
    (hinit : inv state) :
    Guarded step stronger state word := by
  induction word generalizing state with
  | nil => trivial
  | cons label rest ih =>
      exact ⟨hstronger state label hinit hguarded.1,
        ih hguarded.2 (hstep state label hinit hguarded.1)⟩

/-- If, on the states of an invariant, one step keeps a property exactly when
it meets a condition, then the property holds all along a run exactly when
every step meets the condition.  The invariant has to survive only the steps
that keep the property. -/
theorem always_iff_guarded
    (hguarded : Guarded step guard state word)
    (inv : σ → Prop) {good : σ → Prop} {condition : σ → ι → Prop}
    (hstep : ∀ state label, inv state → guard state label →
      good (step state label) → inv (step state label))
    (hiff : ∀ state label, inv state → guard state label →
      (good (step state label) ↔ condition state label))
    (hinv : inv state) (hgood : good state) :
    Always step good state word ↔ Guarded step condition state word := by
  induction word generalizing state with
  | nil => exact ⟨fun _ => trivial, fun _ => hgood⟩
  | cons label rest ih =>
      have hnext := hstep state label hinv hguarded.1
      have hone := hiff state label hinv hguarded.1
      constructor
      · rintro ⟨_, hrest⟩
        have hgoodNext : good (step state label) := hrest.head
        exact ⟨hone.mp hgoodNext,
          (ih hguarded.2 (hnext hgoodNext) hgoodNext).mp hrest⟩
      · rintro ⟨hcondition, hrest⟩
        have hgoodNext := hone.mpr hcondition
        exact ⟨hgood, (ih hguarded.2 (hnext hgoodNext) hgoodNext).mpr hrest⟩

/-- A property that never comes back once it is lost holds all along a run
exactly when it holds at the end. -/
theorem Guarded.always_iff_last
    (hguarded : Guarded step guard state word)
    (inv : σ → Prop) {good : σ → Prop}
    (hstep : ∀ state label, inv state → guard state label →
      inv (step state label))
    (hback : ∀ state label, inv state → guard state label →
      good (step state label) → good state)
    (hinit : inv state) :
    Always step good state word ↔ good (word.foldl step state) := by
  induction word generalizing state with
  | nil => exact Iff.rfl
  | cons label rest ih =>
      have hrest := ih hguarded.2 (hstep state label hinit hguarded.1)
      constructor
      · intro halways
        exact halways.last
      · intro hlast
        have hlater := hrest.mpr hlast
        exact ⟨hback state label hinit hguarded.1 hlater.head, hlater⟩

/-! ## Counting -/

/-- How many labels do not meet the guard in the state they are taken from. -/
def violations (step : σ → ι → σ) (guard : σ → ι → Prop)
    [∀ state label, Decidable (guard state label)] : σ → List ι → ℕ
  | _, [] => 0
  | state, label :: rest =>
      (if guard state label then 0 else 1) +
        violations step guard (step state label) rest

/-- Counting rule: a measure that goes up by one with each such label, and is
otherwise unchanged, counts them. -/
theorem measure_run
    [∀ state label, Decidable (guard state label)]
    {inv : σ → Prop} (measure : σ → ℕ)
    (hinv : ∀ state label, inv state → inv (step state label))
    (hstep : ∀ state label, inv state → measure (step state label) =
      measure state + if guard state label then 0 else 1)
    (hinit : inv state) :
    measure (word.foldl step state) =
      measure state + violations step guard state word := by
  induction word generalizing state with
  | nil => rfl
  | cons label rest ih =>
      rw [List.foldl_cons, ih (hinv state label hinit),
        hstep state label hinit, violations, Nat.add_assoc]

/-! ## Answers and simulation -/

variable {τ : Type u}

/-- The answers of a machine to a word, with the state it ends in. -/
def answers (execute : σ → ι → ο × σ) : σ → List ι → List ο × σ
  | state, [] => ([], state)
  | state, label :: rest =>
      let result := execute state label
      let later := answers execute result.2 rest
      (result.1 :: later.1, later.2)

/-- Simulation rule: related machines that answer alike step by step answer
alike on every word, and end in related states. -/
theorem Guarded.simulation
    {execute : σ → ι → ο × σ} {specify : τ → ι → ο × τ}
    {related : σ → τ → Prop} {abstract : τ}
    (hguarded : Guarded (fun state label => (execute state label).2)
      guard state word)
    (hstep : ∀ state abstract label, related state abstract →
      guard state label →
      (execute state label).1 = (specify abstract label).1 ∧
        related (execute state label).2 (specify abstract label).2)
    (hinit : related state abstract) :
    (answers execute state word).1 = (answers specify abstract word).1 ∧
      related (answers execute state word).2
        (answers specify abstract word).2 := by
  induction word generalizing state abstract with
  | nil => exact ⟨rfl, hinit⟩
  | cons label rest ih =>
      obtain ⟨hanswer, hnext⟩ := hstep state abstract label hinit hguarded.1
      obtain ⟨hanswers, hfinal⟩ := ih hguarded.2 hnext
      exact ⟨by simp [answers, hanswer, hanswers], hfinal⟩

/-! ## Steps that may fail -/

/-- Refinement rule: if every guarded step of the abstract machine is matched
by a step that succeeds, then so is every guarded run. -/
theorem Guarded.refinement
    {ε : Type w} {perform : τ → ι → Except ε τ} {concrete : τ}
    (hguarded : Guarded step guard state word) (related : τ → σ → Prop)
    (hstep : ∀ concrete state label, related concrete state →
      guard state label →
      ∃ next, perform concrete label = .ok next ∧
        related next (step state label))
    (hinit : related concrete state) :
    ∃ last, word.foldlM perform concrete = .ok last ∧
      related last (word.foldl step state) := by
  induction word generalizing concrete state with
  | nil => exact ⟨concrete, rfl, hinit⟩
  | cons label rest ih =>
      obtain ⟨next, hperform, hnext⟩ :=
        hstep concrete state label hinit hguarded.1
      obtain ⟨last, hrest, hlast⟩ := ih hguarded.2 hnext
      refine ⟨last, ?_, hlast⟩
      rw [List.foldlM_cons, hperform]
      exact hrest

end LinuxKernelCode.Runs
