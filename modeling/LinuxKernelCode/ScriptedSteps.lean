import Mathlib.Data.List.Basic

/-!
# Programs that work through a plan

A program that makes calls one after another and may stop at any of them.  What
is seen of it is a list of calls, and a plan says which state it comes to when
it is not stopped.  A program that performs a plan either comes to the planned
state, or stops after the first ones of the calls that lead there; it never
makes a call out of turn.

Plans are performed one behind another by programs run one after another, and
a loop over a list of items performs the plans of the items in turn.  A
condition on the state is carried through such programs in the same way; in a
loop it may speak of the items that are still to come.
-/

namespace LinuxKernelCode.Scripted

universe u v w

variable {σ : Type u} {ε : Type v} {κ : Type w} {ι : Type u}

section Performs

variable (seen : σ → List κ) (ends : ε → List κ → Prop)

/-- The planned state, or a stop on the way to it: `ends stop calls` if a
program that stops so has made the given calls. -/
structure Performs (step : σ → Except ε σ) (plan : σ → σ) : Prop where
  prolongs : ∀ state, seen state <+: seen (plan state)
  follows : ∀ state, step state = .ok (plan state) ∨
    ∃ stop front, step state = .error stop ∧ ends stop front ∧
      seen state <+: front ∧ front <+: seen (plan state)

variable {seen ends} {step following : σ → Except ε σ} {plan later : σ → σ}

theorem Performs.ok
    (hperforms : Performs seen ends step plan) {state next : σ}
    (hstep : step state = .ok next) : next = plan state := by
  rcases hperforms.follows state with hplan | ⟨_, _, hstop, _⟩
  · rw [hplan] at hstep
    exact (Except.ok.inj hstep).symm
  · rw [hstop] at hstep
    cases hstep

theorem Performs.stop
    (hperforms : Performs seen ends step plan) {state : σ} {stop : ε}
    (hstep : step state = .error stop) :
    ∃ front, ends stop front ∧ seen state <+: front ∧
      front <+: seen (plan state) := by
  rcases hperforms.follows state with hplan | ⟨other, front, hstop, hfront⟩
  · rw [hplan] at hstep
    cases hstep
  · rw [hstop] at hstep
    cases hstep
    exact ⟨front, hfront⟩

theorem Performs.congr
    (hperforms : Performs seen ends step plan)
    (hplan : ∀ state, plan state = later state) :
    Performs seen ends step later :=
  (funext hplan : plan = later) ▸ hperforms

/-- A step that is not stopped. -/
theorem performs_always (hprolongs : ∀ state, seen state <+: seen (plan state)) :
    Performs seen ends (fun state => .ok (plan state)) plan :=
  ⟨hprolongs, fun _ => Or.inl rfl⟩

theorem performs_ok : Performs seen ends .ok id :=
  performs_always fun _ => List.prefix_refl _

theorem Performs.bind
    (hstep : Performs seen ends step plan)
    (hfollowing : Performs seen ends following later) :
    Performs seen ends (fun state => step state >>= following)
      (fun state => later (plan state)) := by
  constructor
  · intro state
    exact (hstep.prolongs state).trans (hfollowing.prolongs _)
  · intro state
    rcases hstep.follows state with
      hplan | ⟨stop, front, hstop, hends, hfirst, hfront⟩
    · simp only [hplan]
      rcases hfollowing.follows (plan state) with
        hlater | ⟨stop, front, hstop, hends, hfirst, hfront⟩
      · exact Or.inl hlater
      · exact Or.inr ⟨stop, front, hstop, hends,
          (hstep.prolongs state).trans hfirst, hfront⟩
    · refine Or.inr ⟨stop, front, ?_, hends, hfirst,
        hfront.trans (hfollowing.prolongs _)⟩
      simp only [hstop]
      rfl

/-- The loop over a list of items. -/
theorem Performs.foldlM
    {handle : σ → ι → Except ε σ} {part : σ → ι → σ}
    (hhandle : ∀ item, Performs seen ends (fun state => handle state item)
      (fun state => part state item)) (items : List ι) :
    Performs seen ends (fun state => items.foldlM handle state)
      (fun state => items.foldl part state) := by
  induction items with
  | nil => exact performs_ok
  | cons item rest ih =>
      have hbind := (hhandle item).bind ih
      simpa only [List.foldlM_cons, List.foldl_cons] using hbind

end Performs

/-- A loop that stops has worked through some of the items, and stops at the
one behind them. -/
theorem foldlM_eq_error_iff
    {handle : σ → ι → Except ε σ} {items : List ι} {state : σ} {stop : ε} :
    items.foldlM handle state = .error stop ↔
      ∃ done item rest next, items = done ++ item :: rest ∧
        done.foldlM handle state = .ok next ∧
        handle next item = .error stop := by
  induction items generalizing state with
  | nil =>
      constructor
      · intro herror
        cases herror
      · rintro ⟨done, item, rest, next, hitems, _⟩
        exact absurd hitems (by simp)
  | cons first others ih =>
      rw [List.foldlM_cons]
      cases hfirst : handle state first with
      | error other =>
          constructor
          · intro herror
            exact ⟨[], first, others, state, rfl, rfl, hfirst.trans herror⟩
          · rintro ⟨done, item, rest, next, hitems, hdone, hitem⟩
            cases done with
            | nil =>
                obtain ⟨rfl, rfl⟩ := List.cons_eq_cons.mp hitems
                cases hdone
                rw [← hitem, hfirst]
                rfl
            | cons head tail =>
                obtain ⟨rfl, _⟩ := List.cons_eq_cons.mp hitems
                rw [List.foldlM_cons, hfirst] at hdone
                cases hdone
      | ok next =>
          refine Iff.trans ih ?_
          constructor
          · rintro ⟨done, item, rest, last, rfl, hdone, hitem⟩
            refine ⟨first :: done, item, rest, last, rfl, ?_, hitem⟩
            rw [List.foldlM_cons, hfirst]
            exact hdone
          · rintro ⟨done, item, rest, last, hitems, hdone, hitem⟩
            cases done with
            | nil =>
                obtain ⟨rfl, rfl⟩ := List.cons_eq_cons.mp hitems
                cases hdone
                rw [hfirst] at hitem
                cases hitem
            | cons head tail =>
                obtain ⟨rfl, rfl⟩ := List.cons_eq_cons.mp hitems
                rw [List.foldlM_cons, hfirst] at hdone
                exact ⟨tail, item, rest, last, rfl, hdone, hitem⟩

/-- From a state with one condition the program comes to a state with another,
or it stops in one of the given ways. -/
def Leads (before after : σ → Prop) (ending : ε → Prop)
    (step : σ → Except ε σ) : Prop :=
  ∀ state, before state →
    (∃ next, step state = .ok next ∧ after next) ∨
    ∃ stop, step state = .error stop ∧ ending stop

theorem Leads.bind
    {before between after : σ → Prop} {ending : ε → Prop}
    {step following : σ → Except ε σ} (hstep : Leads before between ending step)
    (hfollowing : Leads between after ending following) :
    Leads before after ending (fun state => step state >>= following) := by
  intro state hbefore
  rcases hstep state hbefore with ⟨next, hnext, hbetween⟩ | ⟨stop, hstop, hend⟩
  · simp only [hnext]
    exact hfollowing next hbetween
  · simp only [hstop]
    exact Or.inr ⟨stop, rfl, hend⟩

theorem Leads.ok
    {before after : σ → Prop} {ending : ε → Prop} {step : σ → Except ε σ}
    (hleads : Leads before after ending step) {state next : σ}
    (hbefore : before state) (hstep : step state = .ok next) :
    after next := by
  rcases hleads state hbefore with ⟨_, hother, hafter⟩ | ⟨_, hother, _⟩
  · rw [hother] at hstep
    cases hstep
    exact hafter
  · rw [hother] at hstep
    cases hstep

theorem Leads.stop
    {before after : σ → Prop} {ending : ε → Prop} {step : σ → Except ε σ}
    (hleads : Leads before after ending step) {state : σ} {stop : ε}
    (hbefore : before state) (hstep : step state = .error stop) :
    ending stop := by
  rcases hleads state hbefore with ⟨_, hother, _⟩ | ⟨_, hother, hending⟩
  · rw [hother] at hstep
    cases hstep
  · rw [hother] at hstep
    cases hstep
    exact hending

theorem Leads.and
    {before before' after after' : σ → Prop} {ending ending' : ε → Prop}
    {step : σ → Except ε σ} (hleads : Leads before after ending step)
    (hother : Leads before' after' ending' step) :
    Leads (fun state => before state ∧ before' state)
      (fun state => after state ∧ after' state)
      (fun stop => ending stop ∧ ending' stop) step := by
  rintro state ⟨hbefore, hbefore'⟩
  rcases hleads state hbefore with ⟨next, hnext, hafter⟩ | ⟨stop, hstop, hend⟩
  · rcases hother state hbefore' with ⟨same, hsame, hafter'⟩ | ⟨_, hsame, _⟩
    · rw [hnext] at hsame
      cases hsame
      exact Or.inl ⟨next, hnext, hafter, hafter'⟩
    · rw [hnext] at hsame
      cases hsame
  · rcases hother state hbefore' with ⟨_, hsame, _⟩ | ⟨same, hsame, hend'⟩
    · rw [hstop] at hsame
      cases hsame
    · rw [hstop] at hsame
      cases hsame
      exact Or.inr ⟨stop, hstop, hend, hend'⟩

theorem Leads.mono
    {before before' after after' : σ → Prop} {ending : ε → Prop}
    {step : σ → Except ε σ} (hleads : Leads before after ending step)
    (hbefore : ∀ state, before' state → before state)
    (hafter : ∀ state, after state → after' state) :
    Leads before' after' ending step := by
  intro state hstate
  rcases hleads state (hbefore state hstate) with
    ⟨next, hnext, hthen⟩ | hstop
  · exact Or.inl ⟨next, hnext, hafter next hthen⟩
  · exact Or.inr hstop

/-- A loop whose condition speaks of the items that are still to come. -/
theorem Leads.foldlM
    (remaining : List ι → σ → Prop) {ending : ε → Prop}
    {handle : σ → ι → Except ε σ}
    (hhandle : ∀ item rest, Leads (remaining (item :: rest))
      (remaining rest) ending (fun state => handle state item))
    (items : List ι) :
    Leads (remaining items) (remaining []) ending
      (fun state => items.foldlM handle state) := by
  induction items with
  | nil =>
      intro state hremaining
      exact Or.inl ⟨state, rfl, hremaining⟩
  | cons item rest ih =>
      have hbind := (hhandle item rest).bind ih
      simpa only [List.foldlM_cons] using hbind

section Account

variable {α : Type v} (observe : List κ → α → κ → α)

/-- What an observer makes of a list of calls who knows, at every call, all
that was called before it. -/
def account (before : List κ) (value : α) : List κ → α
  | [] => value
  | call :: rest =>
      account (before ++ [call]) (observe before value call) rest

theorem account_append
    (before : List κ) (value : α) (calls later : List κ) :
    account observe before value (calls ++ later) =
      account observe (before ++ calls)
        (account observe before value calls) later := by
  induction calls generalizing before value with
  | nil => simp [account]
  | cons call calls ih =>
      rw [List.cons_append, account, ih, account, List.append_assoc,
        List.singleton_append]

theorem account_concat
    (before : List κ) (value : α) (calls : List κ) (call : κ) :
    account observe before value (calls ++ [call]) =
      observe (before ++ calls) (account observe before value calls) call :=
  account_append observe before value calls [call]

/-- Calls that the observer takes no notice of. -/
theorem account_unnoticed
    {before : List κ} {value : α} {calls later : List κ}
    (hlater : ∀ call ∈ later, ∀ before value,
      observe before value call = value) :
    account observe before value (calls ++ later) =
      account observe before value calls := by
  rw [account_append]
  generalize account observe before value calls = seen
  generalize before ++ calls = earlier
  induction later generalizing earlier with
  | nil => rfl
  | cons call later ih =>
      rw [account, hlater call (by simp)]
      exact ih (fun other hother => hlater other (by simp [hother])) _

end Account

end LinuxKernelCode.Scripted
