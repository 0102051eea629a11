import LinuxKernelCode.KthreadQueue

/-!
# Unloading the scan queue module

`test_exit` waits for the first thread before it stops the second, so nothing
is inserted any more when the second thread is told to stop.  The second
thread drains before it looks at its stop flag.  If the flag is set after a
drain and before the look that follows it, the thread returns without another
drain, and what the first thread inserted in the meantime stays in the queue.
The module proves that this is the only way to leave a record behind.
-/

namespace LinuxKernelCode.KthreadQueue

open Runs TailQueue

variable {α : Type}

def Label.Unsignalled : Label α → Prop
  | .wait1 wake => wake ≠ .signal
  | .wait2 wake => wake ≠ .signal
  | _ => True

def Wake.decidableUnsignalled (wake : Wake) : Decidable (wake ≠ .signal) :=
  match wake with
  | .condition => .isTrue (by simp)
  | .timeout => .isTrue (by simp)
  | .signal => .isFalse (by simp)

instance : (label : Label α) → Decidable label.Unsignalled
  | .wait1 wake => wake.decidableUnsignalled
  | .wait2 wake => wake.decidableUnsignalled
  | .kmalloc1 _ => .isTrue trivial
  | .insert1 => .isTrue trivial
  | .check1 => .isTrue trivial
  | .drain2 => .isTrue trivial
  | .check2 => .isTrue trivial
  | .exit => .isTrue trivial

def Exit.JoinedFirst : Exit → Prop
  | .clearing2 => True
  | .stopping2 => True
  | .joining2 => True
  | .returned => True
  | _ => False

/-- Where the threads stand when `test_exit` has come so far. -/
structure QueueModule.Control (state : QueueModule α) : Prop where
  first : state.exit.JoinedFirst → state.thread1 = .returned
  stop2 : state.stop2 = true ↔
    state.exit = .joining2 ∨ state.exit = .returned
  second : state.thread2 = .returned → state.stop2 = true
  joined : state.exit = .returned → state.thread2 = .returned

theorem QueueModule.control_init : (QueueModule.init α).Control := by
  constructor <;> simp [QueueModule.init, Exit.JoinedFirst]

/-- The empty queue, everything inserted removed and released. -/
def QueueModule.Unloaded
    (state : QueueModule α) (inserted : List (BitVec 32)) : Prop :=
  state.scanQueue.WellFormed [] ∧ state.removed = inserted ∧
    ∀ address, state.scanQueue.records address = none

/-- When the stop flag of the second thread is set, that thread is not between
a drain and its stop check, or the queue is empty. -/
def QueueModule.StopsInTime (state : QueueModule α) : Label α → Prop
  | .exit => state.exit = .stopping2 → state.thread2 = .checking →
      state.scanQueue.tqhFirst = none
  | _ => True

/-- The second thread will not drain again, and something is queued. -/
structure QueueModule.Missed (state : QueueModule α) : Prop where
  stop2 : state.stop2 = true
  past : state.thread2 = .checking ∨ state.thread2 = .returned
  queued : state.scanQueue.tqhFirst ≠ none

variable [DecidableEq α]

/-! ## What each party can do -/

structure QueueModule.FirstMoves (state other : QueueModule α) : Prop where
  stop2 : other.stop2 = state.stop2
  exit : other.exit = state.exit
  thread2 : other.thread2 = state.thread2
  returned : state.thread1 = .returned → other = state

def Label.OfFirst : Label α → Prop
  | .wait1 _ => True
  | .kmalloc1 _ => True
  | .insert1 => True
  | .check1 => True
  | _ => False

theorem QueueModule.firstMoves
    (state : QueueModule α) {label : Label α} (hlabel : label.OfFirst) :
    state.FirstMoves (state.step label) := by
  cases label with
  | wait1 wake =>
      simp only [QueueModule.step, QueueModule.wait1]
      cases hthread : state.thread1 <;> simp only <;> try split
      all_goals constructor <;> simp [hthread]
  | kmalloc1 answer =>
      simp only [QueueModule.step, QueueModule.kmalloc1]
      cases hthread : state.thread1 <;> cases answer <;>
        constructor <;> simp [hthread]
  | insert1 =>
      simp only [QueueModule.step, QueueModule.insert1]
      cases hthread : state.thread1 <;> simp only <;> try split
      all_goals constructor <;> simp [hthread]
  | check1 =>
      simp only [QueueModule.step, QueueModule.check1]
      cases hthread : state.thread1 <;> constructor <;> simp [hthread]
  | wait2 _ => exact hlabel.elim
  | drain2 => exact hlabel.elim
  | check2 => exact hlabel.elim
  | exit => exact hlabel.elim

theorem QueueModule.Control.of_firstMoves
    {state other : QueueModule α} (hcontrol : state.Control)
    (hmoves : state.FirstMoves other) : other.Control := by
  by_cases hreturned : state.thread1 = .returned
  · rw [hmoves.returned hreturned]
    exact hcontrol
  · constructor
    · intro hjoined
      rw [hmoves.exit] at hjoined
      exact absurd (hcontrol.first hjoined) hreturned
    · rw [hmoves.stop2, hmoves.exit]
      exact hcontrol.stop2
    · rw [hmoves.thread2, hmoves.stop2]
      exact hcontrol.second
    · rw [hmoves.exit, hmoves.thread2]
      exact hcontrol.joined

omit [DecidableEq α] in
theorem QueueModule.Control.of_secondMoves
    {state other : QueueModule α} (hcontrol : state.Control)
    (hthread1 : other.thread1 = state.thread1)
    (hstop2 : other.stop2 = state.stop2) (hexit : other.exit = state.exit)
    (hsecond : other.thread2 = .returned → state.stop2 = true)
    (hreturned : state.thread2 = .returned → other.thread2 = .returned) :
    other.Control where
  first := by
    rw [hexit, hthread1]
    exact hcontrol.first
  stop2 := by
    rw [hstop2, hexit]
    exact hcontrol.stop2
  second := by
    rw [hstop2]
    exact hsecond
  joined := by
    intro hexited
    rw [hexit] at hexited
    exact hreturned (hcontrol.joined hexited)

omit [DecidableEq α] in
theorem QueueModule.Control.testExit
    {state : QueueModule α} (hcontrol : state.Control) :
    state.testExit.Control := by
  obtain ⟨hfirst, hstop2, hsecond, hjoined⟩ := hcontrol
  unfold QueueModule.testExit
  cases hexit : state.exit with
  | joining1 =>
      cases hthread : state.thread1 <;>
        constructor <;> simp_all [Exit.JoinedFirst]
  | joining2 =>
      cases hthread : state.thread2 <;>
        constructor <;> simp_all [Exit.JoinedFirst]
  | _ => constructor <;> simp_all [Exit.JoinedFirst]

theorem QueueModule.Control.step
    {state : QueueModule α} (hcontrol : state.Control) {label : Label α}
    (hunsignalled : label.Unsignalled) : (state.step label).Control := by
  cases label with
  | wait1 wake => exact hcontrol.of_firstMoves (state.firstMoves trivial)
  | kmalloc1 answer => exact hcontrol.of_firstMoves (state.firstMoves trivial)
  | insert1 => exact hcontrol.of_firstMoves (state.firstMoves trivial)
  | check1 => exact hcontrol.of_firstMoves (state.firstMoves trivial)
  | wait2 wake =>
      have hwake : wake ≠ .signal := hunsignalled
      simp only [QueueModule.step, QueueModule.wait2]
      split
      next hthread =>
        split_ifs
        · apply hcontrol.of_secondMoves <;> simp_all
        · exact hcontrol
      next => exact hcontrol
  | drain2 =>
      simp only [QueueModule.step, QueueModule.drain2]
      split
      next hthread =>
        split <;> apply hcontrol.of_secondMoves <;> simp_all
      next => exact hcontrol
  | check2 =>
      simp only [QueueModule.step, QueueModule.check2]
      split
      next hthread => apply hcontrol.of_secondMoves <;> simp_all
      next => exact hcontrol
  | exit => exact hcontrol.testExit

/-! ## The missed drain -/

theorem QueueModule.Missed.step
    {state : QueueModule α} (hmissed : state.Missed)
    (hcontrol : state.Control) (label : Label α) :
    (state.step label).Missed := by
  have hfirst : state.thread1 = .returned := by
    apply hcontrol.first
    rcases hcontrol.stop2.mp hmissed.stop2 with hexit | hexit <;>
      rw [hexit] <;> trivial
  have hstay : ∀ other : Label α, other.OfFirst → state.step other = state :=
    fun other hother => (state.firstMoves hother).returned hfirst
  cases label with
  | wait1 wake => rwa [hstay (.wait1 wake) trivial]
  | kmalloc1 answer => rwa [hstay (.kmalloc1 answer) trivial]
  | insert1 => rwa [hstay .insert1 trivial]
  | check1 => rwa [hstay .check1 trivial]
  | wait2 wake =>
      have hsame : state.step (.wait2 wake) = state := by
        rcases hmissed.past with hthread | hthread <;>
          simp [QueueModule.step, QueueModule.wait2, hthread]
      rwa [hsame]
  | drain2 =>
      have hsame : state.step .drain2 = state := by
        rcases hmissed.past with hthread | hthread <;>
          simp [QueueModule.step, QueueModule.drain2, hthread]
      rwa [hsame]
  | check2 =>
      refine ⟨?_, Or.inr ?_, ?_⟩
      · simp only [QueueModule.step, QueueModule.check2]
        split <;> exact hmissed.stop2
      · rcases hmissed.past with hthread | hthread <;>
          simp [QueueModule.step, QueueModule.check2, hthread, hmissed.stop2]
      · rw [QueueModule.step, state.check2_sameQueue.scanQueue]
        exact hmissed.queued
  | exit =>
      rcases hcontrol.stop2.mp hmissed.stop2 with hexit | hexit
      · simp only [QueueModule.step, QueueModule.testExit, hexit]
        split <;> exact ⟨hmissed.stop2, hmissed.past, hmissed.queued⟩
      · simp only [QueueModule.step, QueueModule.testExit, hexit]
        exact hmissed

omit [DecidableEq α] in
theorem QueueModule.testExit_thread2 (state : QueueModule α) :
    state.testExit.thread2 = state.thread2 := by
  unfold QueueModule.testExit
  cases state.exit with
  | joining1 => cases state.thread1 <;> rfl
  | joining2 => cases hthread : state.thread2 <;> simp [hthread]
  | _ => rfl

omit [DecidableEq α] in
theorem QueueModule.testExit_stop2
    {state : QueueModule α} (hexit : state.exit ≠ .stopping2) :
    state.testExit.stop2 = state.stop2 := by
  unfold QueueModule.testExit
  cases hcase : state.exit with
  | stopping2 => exact absurd hcase hexit
  | joining1 => cases state.thread1 <;> rfl
  | joining2 => cases state.thread2 <;> rfl
  | _ => rfl

omit [DecidableEq α] in
theorem QueueModule.not_missed_wait2
    {state : QueueModule α} (hmissed : ¬ state.Missed) {wake : Wake}
    (hwake : wake ≠ .signal) : ¬ (state.wait2 wake).Missed := by
  intro hlater
  by_cases hthread : state.thread2 = .waiting ∧ wake.occurs state.status2
  · have hpast := hlater.past
    simp [QueueModule.wait2, hthread.1, hthread.2, hwake] at hpast
  · have hsame : state.wait2 wake = state := by
      unfold QueueModule.wait2
      split
      next hwaiting => simp_all
      next => rfl
    exact hmissed (hsame ▸ hlater)

omit [DecidableEq α] in
theorem QueueModule.not_missed_check2
    {state : QueueModule α} (hmissed : ¬ state.Missed) :
    ¬ state.check2.Missed := by
  intro hlater
  have hstop2 : state.check2.stop2 = state.stop2 := by
    unfold QueueModule.check2
    split <;> rfl
  have hpast : state.thread2 = .checking ∨ state.thread2 = .returned := by
    have hafter := hlater.past
    cases hthread : state.thread2 with
    | waiting => simp [QueueModule.check2, hthread] at hafter
    | draining => simp [QueueModule.check2, hthread] at hafter
    | checking => exact Or.inl rfl
    | returned => exact Or.inr rfl
  exact hmissed ⟨hstop2 ▸ hlater.stop2, hpast,
    state.check2_sameQueue.scanQueue ▸ hlater.queued⟩

omit [DecidableEq α] in
theorem QueueModule.Control.missed_testExit_iff
    {state : QueueModule α} (hcontrol : state.Control)
    (hmissed : ¬ state.Missed) :
    ¬ state.testExit.Missed ↔ state.StopsInTime .exit := by
  have hthread2 := state.testExit_thread2
  have hqueue := state.testExit_sameQueue.scanQueue
  by_cases hexit : state.exit = .stopping2
  · have hstop2 : state.testExit.stop2 = true := by
      simp [QueueModule.testExit, hexit]
    have hrunning : state.thread2 ≠ .returned := by
      intro hreturned
      have := hcontrol.stop2.mp (hcontrol.second hreturned)
      simp [hexit] at this
    constructor
    · intro hnot _ hchecking
      by_contra hqueued
      exact hnot ⟨hstop2, Or.inl (hthread2.trans hchecking),
        hqueue.symm ▸ hqueued⟩
    · intro htime hlater
      rcases hlater.past with hchecking | hreturned
      · exact hlater.queued
          (hqueue.symm ▸ htime hexit (hthread2.symm.trans hchecking))
      · exact hrunning (hthread2.symm.trans hreturned)
  · refine iff_of_true ?_ (fun hstopping => absurd hstopping hexit)
    intro hlater
    exact hmissed ⟨QueueModule.testExit_stop2 hexit ▸ hlater.stop2,
      hthread2 ▸ hlater.past, hqueue ▸ hlater.queued⟩

/-- The only step that can miss the queue is the one that sets the stop flag
of the second thread. -/
theorem QueueModule.Control.missed_step_iff
    {state : QueueModule α} (hcontrol : state.Control)
    {entries : List (α × BitVec 32)} {inserted : List (BitVec 32)}
    (hqueued : state.Queued entries inserted)
    (hmissed : ¬ state.Missed) {label : Label α}
    (hunsignalled : label.Unsignalled) :
    ¬ (state.step label).Missed ↔ state.StopsInTime label := by
  have hfirst : label.OfFirst → ¬ (state.step label).Missed := by
    intro hlabel hlater
    have hmoves := state.firstMoves hlabel
    by_cases hreturned : state.thread1 = .returned
    · rw [hmoves.returned hreturned] at hlater
      exact hmissed hlater
    · apply hreturned
      apply hcontrol.first
      rcases hcontrol.stop2.mp (hmoves.stop2 ▸ hlater.stop2) with hexit | hexit <;>
        rw [hexit] <;> trivial
  cases label with
  | wait1 wake => exact iff_of_true (hfirst trivial) trivial
  | kmalloc1 answer => exact iff_of_true (hfirst trivial) trivial
  | insert1 => exact iff_of_true (hfirst trivial) trivial
  | check1 => exact iff_of_true (hfirst trivial) trivial
  | wait2 wake =>
      exact iff_of_true (QueueModule.not_missed_wait2 hmissed hunsignalled) trivial
  | drain2 =>
      refine iff_of_true ?_ trivial
      intro hlater
      by_cases hthread : state.thread2 = .draining
      · exact hlater.queued (hqueued.drain2 hthread).1.wellFormed.first_eq
      · apply hmissed
        simpa only [QueueModule.step, QueueModule.drain2] using hlater
  | check2 => exact iff_of_true (QueueModule.not_missed_check2 hmissed) trivial
  | exit => exact hcontrol.missed_testExit_iff hmissed

/-! ## The unloaded module -/

omit [DecidableEq α] in
theorem QueueModule.Queued.unloaded_iff
    {state : QueueModule α} {entries : List (α × BitVec 32)}
    {inserted : List (BitVec 32)} (hqueued : state.Queued entries inserted)
    (hthread : state.thread1 = .returned) :
    state.Unloaded inserted ↔ state.scanQueue.tqhFirst = none := by
  constructor
  · intro hunloaded
    exact hunloaded.1.first_eq
  · intro hfirst
    obtain rfl := hqueued.wellFormed.tqhFirst_eq_none_iff.mp hfirst
    refine ⟨hqueued.wellFormed, by simpa using hqueued.fifo, ?_⟩
    intro address
    rw [← Option.not_isSome_iff_eq_none, hqueued.live address, hthread]
    simp

def QueueModule.Regular (state : QueueModule α) : Prop :=
  state.Control ∧ ∃ entries inserted, state.Queued entries inserted

omit [DecidableEq α] in
theorem QueueModule.regular_init : (QueueModule.init α).Regular :=
  ⟨QueueModule.control_init, [], [], QueueModule.queued_init⟩

theorem QueueModule.Regular.step
    {state : QueueModule α} {label : Label α} (hregular : state.Regular)
    (hlabel : state.Fresh label ∧ label.Unsignalled) :
    (state.step label).Regular := by
  obtain ⟨hcontrol, entries, inserted, hqueued⟩ := hregular
  obtain ⟨later, hlater, _⟩ := hqueued.step hlabel.1
  exact ⟨hcontrol.step hlabel.2, later, _, hlater⟩

section Run

variable {word : List (Label α)}

theorem missed_always_iff_guarded
    (hguarded : Guarded QueueModule.step
      (fun state label => state.Fresh label ∧ label.Unsignalled)
      (QueueModule.init α) word) :
    Always QueueModule.step (fun state => ¬ state.Missed)
        (QueueModule.init α) word ↔
      Guarded QueueModule.step QueueModule.StopsInTime (QueueModule.init α)
        word := by
  have hinit : ¬ (QueueModule.init α).Missed :=
    fun hmissed => hmissed.queued rfl
  apply always_iff_guarded hguarded
    (fun state => state.Regular ∧ ¬ state.Missed)
  · intro state label hinv hlabel hgood
    exact ⟨hinv.1.step hlabel, hgood⟩
  · rintro state label ⟨⟨hcontrol, entries, inserted, hqueued⟩, hmissed⟩ hlabel
    exact hcontrol.missed_step_iff hqueued hmissed hlabel.2
  · exact ⟨QueueModule.regular_init, hinit⟩
  · exact hinit

theorem missed_always_iff_last
    (hguarded : Guarded QueueModule.step
      (fun state label => state.Fresh label ∧ label.Unsignalled)
      (QueueModule.init α) word) :
    Always QueueModule.step (fun state => ¬ state.Missed)
        (QueueModule.init α) word ↔
      ¬ (word.foldl QueueModule.step (QueueModule.init α)).Missed := by
  apply hguarded.always_iff_last QueueModule.Regular
  · intro state label hregular hlabel
    exact hregular.step hlabel
  · intro state label hregular _ hgood hmissed
    exact hgood (hmissed.step hregular.1 label)
  · exact QueueModule.regular_init

/-- When `test_exit` returns, the queue is empty and every record released
exactly when no step of the run has set the stop flag of the second thread
between a drain and its stop check with a record queued. -/
theorem testExit_unloaded_iff
    (hfresh : Guarded QueueModule.step QueueModule.Fresh (QueueModule.init α)
      word)
    (hunsignalled : ∀ label ∈ word, label.Unsignalled)
    (hreturned : (word.foldl QueueModule.step (QueueModule.init α)).exit =
      .returned) :
    (word.foldl QueueModule.step (QueueModule.init α)).Unloaded
        (insertedData (QueueModule.init α) none word) ↔
      Guarded QueueModule.step QueueModule.StopsInTime (QueueModule.init α)
        word := by
  have hguarded := hfresh.and (guarded_of_forall hunsignalled)
  have hregular := hguarded.invariant
    (fun _ _ hregular hlabel => QueueModule.Regular.step hregular hlabel)
    QueueModule.regular_init
  have hcontrol := hregular.1
  obtain ⟨entries, hqueued⟩ := QueueModule.queued_init.run hfresh
  rw [List.nil_append] at hqueued
  have hthread1 := hcontrol.first (by rw [hreturned]; trivial)
  rw [← missed_always_iff_guarded hguarded, missed_always_iff_last hguarded]
  refine Iff.trans (hqueued.unloaded_iff hthread1) ?_
  constructor
  · intro hfirst hmissed
    exact hmissed.queued hfirst
  · intro hnot
    by_contra hleft
    exact hnot ⟨hcontrol.stop2.mpr (Or.inr hreturned),
      Or.inr (hcontrol.joined hreturned), hleft⟩

end Run

/-- One record, drained by the second thread after it was told to stop. -/
def orderlyUnload : List (Label ℕ) :=
  [.wait1 .timeout, .kmalloc1 (some (0, ⟨none, .head, 0⟩)), .insert1, .exit,
    .exit, .check1, .exit, .exit, .exit, .wait2 .condition, .drain2, .check2,
    .exit]

theorem testExit_unloaded_iff_orderlyUnload :
    (orderlyUnload.foldl QueueModule.step (QueueModule.init ℕ)).exit =
        .returned ∧
      ((orderlyUnload.foldl QueueModule.step (QueueModule.init ℕ)).Unloaded
          (insertedData (QueueModule.init ℕ) none orderlyUnload) ↔
        Guarded QueueModule.step QueueModule.StopsInTime (QueueModule.init ℕ)
          orderlyUnload) :=
  ⟨by decide, testExit_unloaded_iff (by decide) (by decide) (by decide)⟩

/-- The second thread has drained the empty queue and not yet looked at its
stop flag when the first thread inserts its last record. -/
def lateInsertion : List (Label ℕ) :=
  [.wait2 .timeout, .drain2, .wait1 .timeout,
    .kmalloc1 (some (0, ⟨none, .head, 0⟩)), .insert1, .exit, .exit, .check1,
    .exit, .exit, .exit, .check2, .exit]

theorem lateInsertion_leaves_record :
    Guarded QueueModule.step QueueModule.Fresh (QueueModule.init ℕ)
        lateInsertion ∧
      (∀ label ∈ lateInsertion, label.Unsignalled) ∧
      (lateInsertion.foldl QueueModule.step (QueueModule.init ℕ)).exit =
        .returned ∧
      ¬ (lateInsertion.foldl QueueModule.step (QueueModule.init ℕ)).Unloaded
          (insertedData (QueueModule.init ℕ) none lateInsertion) := by
  refine ⟨by decide, by decide, by decide, ?_⟩
  intro hunloaded
  have hfirst : (lateInsertion.foldl QueueModule.step
      (QueueModule.init ℕ)).scanQueue.tqhFirst = none := hunloaded.1.first_eq
  revert hfirst
  decide

end LinuxKernelCode.KthreadQueue
