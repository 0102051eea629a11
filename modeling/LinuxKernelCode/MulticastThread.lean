import LinuxKernelCode.StepRuns
import Mathlib.Logic.Function.Basic

/-!
# The life of the multicast thread

The first message from user space starts a thread that sends multicast
messages, and `netlink_test_exit` stops it.  The thread is known by the global
`netlinkThread`.  A callback looks at the global and, if it is null, assigns
to it what `kthread_run` returns.  Callbacks of several senders may stand
between the look and the assignment at the same time.  The thread itself
returns when it cannot allocate a message, or when it was told to stop.

The global is never set back to null, and an error value of `kthread_run` is
not null.  The module proves which steps break the rule that at most one
thread runs and that the global is null or the handle of that thread.
-/

namespace LinuxKernelCode.Multicast

open Runs

/-- A value of type `struct task_struct *`. -/
inductive Handle where
  | null
  | errPtr
  | task (thread : ℕ)
  deriving DecidableEq, Repr

/-- Where `multicast_start` stands in its loop. -/
inductive ThreadPc where
  | unborn
  | sending
  | checking
  | sleeping
  | returned
  deriving DecidableEq, Repr

def ThreadPc.Running : ThreadPc → Prop
  | .sending => True
  | .checking => True
  | .sleeping => True
  | _ => False

instance : DecidablePred ThreadPc.Running
  | .unborn => .isFalse id
  | .sending => .isTrue trivial
  | .checking => .isTrue trivial
  | .sleeping => .isTrue trivial
  | .returned => .isFalse id

/-- Where `callback_invoked_connect_userspace` stands. -/
inductive CallbackPc where
  | idle
  | allocating
  | unicasting
  | checking
  | creating
  deriving DecidableEq, Repr

/-- Where `netlink_test_exit` stands. -/
inductive ExitPc where
  | loaded
  | stopping
  | joining (thread : ℕ)
  | sleeping
  | releasing
  | returned
  deriving DecidableEq, Repr

/-- The module with its threads and the callbacks of all senders.  The last
field records that `kthread_stop` was applied to something that is not a live
thread. -/
structure Lifecycle (ι : Type) where
  netlinkThread : Handle
  threads : ℕ → ThreadPc
  shouldStop : ℕ → Bool
  created : ℕ
  callbacks : ι → CallbackPc
  exit : ExitPc
  misused : Bool

/-- A label says who moves, and how an allocation, a send or a `kthread_run`
turns out. -/
inductive Label (ι : Type) where
  | invoke (sender : ι)
  | nlmsgNew (sender : ι) (succeeds : Bool)
  | unicast (sender : ι) (succeeds : Bool)
  | check (sender : ι)
  | kthreadRun (sender : ι) (succeeds : Bool)
  | thread (thread : ℕ) (nlmsgNew : Bool)
  | exit
  deriving DecidableEq, Repr

variable {ι : Type}

def Lifecycle.init (ι : Type) : Lifecycle ι where
  netlinkThread := .null
  threads := fun _ => .unborn
  shouldStop := fun _ => false
  created := 0
  callbacks := fun _ => .idle
  exit := .loaded
  misused := false

def Lifecycle.setThread (system : Lifecycle ι) (thread : ℕ) (pc : ThreadPc) :
    Lifecycle ι :=
  { system with threads := Function.update system.threads thread pc }

def Lifecycle.multicastStart
    (system : Lifecycle ι) (thread : ℕ) (nlmsgNew : Bool) : Lifecycle ι :=
  match system.threads thread with
  | .sending =>
      system.setThread thread (if nlmsgNew then .checking else .returned)
  | .checking =>
      system.setThread thread
        (if system.shouldStop thread then .returned else .sleeping)
  | .sleeping => system.setThread thread .sending
  | _ => system

/-- `kthread_stop` on the global sets the stop flag and waits. -/
def Lifecycle.netlinkTestExit (system : Lifecycle ι) : Lifecycle ι :=
  match system.exit with
  | .loaded =>
      { system with
        exit := if system.netlinkThread = .null then .sleeping else .stopping }
  | .stopping =>
      match system.netlinkThread with
      | .task thread =>
          if (system.threads thread).Running then
            { system with
              shouldStop := Function.update system.shouldStop thread true
              exit := .joining thread }
          else { system with misused := true }
      | _ => { system with misused := true }
  | .joining thread =>
      if system.threads thread = .returned then { system with exit := .sleeping }
      else system
  | .sleeping => { system with exit := .releasing }
  | .releasing => { system with exit := .returned }
  | .returned => system

section Steps

variable [DecidableEq ι]

def Lifecycle.setCallback
    (system : Lifecycle ι) (sender : ι) (pc : CallbackPc) : Lifecycle ι :=
  { system with callbacks := Function.update system.callbacks sender pc }

/-- The assignment `netlinkThread = kthread_run(...)`. -/
def Lifecycle.kthreadRun
    (system : Lifecycle ι) (sender : ι) (succeeds : Bool) : Lifecycle ι :=
  match system.callbacks sender with
  | .creating =>
      if succeeds then
        { (system.setThread system.created .sending).setCallback sender .idle with
          netlinkThread := .task system.created
          created := system.created + 1 }
      else { system.setCallback sender .idle with netlinkThread := .errPtr }
  | _ => system

def Lifecycle.step (system : Lifecycle ι) : Label ι → Lifecycle ι
  | .invoke sender =>
      match system.callbacks sender with
      | .idle =>
          if system.exit = .returned then system
          else system.setCallback sender .allocating
      | _ => system
  | .nlmsgNew sender succeeds =>
      match system.callbacks sender with
      | .allocating =>
          system.setCallback sender (if succeeds then .unicasting else .idle)
      | _ => system
  | .unicast sender succeeds =>
      match system.callbacks sender with
      | .unicasting =>
          system.setCallback sender (if succeeds then .checking else .idle)
      | _ => system
  | .check sender =>
      match system.callbacks sender with
      | .checking =>
          system.setCallback sender
            (if system.netlinkThread = .null then .creating else .idle)
      | _ => system
  | .kthreadRun sender succeeds => system.kthreadRun sender succeeds
  | .thread thread nlmsgNew => system.multicastStart thread nlmsgNew
  | .exit => system.netlinkTestExit

end Steps

/-- At most one thread runs, the global is null or the handle of the running
thread, and `kthread_stop` was applied to live threads only. -/
structure Lifecycle.Tracked (system : Lifecycle ι) : Prop where
  unique : ∀ thread other, (system.threads thread).Running →
    (system.threads other).Running → thread = other
  handle : system.netlinkThread = .null ∨
    ∃ thread, system.netlinkThread = .task thread ∧
      (system.threads thread).Running
  stopped : system.misused = false

/-- A callback that comes to `kthread_run` still finds the global null, and
gets a thread; and the thread does not return. -/
def Lifecycle.Undisturbed (system : Lifecycle ι) : Label ι → Prop
  | .kthreadRun sender succeeds => system.callbacks sender = .creating →
      system.netlinkThread = .null ∧ succeeds = true
  | .thread thread nlmsgNew =>
      (system.threads thread = .sending → nlmsgNew = true) ∧
        (system.threads thread = .checking → system.shouldStop thread = false)
  | _ => True

/-- Threads are numbered in the order they are created, and as long as the
global is null there is none. -/
structure Lifecycle.Regular (system : Lifecycle ι) : Prop where
  tracked : system.Tracked
  unborn : ∀ thread, system.created ≤ thread → system.threads thread = .unborn
  none_created : system.netlinkThread = .null → system.created = 0
  stopping : system.exit = .stopping → system.netlinkThread ≠ .null

theorem Lifecycle.regular_init : (Lifecycle.init ι).Regular where
  tracked := ⟨by simp [Lifecycle.init, ThreadPc.Running], Or.inl rfl, rfl⟩
  unborn := fun _ _ => rfl
  none_created := fun _ => rfl
  stopping := by simp [Lifecycle.init]

/-! ## Steps that leave the threads alone -/

structure Lifecycle.SameThreads (system other : Lifecycle ι) : Prop where
  netlinkThread : other.netlinkThread = system.netlinkThread
  threads : other.threads = system.threads
  created : other.created = system.created
  misused : other.misused = system.misused

theorem Lifecycle.Tracked.of_sameThreads
    {system other : Lifecycle ι} (htracked : system.Tracked)
    (hsame : system.SameThreads other) : other.Tracked where
  unique := by
    rw [hsame.threads]
    exact htracked.unique
  handle := by
    rw [hsame.netlinkThread, hsame.threads]
    exact htracked.handle
  stopped := hsame.misused.trans htracked.stopped

theorem Lifecycle.Regular.of_sameThreads
    {system other : Lifecycle ι} (hregular : system.Regular)
    (hsame : system.SameThreads other)
    (hexit : other.exit = .stopping → system.netlinkThread ≠ .null) :
    other.Regular where
  tracked := hregular.tracked.of_sameThreads hsame
  unborn := by
    rw [hsame.created, hsame.threads]
    exact hregular.unborn
  none_created := by
    rw [hsame.netlinkThread, hsame.created]
    exact hregular.none_created
  stopping := by
    rw [hsame.netlinkThread]
    exact hexit

theorem Lifecycle.Regular.setCallback
    [DecidableEq ι] {system : Lifecycle ι} (hregular : system.Regular)
    (sender : ι) (pc : CallbackPc) : (system.setCallback sender pc).Regular :=
  hregular.of_sameThreads ⟨rfl, rfl, rfl, rfl⟩ hregular.stopping

/-- At the call of `kthread_stop` the global is the handle of a live thread. -/
theorem Lifecycle.Regular.netlinkTestExit
    {system : Lifecycle ι} (hregular : system.Regular) :
    system.netlinkTestExit.Regular := by
  unfold Lifecycle.netlinkTestExit
  cases hexit : system.exit with
  | loaded =>
      refine hregular.of_sameThreads ⟨rfl, rfl, rfl, rfl⟩ ?_
      by_cases hnull : system.netlinkThread = .null <;> simp [hnull]
  | stopping =>
      rcases hregular.tracked.handle with hnull | ⟨thread, htask, hrunning⟩
      · exact absurd hnull (hregular.stopping hexit)
      · simp only [htask, hrunning, if_true]
        exact hregular.of_sameThreads ⟨htask.symm, rfl, rfl, rfl⟩ (by simp)
  | joining thread =>
      by_cases hreturned : system.threads thread = .returned
      · simp only [hreturned, if_true]
        exact hregular.of_sameThreads ⟨rfl, rfl, rfl, rfl⟩ (by simp)
      · simp only [hreturned, if_false]
        exact hregular
  | sleeping => exact hregular.of_sameThreads ⟨rfl, rfl, rfl, rfl⟩ (by simp)
  | releasing => exact hregular.of_sameThreads ⟨rfl, rfl, rfl, rfl⟩ (by simp)
  | returned => exact hregular

/-! ## Steps of the thread -/

theorem Lifecycle.Regular.netlinkThread_eq
    {system : Lifecycle ι} (hregular : system.Regular) {thread : ℕ}
    (hrunning : (system.threads thread).Running) :
    system.netlinkThread = .task thread := by
  rcases hregular.tracked.handle with hnull | ⟨other, htask, hother⟩
  · have hcreated := hregular.none_created hnull
    rw [hregular.unborn thread (by omega)] at hrunning
    exact hrunning.elim
  · rw [htask, hregular.tracked.unique other thread hother hrunning]

theorem Lifecycle.Regular.setThread_running
    {system : Lifecycle ι} (hregular : system.Regular) {thread : ℕ}
    (hrunning : (system.threads thread).Running) {pc : ThreadPc}
    (hpc : pc.Running) : (system.setThread thread pc).Regular := by
  have hsame : ∀ other,
      ((system.setThread thread pc).threads other).Running ↔
        (system.threads other).Running := by
    intro other
    by_cases hother : other = thread
    · subst hother
      simp [Lifecycle.setThread, hpc, hrunning]
    · simp [Lifecycle.setThread, hother]
  refine ⟨⟨?_, ?_, hregular.tracked.stopped⟩, ?_, hregular.none_created,
    hregular.stopping⟩
  · intro first second hfirst hsecond
    exact hregular.tracked.unique first second ((hsame first).mp hfirst)
      ((hsame second).mp hsecond)
  · right
    exact ⟨thread, hregular.netlinkThread_eq hrunning, (hsame thread).mpr hrunning⟩
  · intro other hother
    have hunborn := hregular.unborn other hother
    have hne : other ≠ thread := by
      rintro rfl
      rw [hunborn] at hrunning
      exact hrunning
    simpa [Lifecycle.setThread, hne] using hunborn

theorem Lifecycle.Regular.not_tracked_of_returned
    {system : Lifecycle ι} (hregular : system.Regular) {thread : ℕ}
    (hrunning : (system.threads thread).Running) :
    ¬ (system.setThread thread .returned).Tracked := by
  intro htracked
  have htask := hregular.netlinkThread_eq hrunning
  rcases htracked.handle with hnull | ⟨other, hother, hstill⟩
  · have : system.netlinkThread = .null := hnull
    simp [htask] at this
  · have hsame : system.netlinkThread = .task other := hother
    obtain rfl : thread = other := by simpa [htask] using hsame
    simp [Lifecycle.setThread, ThreadPc.Running] at hstill

/-! ## Creation -/

section Creation

variable [DecidableEq ι]

theorem Lifecycle.Regular.kthreadRun
    {system : Lifecycle ι} (hregular : system.Regular) {sender : ι}
    (hcreating : system.callbacks sender = .creating)
    (hnull : system.netlinkThread = .null) :
    (system.kthreadRun sender true).Regular := by
  have hcreated := hregular.none_created hnull
  have hunborn : ∀ thread, system.threads thread = .unborn := by
    intro thread
    exact hregular.unborn thread (by omega)
  have hrunning : ∀ thread,
      (Function.update system.threads system.created .sending thread).Running →
        thread = system.created := by
    intro thread hthread
    by_contra hother
    simp [hother, hunborn, ThreadPc.Running] at hthread
  simp only [Lifecycle.kthreadRun, hcreating, if_true]
  refine ⟨⟨?_, ?_, hregular.tracked.stopped⟩, ?_, ?_, ?_⟩
  · intro thread other hthread hother
    rw [hrunning thread hthread, hrunning other hother]
  · right
    exact ⟨system.created, rfl, by
      simp [Lifecycle.setThread, Lifecycle.setCallback, ThreadPc.Running]⟩
  · intro thread hthread
    have hlater : system.created + 1 ≤ thread := hthread
    have hother : thread ≠ system.created := by omega
    simp [Lifecycle.setThread, Lifecycle.setCallback, hother, hunborn]
  · simp
  · simp

theorem Lifecycle.Regular.not_tracked_of_second
    {system : Lifecycle ι} (hregular : system.Regular) {sender : ι}
    (hcreating : system.callbacks sender = .creating)
    (hnull : system.netlinkThread ≠ .null) :
    ¬ (system.kthreadRun sender true).Tracked := by
  intro htracked
  rcases hregular.tracked.handle with hnone | ⟨thread, _, hrunning⟩
  · exact hnull hnone
  · have hold : thread ≠ system.created := by
      rintro rfl
      rw [hregular.unborn system.created (by omega)] at hrunning
      exact hrunning
    have hsame := htracked.unique thread system.created
    simp only [Lifecycle.kthreadRun, hcreating, if_true, Lifecycle.setCallback,
      Lifecycle.setThread, Function.update_self, Function.update_of_ne hold]
      at hsame
    exact hold (hsame hrunning trivial)

theorem Lifecycle.not_tracked_of_errPtr
    {system : Lifecycle ι} {sender : ι}
    (hcreating : system.callbacks sender = .creating) :
    ¬ (system.kthreadRun sender false).Tracked := by
  intro htracked
  have hhandle := htracked.handle
  simp [Lifecycle.kthreadRun, hcreating] at hhandle

end Creation

/-! ## Runs -/

section Runs

variable [DecidableEq ι]

omit [DecidableEq ι] in
theorem Lifecycle.Regular.multicastStart_cases
    {system : Lifecycle ι} (hregular : system.Regular)
    (thread : ℕ) (nlmsgNew : Bool) :
    system.Undisturbed (.thread thread nlmsgNew) ∧
        (system.multicastStart thread nlmsgNew).Regular ∨
      ¬ system.Undisturbed (.thread thread nlmsgNew) ∧
        ¬ (system.multicastStart thread nlmsgNew).Tracked := by
  simp only [Lifecycle.multicastStart, Lifecycle.Undisturbed]
  cases hpc : system.threads thread with
  | unborn =>
      left
      exact ⟨by simp, hregular⟩
  | returned =>
      left
      exact ⟨by simp, hregular⟩
  | sending =>
      have hrunning : (system.threads thread).Running := hpc ▸ trivial
      cases nlmsgNew with
      | false =>
          right
          exact ⟨by simp, hregular.not_tracked_of_returned hrunning⟩
      | true =>
          left
          exact ⟨by simp, hregular.setThread_running hrunning trivial⟩
  | checking =>
      have hrunning : (system.threads thread).Running := hpc ▸ trivial
      cases hstop : system.shouldStop thread with
      | true =>
          right
          exact ⟨by simp, hregular.not_tracked_of_returned hrunning⟩
      | false =>
          left
          exact ⟨by simp, hregular.setThread_running hrunning trivial⟩
  | sleeping =>
      have hrunning : (system.threads thread).Running := hpc ▸ trivial
      left
      exact ⟨by simp, hregular.setThread_running hrunning trivial⟩

theorem Lifecycle.Regular.kthreadRun_cases
    {system : Lifecycle ι} (hregular : system.Regular)
    (sender : ι) (succeeds : Bool) :
    system.Undisturbed (.kthreadRun sender succeeds) ∧
        (system.kthreadRun sender succeeds).Regular ∨
      ¬ system.Undisturbed (.kthreadRun sender succeeds) ∧
        ¬ (system.kthreadRun sender succeeds).Tracked := by
  by_cases hcreating : system.callbacks sender = .creating
  · cases succeeds with
    | false =>
        right
        exact ⟨by simp [Lifecycle.Undisturbed, hcreating],
          Lifecycle.not_tracked_of_errPtr hcreating⟩
    | true =>
        by_cases hnull : system.netlinkThread = .null
        · left
          exact ⟨fun _ => ⟨hnull, rfl⟩, hregular.kthreadRun hcreating hnull⟩
        · right
          exact ⟨by simp [Lifecycle.Undisturbed, hcreating, hnull],
            hregular.not_tracked_of_second hcreating hnull⟩
  · left
    refine ⟨fun hother => absurd hother hcreating, ?_⟩
    simp only [Lifecycle.kthreadRun]
    exact hregular

/-- Step lemma: a step is undisturbed and keeps the invariant, or it is
disturbed and breaks the rule at once. -/
theorem Lifecycle.Regular.step_cases
    {system : Lifecycle ι} (hregular : system.Regular) (label : Label ι) :
    system.Undisturbed label ∧ (system.step label).Regular ∨
      ¬ system.Undisturbed label ∧ ¬ (system.step label).Tracked := by
  cases label with
  | invoke sender =>
      left
      refine ⟨trivial, ?_⟩
      simp only [Lifecycle.step]
      split
      · split_ifs
        · exact hregular
        · exact hregular.setCallback _ _
      · exact hregular
  | nlmsgNew sender succeeds =>
      left
      refine ⟨trivial, ?_⟩
      simp only [Lifecycle.step]
      split
      · exact hregular.setCallback _ _
      · exact hregular
  | unicast sender succeeds =>
      left
      refine ⟨trivial, ?_⟩
      simp only [Lifecycle.step]
      split
      · exact hregular.setCallback _ _
      · exact hregular
  | check sender =>
      left
      refine ⟨trivial, ?_⟩
      simp only [Lifecycle.step]
      split
      · exact hregular.setCallback _ _
      · exact hregular
  | kthreadRun sender succeeds => exact hregular.kthreadRun_cases sender succeeds
  | thread thread nlmsgNew => exact hregular.multicastStart_cases thread nlmsgNew
  | exit =>
      left
      exact ⟨trivial, hregular.netlinkTestExit⟩

/-- In a run of callbacks, threads and unload, at most one thread runs and the
global tracks it in every state exactly when every step is undisturbed. -/
theorem netlinkThread_tracked_iff (word : List (Label ι)) :
    Always Lifecycle.step Lifecycle.Tracked (Lifecycle.init ι) word ↔
      Guarded Lifecycle.step Lifecycle.Undisturbed (Lifecycle.init ι) word := by
  have hguarded : Guarded Lifecycle.step (fun _ _ => True) (Lifecycle.init ι)
      word := guarded_of_forall fun _ _ => trivial
  apply always_iff_guarded hguarded Lifecycle.Regular
  · intro system label hregular _ htracked
    rcases hregular.step_cases label with ⟨_, hnext⟩ | ⟨_, hbroken⟩
    · exact hnext
    · exact absurd htracked hbroken
  · intro system label hregular _
    rcases hregular.step_cases label with ⟨hquiet, hnext⟩ | ⟨hquiet, hbroken⟩
    · exact iff_of_true hnext.tracked hquiet
    · exact iff_of_false hbroken hquiet
  · exact Lifecycle.regular_init
  · exact Lifecycle.regular_init.tracked

end Runs

/-- A thread that cannot allocate its message returns, and the unload stops
it. -/
def selfExit : List (Label Unit) :=
  [.invoke (), .nlmsgNew () true, .unicast () true, .check (),
    .kthreadRun () true, .thread 0 false, .exit, .exit]

theorem selfExit_stops_dead_thread :
    (selfExit.foldl Lifecycle.step (Lifecycle.init Unit)).misused = true ∧
      ¬ Always Lifecycle.step Lifecycle.Tracked (Lifecycle.init Unit)
        selfExit := by
  have hmisused :
      (selfExit.foldl Lifecycle.step (Lifecycle.init Unit)).misused = true := by
    decide
  refine ⟨hmisused, ?_⟩
  intro halways
  have hstopped := halways.last.stopped
  rw [hmisused] at hstopped
  exact absurd hstopped (by decide)

end LinuxKernelCode.Multicast
