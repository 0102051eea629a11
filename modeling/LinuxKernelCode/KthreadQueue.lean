import LinuxKernelCode.StepRuns
import LinuxKernelCode.TailQueue

/-!
# The two threads of the scan queue

`test_thread1` allocates a record every two seconds and inserts it at the tail
of the scan queue; `test_thread2` empties the queue every two seconds.  Both
touch the queue under one spin lock, so each critical section is one step.
`test_exit` stops the first thread, waits for it, and then does the same with
the second.

In every run the queue is well formed, no released record is read, and the
data removed followed by the data queued are the data inserted, in order.  The
data inserted are read off the run: they are the counts of the allocations that
succeeded, each taken at the insertion that follows.
-/

namespace LinuxKernelCode.KthreadQueue

open Runs TailQueue

/-- Why `wait_event_interruptible_timeout` returns. -/
inductive Wake where
  | condition
  | timeout
  | signal
  deriving DecidableEq, Repr

def Wake.occurs (status : Int) : Wake → Bool
  | .condition => status = 0
  | .timeout => true
  | .signal => true

inductive Thread1 (α : Type) where
  | waiting
  | allocating
  | inserting (tempInsert : α)
  | checking
  | returned
  deriving DecidableEq, Repr

inductive Thread2 where
  | waiting
  | draining
  | checking
  | returned
  deriving DecidableEq, Repr

/-- Where `test_exit` stands: before it clears `status1`, before and after it
sets the stop flag of the first thread, the same for the second thread, and
at its end. -/
inductive Exit where
  | clearing1
  | stopping1
  | joining1
  | clearing2
  | stopping2
  | joining2
  | returned
  deriving DecidableEq, Repr

/-- The module.  The last three fields record how many records were allocated,
the data printed on removal, and a fault if there was one. -/
structure QueueModule (α : Type) where
  scanQueue : Heap α (BitVec 32)
  status1 : Int
  status2 : Int
  stop1 : Bool
  stop2 : Bool
  thread1 : Thread1 α
  thread2 : Thread2
  count1 : BitVec 32
  count2 : BitVec 32
  exit : Exit
  allocated : ℕ
  removed : List (BitVec 32)
  fault : Option Fault

/-- After `test_init`, with both threads started. -/
def QueueModule.init (α : Type) : QueueModule α where
  scanQueue := Heap.initializer
  status1 := 1
  status2 := 1
  stop1 := false
  stop2 := false
  thread1 := .waiting
  thread2 := .waiting
  count1 := 0
  count2 := 0
  exit := .clearing1
  allocated := 0
  removed := []
  fault := none

/-- A label says who moves.  The wait carries the reason it returns for, and
the allocation carries the answer of `kmalloc`, with what the memory held. -/
inductive Label (α : Type) where
  | wait1 (wake : Wake)
  | kmalloc1 (answer : Option (α × Record α (BitVec 32)))
  | insert1
  | check1
  | wait2 (wake : Wake)
  | drain2
  | check2
  | exit
  deriving DecidableEq

variable {α : Type}

def QueueModule.wait1 (state : QueueModule α) (wake : Wake) : QueueModule α :=
  match state.thread1 with
  | .waiting =>
      if wake.occurs state.status1 then
        { state with
          thread1 := if wake = .signal then .returned else .allocating }
      else state
  | _ => state

def QueueModule.check1 (state : QueueModule α) : QueueModule α :=
  match state.thread1 with
  | .checking =>
      { state with
        thread1 := if state.stop1 then .returned else .waiting }
  | _ => state

def QueueModule.wait2 (state : QueueModule α) (wake : Wake) : QueueModule α :=
  match state.thread2 with
  | .waiting =>
      if wake.occurs state.status2 then
        { state with
          thread2 := if wake = .signal then .returned else .draining
          count2 := if wake = .signal then state.count2 else state.count2 + 1 }
      else state
  | _ => state

def QueueModule.check2 (state : QueueModule α) : QueueModule α :=
  match state.thread2 with
  | .checking =>
      { state with
        thread2 := if state.stop2 then .returned else .waiting }
  | _ => state

/-- One step of `test_exit`; `kthread_stop` returns only when the thread has
returned. -/
def QueueModule.testExit (state : QueueModule α) : QueueModule α :=
  match state.exit with
  | .clearing1 => { state with status1 := 0, exit := .stopping1 }
  | .stopping1 => { state with stop1 := true, exit := .joining1 }
  | .joining1 =>
      match state.thread1 with
      | .returned => { state with exit := .clearing2 }
      | _ => state
  | .clearing2 => { state with status2 := 0, exit := .stopping2 }
  | .stopping2 => { state with stop2 := true, exit := .joining2 }
  | .joining2 =>
      match state.thread2 with
      | .returned => { state with exit := .returned }
      | _ => state
  | .returned => state

section Steps

variable [DecidableEq α]

def QueueModule.kmalloc1
    (state : QueueModule α) (answer : Option (α × Record α (BitVec 32))) :
    QueueModule α :=
  match state.thread1 with
  | .allocating =>
      match answer with
      | none =>
          { state with thread1 := .checking, count1 := state.count1 + 1 }
      | some (tempInsert, contents) =>
          { state with
            scanQueue := state.scanQueue.write tempInsert
              { contents with datum := state.count1 }
            thread1 := .inserting tempInsert
            allocated := state.allocated + 1 }
  | _ => state

def QueueModule.insert1 (state : QueueModule α) : QueueModule α :=
  match state.thread1 with
  | .inserting tempInsert =>
      match state.scanQueue.insertTail tempInsert with
      | .ok scanQueue =>
          { state with
            scanQueue := scanQueue
            thread1 := .checking
            count1 := state.count1 + 1 }
      | .error fault => { state with fault := some fault }
  | _ => state

/-- The loop over the queue is given as many rounds as records were allocated;
a loop that needs more is a fault. -/
def QueueModule.drain2 (state : QueueModule α) : QueueModule α :=
  match state.thread2 with
  | .draining =>
      match state.scanQueue.drain state.allocated with
      | .ok (printed, scanQueue) =>
          { state with
            scanQueue := scanQueue
            thread2 := .checking
            removed := state.removed ++ printed }
      | .error fault => { state with fault := some fault }
  | _ => state

def QueueModule.step (state : QueueModule α) : Label α → QueueModule α
  | .wait1 wake => state.wait1 wake
  | .kmalloc1 answer => state.kmalloc1 answer
  | .insert1 => state.insert1
  | .check1 => state.check1
  | .wait2 wake => state.wait2 wake
  | .drain2 => state.drain2
  | .check2 => state.check2
  | .exit => state.testExit

/-! ## What a run inserts -/

/-- What the critical section of the first thread puts into the queue, given
the number of the record that is allocated and not yet inserted. -/
def Label.handedOver (inHand : Option (BitVec 32)) :
    Label α → List (BitVec 32)
  | .insert1 => inHand.toList
  | _ => []

def QueueModule.inHandAfter
    (state : QueueModule α) (inHand : Option (BitVec 32)) :
    Label α → Option (BitVec 32)
  | .kmalloc1 (some _) =>
      if state.thread1 = .allocating then some state.count1 else inHand
  | .insert1 => none
  | _ => inHand

/-- The data inserted in a run: at every insertion that follows a successful
allocation, the count at that allocation. -/
def insertedData (state : QueueModule α) (inHand : Option (BitVec 32)) :
    List (Label α) → List (BitVec 32)
  | [] => []
  | label :: rest =>
      label.handedOver inHand ++
        insertedData (state.step label) (state.inHandAfter inHand label) rest

end Steps

/-- `kmalloc` returns memory that is not in use. -/
def QueueModule.Fresh (state : QueueModule α) : Label α → Prop
  | .kmalloc1 (some (tempInsert, _)) =>
      state.scanQueue.records tempInsert = none
  | _ => True

instance (state : QueueModule α) :
    (label : Label α) → Decidable (state.Fresh label)
  | .kmalloc1 (some (tempInsert, _)) =>
      decidable_of_iff ((state.scanQueue.records tempInsert).isNone = true)
        Option.isNone_iff_eq_none
  | .kmalloc1 none => .isTrue trivial
  | .wait1 _ => .isTrue trivial
  | .insert1 => .isTrue trivial
  | .check1 => .isTrue trivial
  | .wait2 _ => .isTrue trivial
  | .drain2 => .isTrue trivial
  | .check2 => .isTrue trivial
  | .exit => .isTrue trivial

/-! ## The queue along a run -/

/-- The number of the record the first thread holds. -/
def QueueModule.inHand (state : QueueModule α) : Option (BitVec 32) :=
  match state.thread1 with
  | .inserting _ => some state.count1
  | _ => none

/-- The queue holds the given records, the first thread may hold one more, and
the data removed and queued are the given ones. -/
structure QueueModule.Queued
    (state : QueueModule α) (entries : List (α × BitVec 32))
    (inserted : List (BitVec 32)) : Prop where
  sound : state.fault = none
  wellFormed : state.scanQueue.WellFormed entries
  fifo : state.removed ++ entries.map Prod.snd = inserted
  live : ∀ address, (state.scanQueue.records address).isSome ↔
    address ∈ entries.map Prod.fst ∨ state.thread1 = .inserting address
  held : ∀ address, state.thread1 = .inserting address →
    address ∉ entries.map Prod.fst ∧
      ∃ record, state.scanQueue.records address = some record ∧
        record.datum = state.count1
  rounds : entries.length + state.inHand.toList.length ≤ state.allocated

theorem QueueModule.queued_init : (QueueModule.init α).Queued [] [] where
  sound := rfl
  wellFormed := Heap.wellFormed_initializer
  fifo := rfl
  live := by simp [QueueModule.init, Heap.initializer]
  held := by simp [QueueModule.init]
  rounds := by simp [QueueModule.init, QueueModule.inHand]

structure QueueModule.SameQueue (state other : QueueModule α) : Prop where
  scanQueue : other.scanQueue = state.scanQueue
  allocated : other.allocated = state.allocated
  removed : other.removed = state.removed
  fault : other.fault = state.fault
  inserting : ∀ address,
    other.thread1 = .inserting address ↔ state.thread1 = .inserting address
  count1 : ∀ address, state.thread1 = .inserting address →
    other.count1 = state.count1

theorem QueueModule.inHand_eq_none
    {state : QueueModule α}
    (hthread : ∀ address, state.thread1 ≠ .inserting address) :
    state.inHand = none := by
  unfold QueueModule.inHand
  split
  next address hinserting => exact absurd hinserting (hthread address)
  next => rfl

theorem QueueModule.SameQueue.inHand
    {state other : QueueModule α} (hsame : state.SameQueue other) :
    other.inHand = state.inHand := by
  by_cases hthread : ∃ address, state.thread1 = .inserting address
  · obtain ⟨address, hstate⟩ := hthread
    have hother := (hsame.inserting address).mpr hstate
    simp only [QueueModule.inHand, hstate, hother, hsame.count1 address hstate]
  · simp only [not_exists] at hthread
    rw [inHand_eq_none hthread, inHand_eq_none]
    intro address hother
    exact hthread address ((hsame.inserting address).mp hother)

theorem QueueModule.Queued.of_sameQueue
    {state other : QueueModule α} {entries : List (α × BitVec 32)}
    {inserted : List (BitVec 32)} (hqueued : state.Queued entries inserted)
    (hsame : state.SameQueue other) :
    other.Queued entries inserted where
  sound := hsame.fault.trans hqueued.sound
  wellFormed := hsame.scanQueue ▸ hqueued.wellFormed
  fifo := by rw [hsame.removed, hqueued.fifo]
  live := by
    intro address
    rw [hsame.scanQueue, hqueued.live address, hsame.inserting address]
  held := by
    intro address hthread
    have hinserting := (hsame.inserting address).mp hthread
    rw [hsame.scanQueue, hsame.count1 address hinserting]
    exact hqueued.held address hinserting
  rounds := by
    rw [hsame.inHand, hsame.allocated]
    exact hqueued.rounds

theorem QueueModule.SameQueue.refl (state : QueueModule α) :
    state.SameQueue state :=
  ⟨rfl, rfl, rfl, rfl, fun _ => Iff.rfl, fun _ _ => rfl⟩

theorem QueueModule.wait1_sameQueue (state : QueueModule α) (wake : Wake) :
    state.SameQueue (state.wait1 wake) := by
  unfold QueueModule.wait1
  split
  next hthread => split_ifs <;> constructor <;> simp [hthread]
  next => exact .refl state

theorem QueueModule.check1_sameQueue (state : QueueModule α) :
    state.SameQueue state.check1 := by
  unfold QueueModule.check1
  split
  next hthread => split_ifs <;> constructor <;> simp [hthread]
  next => exact .refl state

theorem QueueModule.wait2_sameQueue (state : QueueModule α) (wake : Wake) :
    state.SameQueue (state.wait2 wake) := by
  unfold QueueModule.wait2
  split
  · split_ifs <;> constructor <;> simp
  · exact .refl state

theorem QueueModule.check2_sameQueue (state : QueueModule α) :
    state.SameQueue state.check2 := by
  unfold QueueModule.check2
  split
  · constructor <;> simp
  · exact .refl state

theorem QueueModule.testExit_sameQueue (state : QueueModule α) :
    state.SameQueue state.testExit := by
  unfold QueueModule.testExit
  cases state.exit with
  | joining1 => cases hthread : state.thread1 <;> constructor <;> simp [hthread]
  | joining2 => cases state.thread2 <;> constructor <;> simp
  | _ => constructor <;> simp

variable [DecidableEq α] {inserted : List (BitVec 32)}

theorem QueueModule.Queued.kmalloc1
    {state : QueueModule α} {entries : List (α × BitVec 32)}
    (hqueued : state.Queued entries inserted)
    {answer : Option (α × Record α (BitVec 32))}
    (hfresh : state.Fresh (.kmalloc1 answer)) :
    (state.kmalloc1 answer).Queued entries inserted := by
  unfold QueueModule.kmalloc1
  split
  next hthread =>
    cases answer with
    | none =>
        apply hqueued.of_sameQueue
        constructor <;> simp [hthread]
    | some pair =>
        obtain ⟨tempInsert, contents⟩ := pair
        have hdead : state.scanQueue.records tempInsert = none := hfresh
        have hnew : tempInsert ∉ entries.map Prod.fst := by
          intro hmem
          have hsome := (hqueued.live tempInsert).mpr (Or.inl hmem)
          simp [hdead] at hsome
        constructor
        · exact hqueued.sound
        · refine ⟨hqueued.wellFormed.first_eq, hqueued.wellFormed.last_eq, ?_,
            hqueued.wellFormed.distinct⟩
          apply hqueued.wellFormed.chained.congr
          intro address hmem
          apply Heap.write_records_of_ne
          rintro rfl
          exact hnew hmem
        · exact hqueued.fifo
        · intro address
          by_cases hequal : address = tempInsert
          · subst hequal
            simp
          · simp only [Heap.write_records_of_ne _ _ hequal, hqueued.live address,
              hthread, Thread1.inserting.injEq, reduceCtorEq, or_false,
              Ne.symm hequal]
        · intro address hinserting
          obtain rfl : tempInsert = address := by simpa using hinserting
          exact ⟨hnew, _, Heap.write_records_self .., rfl⟩
        · have hrounds := hqueued.rounds
          simp only [QueueModule.inHand, Option.toList_some,
            List.length_singleton]
          omega
  next => exact hqueued

theorem QueueModule.Queued.insert1
    {state : QueueModule α} {entries : List (α × BitVec 32)}
    (hqueued : state.Queued entries inserted) :
    ∃ later, state.insert1.Queued later
        (inserted ++ state.inHand.toList) ∧
      state.insert1.inHand = none := by
  unfold QueueModule.insert1
  split
  next tempInsert hthread =>
    obtain ⟨hnew, record, hlive, hdatum⟩ := hqueued.held tempInsert hthread
    obtain ⟨scanQueue, hinsert, hwell, hkept⟩ :=
      hqueued.wellFormed.insertTail hlive hnew
    have hhand : state.inHand = some state.count1 := by
      simp only [QueueModule.inHand, hthread]
    have hrounds := hqueued.rounds
    rw [hinsert]
    refine ⟨entries ++ [(tempInsert, record.datum)],
      ⟨hqueued.sound, hwell, ?_, ?_, by simp, ?_⟩, rfl⟩
    · simp only [List.map_append, List.map_cons, List.map_nil,
        ← List.append_assoc, hqueued.fifo, hdatum, hhand, Option.toList_some]
    · intro address
      simp only [hkept, hqueued.live, hthread, Thread1.inserting.injEq,
        List.map_append, List.mem_append, List.map_cons, List.map_nil,
        List.mem_singleton, reduceCtorEq, or_false]
      constructor <;> rintro (hold | rfl) <;> simp [*]
    · simp only [hhand, Option.toList_some, List.length_singleton] at hrounds
      simpa [QueueModule.inHand] using hrounds
  next hthread =>
    have hhand : state.inHand = none := inHand_eq_none hthread
    refine ⟨entries, ?_, hhand⟩
    rw [hhand, Option.toList_none, List.append_nil]
    exact hqueued

/-- A drain ends, prints what was queued, and leaves the empty queue. -/
theorem QueueModule.Queued.drain2
    {state : QueueModule α} {entries : List (α × BitVec 32)}
    (hqueued : state.Queued entries inserted)
    (hthread : state.thread2 = .draining) :
    state.drain2.Queued [] inserted ∧ state.drain2.thread2 = .checking := by
  have hrounds := hqueued.rounds
  have hfuel : entries.length ≤ state.allocated := by omega
  obtain ⟨scanQueue, hdrain, hwell, hfreed, hframe⟩ := hqueued.wellFormed.drain hfuel
  simp only [QueueModule.drain2, hthread, hdrain]
  refine ⟨⟨hqueued.sound, hwell, ?_, ?_, ?_, ?_⟩, trivial⟩
  · simpa using hqueued.fifo
  · intro address
    simp only [List.map_nil, List.not_mem_nil, false_or]
    by_cases hmem : address ∈ entries.map Prod.fst
    · simp only [hfreed address hmem, Option.isSome_none, Bool.false_eq_true,
        false_iff]
      intro hheld
      exact (hqueued.held address hheld).1 hmem
    · rw [hframe address hmem, hqueued.live address]
      simp only [hmem, false_or]
  · intro address hheld
    have hout := (hqueued.held address hheld).1
    refine ⟨List.not_mem_nil, ?_⟩
    rw [hframe address hout]
    exact (hqueued.held address hheld).2
  · change 0 + state.inHand.toList.length ≤ state.allocated
    omega

theorem QueueModule.inHand_kmalloc1
    (state : QueueModule α) (answer : Option (α × Record α (BitVec 32))) :
    (state.kmalloc1 answer).inHand =
      state.inHandAfter state.inHand (.kmalloc1 answer) := by
  by_cases hthread : state.thread1 = .allocating
  · have hhand : state.inHand = none := by
      simp only [QueueModule.inHand, hthread]
    cases answer with
    | none =>
        simp only [QueueModule.kmalloc1, QueueModule.inHandAfter, hthread,
          hhand]
        rfl
    | some pair =>
        simp only [QueueModule.kmalloc1, QueueModule.inHandAfter, hthread,
          if_true]
        rfl
  · have hsame : state.kmalloc1 answer = state := by
      unfold QueueModule.kmalloc1
      split
      next hallocating => exact absurd hallocating hthread
      next => rfl
    rw [hsame]
    cases answer with
    | none => rfl
    | some pair => simp only [QueueModule.inHandAfter, if_neg hthread]

theorem QueueModule.inHand_drain2 (state : QueueModule α) :
    state.drain2.inHand = state.inHand := by
  unfold QueueModule.drain2
  split
  · split <;> rfl
  · rfl

/-- One step keeps the queue in order, with what it hands over behind what was
there. -/
theorem QueueModule.Queued.step
    {state : QueueModule α} {entries : List (α × BitVec 32)}
    (hqueued : state.Queued entries inserted) {label : Label α}
    (hfresh : state.Fresh label) :
    ∃ later,
      (state.step label).Queued later
        (inserted ++ label.handedOver state.inHand) ∧
      (state.step label).inHand = state.inHandAfter state.inHand label := by
  have hquiet : ∀ {other : QueueModule α}, state.SameQueue other →
      other.Queued entries (inserted ++ []) ∧ other.inHand = state.inHand := by
    intro other hsame
    rw [List.append_nil]
    exact ⟨hqueued.of_sameQueue hsame, hsame.inHand⟩
  cases label with
  | wait1 wake => exact ⟨entries, hquiet (state.wait1_sameQueue wake)⟩
  | kmalloc1 answer =>
      refine ⟨entries, ?_, state.inHand_kmalloc1 answer⟩
      have hkept := hqueued.kmalloc1 hfresh
      rwa [← List.append_nil inserted] at hkept
  | insert1 => exact hqueued.insert1
  | check1 => exact ⟨entries, hquiet state.check1_sameQueue⟩
  | wait2 wake => exact ⟨entries, hquiet (state.wait2_sameQueue wake)⟩
  | drain2 =>
      by_cases hthread : state.thread2 = .draining
      · refine ⟨[], ?_, state.inHand_drain2⟩
        have hdrained := (hqueued.drain2 hthread).1
        rwa [← List.append_nil inserted] at hdrained
      · have hsame : state.drain2 = state := by
          unfold QueueModule.drain2
          split
          next hdraining => exact absurd hdraining hthread
          next => rfl
        refine ⟨entries, hquiet ?_⟩
        rw [QueueModule.step, hsame]
        exact .refl state
  | check2 => exact ⟨entries, hquiet state.check2_sameQueue⟩
  | exit => exact ⟨entries, hquiet state.testExit_sameQueue⟩

theorem QueueModule.Queued.run
    {state : QueueModule α} {entries : List (α × BitVec 32)}
    (hqueued : state.Queued entries inserted) {word : List (Label α)}
    (hfresh : Guarded QueueModule.step QueueModule.Fresh state word) :
    ∃ later, (word.foldl QueueModule.step state).Queued later
      (inserted ++ insertedData state state.inHand word) := by
  induction word generalizing state entries inserted with
  | nil =>
      refine ⟨entries, ?_⟩
      rw [insertedData, List.append_nil]
      exact hqueued
  | cons label rest ih =>
      obtain ⟨between, hstep, hhand⟩ := hqueued.step hfresh.1
      obtain ⟨later, hlater⟩ := ih hstep hfresh.2
      refine ⟨later, ?_⟩
      rw [insertedData, ← hhand, ← List.append_assoc]
      exact hlater

/-- No fault so far, a well-formed tail queue, and the data in order. -/
def QueueModule.Fifo
    (state : QueueModule α) (inserted : List (BitVec 32)) : Prop :=
  state.fault = none ∧
    ∃ entries, state.scanQueue.WellFormed entries ∧
      state.removed ++ entries.map Prod.snd = inserted

/-- The drain, started now, ends with the empty queue and without a fault. -/
def QueueModule.DrainEmpties
    (state : QueueModule α) (inserted : List (BitVec 32)) : Prop :=
  state.thread2 = .draining →
    state.drain2.fault = none ∧ state.drain2.scanQueue.WellFormed [] ∧
      state.drain2.removed = inserted

theorem QueueModule.Queued.drainEmpties
    {state : QueueModule α} {entries : List (α × BitVec 32)}
    (hqueued : state.Queued entries inserted) :
    state.DrainEmpties inserted := by
  intro hthread
  have hdrained := (hqueued.drain2 hthread).1
  refine ⟨hdrained.sound, hdrained.wellFormed, ?_⟩
  rw [← hdrained.fifo]
  simp

/-- After every step of every run the queue is a first-in first-out tail queue
of what the run has inserted, and a drain empties it. -/
theorem scanQueue_always_fifo
    {word : List (Label α)}
    (hfresh : Guarded QueueModule.step QueueModule.Fresh (QueueModule.init α)
      word) :
    ∀ done, done <+: word →
      let state := done.foldl QueueModule.step (QueueModule.init α)
      let inserted := insertedData (QueueModule.init α) none done
      state.Fifo inserted ∧ state.DrainEmpties inserted := by
  intro done hdone state inserted
  obtain ⟨entries, hqueued⟩ :=
    QueueModule.queued_init.run (hfresh.front hdone)
  exact ⟨⟨hqueued.sound, entries, hqueued.wellFormed, hqueued.fifo⟩,
    hqueued.drainEmpties⟩

/-- Three allocations, one of them failing, and a drain; the third record
takes the address of the first. -/
def reusedAddress : List (Label ℕ) :=
  [.wait1 .timeout, .kmalloc1 (some (7, ⟨some 3, .next 5, 9⟩)), .insert1,
    .check1, .wait2 .timeout, .wait1 .timeout, .kmalloc1 none, .drain2,
    .check1, .wait1 .timeout, .kmalloc1 (some (7, ⟨none, .head, 0⟩)), .check2,
    .insert1, .wait2 .timeout, .drain2]

theorem scanQueue_always_fifo_reusedAddress :
    Guarded QueueModule.step QueueModule.Fresh (QueueModule.init ℕ)
        reusedAddress ∧
      insertedData (QueueModule.init ℕ) none reusedAddress = [0, 2] ∧
      (reusedAddress.foldl QueueModule.step (QueueModule.init ℕ)).Fifo
        [0, 2] := by
  have hinserted :
      insertedData (QueueModule.init ℕ) none reusedAddress = [0, 2] := by
    decide
  have hfifo := scanQueue_always_fifo
    (show Guarded QueueModule.step QueueModule.Fresh (QueueModule.init ℕ)
      reusedAddress by decide) reusedAddress (List.prefix_refl _)
  refine ⟨by decide, hinserted, ?_⟩
  rw [← hinserted]
  exact hfifo.1

end LinuxKernelCode.KthreadQueue
