import LinuxKernelCode.DecimalText
import LinuxKernelCode.FanotifyEvents
import LinuxKernelCode.StringTokens

/-!
# The fanotify tester

`test_fan.c` polls a descriptor for signals and one for events.  It closes the
descriptor of an event before it writes the response, it writes a response to
every event, whether one is asked for or not, and it looks at the result of
neither call.

Responses are matched by the number of the descriptor.  If the numbers within
one read are different and the kernel takes the responses that it waits for,
everybody who waits is answered in the same round, and nobody is left waiting
in any state the poll loop comes to.  The marks are another matter: they are
set on mounts and the removals do not say so.
-/

namespace LinuxKernelCode.Fanotify.Tester

open LinuxKernelCode.DecimalText
open LinuxKernelCode.RecordStream
open LinuxKernelCode.Scripted
open LinuxKernelCode.Tokens

abbrev Trace := List Call

def eventMask : Mask := fanOpenPerm ||| fanCloseWrite

def sigint : ℕ := 2

def sigterm : ℕ := 15

/-- The ways out of the poll loop: `exit (EXIT_FAILURE)`, `break`, and a write
through the null pointer that `malloc` gave. -/
inductive Ending where
  | exit (trace : Trace)
  | broken (trace : Trace)
  | crashed (trace : Trace)
  deriving DecidableEq, Repr

section Events

variable (system : System)

/-- `get_program_name_from_pid`: the text up to a zero, and up to the two
characters that are looked for. -/
def getProgramNameFromPid (pid : ℤ) (trace : Trace) : Option Text × Trace :=
  let trace := trace ++ [.openCmdline pid]
  if system.result trace < 0 then (none, trace)
  else
    match system.cmdline trace with
    | none => (none, trace)
    | some buffer =>
        let name := buffer.takeWhile (· ≠ nul)
        match strstr name ['^', '@'] with
        | none => (some name, trace)
        | some aux => (some (name.take (name.length - aux.length)), trace)

def getFilePathFromFd (fd : ℤ) (trace : Trace) : Option Text × Trace :=
  if fd ≤ 0 then (none, trace)
  else
    let trace := trace ++ [.readlink fd]
    if system.result trace < 0 then (none, trace)
    else (some (system.link trace), trace)

def unknown : Text := "unknown".toList

def eventProcess (metadata : Metadata) (trace : Trace) : Trace :=
  let (path, trace) := getFilePathFromFd system metadata.descriptor trace
  let trace := trace ++ [.print ("Received event in path '".toList ++
    path.getD unknown ++ "'".toList)]
  let (name, trace) := getProgramNameFromPid system metadata.pid.toInt trace
  let trace := trace ++ [.print (" pid=".toList ++
    decimal metadata.pid.toInt ++ " (".toList ++ name.getD unknown ++
    "): \n".toList)]
  let trace := if has metadata.mask fanCloseWrite then
    trace ++ [.print "\tFAN_CLOSE_WRITE\n".toList] else trace
  let trace := if has metadata.mask fanOpenPerm then
    trace ++ [.print "\tFAN_OPEN_PERM\n".toList] else trace
  trace ++ [.close metadata.descriptor]

/-- The body of the loop over a buffer: the structure for the response is
allocated before the number is printed, and written to behind it. -/
def handle (trace : Trace) (metadata : Metadata) : Except Ending Trace :=
  let trace := eventProcess system metadata trace
  let failed := system.mallocFails trace
  let trace := trace ++
    [.print (decimal metadata.descriptor ++ [newline])]
  if failed then .error (.crashed trace)
  else .ok (trace ++ [.respond metadata.descriptor fanAllow])

end Events

/-- What one call of `poll` finds: whether it fails, the signal that is read,
if there is one and it has the right size, and the bytes that are read. -/
structure Round where
  pollFails : Bool
  signal : Option (Option ℕ)
  events : Option (List Byte)
  deriving DecidableEq, Repr

section Loop

variable (system : System)

def readSignal (round : Round) (trace : Trace) : Except Ending Trace :=
  match round.signal with
  | none => .ok trace
  | some none => .error (.exit (trace ++
      [.complain "Couldn't read signal, wrong size read\n".toList]))
  | some (some signo) =>
      if signo = sigint ∨ signo = sigterm then .error (.broken trace)
      else .ok (trace ++ [.complain "Received unexpected signal\n".toList])

def readEvents (round : Round) (trace : Trace) : Except Ending Trace :=
  match round.events with
  | none => .ok trace
  | some bytes =>
      eventLoop (handle system) bytes.length bytes
        (trace ++ [.read (eventsIn bytes)])

def pollRound (trace : Trace) (round : Round) : Except Ending Trace :=
  if round.pollFails then
    .error (.exit (trace ++ [.complain ("Couldn't poll(): '".toList ++
      system.strerror trace ++ "'\n".toList)]))
  else do
    let trace ← readSignal round trace
    readEvents system round trace

/-- `initialize_fanotify` returns -1, or it writes to an array of monitors that
was not allocated. -/
inductive Refusal where
  | returned (trace : Trace)
  | crashed (trace : Trace)
  deriving DecidableEq, Repr

def addCall (path : Text) : Call :=
  .fanotifyMark (markAdd ||| markMount) eventMask atFdcwd (some path)

def startedCall (path : Text) : Call :=
  .print ("Started monitoring directory '".toList ++ path ++
    "'...\n".toList)

/-- One directory of `initialize_fanotify`. -/
def addMonitor (trace : Trace) (path : Text) : Except Refusal Trace :=
  let trace := trace ++ [addCall path]
  if system.result trace < 0 then
    .error (.returned (trace ++ [.complain
      ("Couldn't add monitor in directory '".toList ++ path ++
        "': '".toList ++ system.strerror trace ++ "'\n".toList)]))
  else .ok (trace ++ [startedCall path])

def initCall : Call := .fanotifyInit (fanClassContent ||| fanCloexec)

def initializeFanotify (paths : List Text) (trace : Trace) :
    Except Refusal Trace :=
  let trace := trace ++ [initCall]
  if system.result trace < 0 then
    .error (.returned (trace ++ [.complain
      ("Couldn't setup new fanotify device: ".toList ++
        system.strerror trace ++ "\n".toList)]))
  else if system.mallocFails trace then .error (.crashed trace)
  else paths.foldlM (addMonitor system) trace

def removeCall (path : Text) : Call :=
  .fanotifyMark markRemove eventMask atFdcwd (some path)

/-- `shutdown_fanotify`: the flags are those of the removal alone. -/
def shutdownFanotify (paths : List Text) (fanotifyFd : ℤ) (trace : Trace) :
    Trace :=
  trace ++ paths.map removeCall ++ [.close fanotifyFd]

/-- The descriptor that `fanotify_init` gives. -/
def fanotifyFd : ℤ := system.result [initCall]

inductive Exit where
  | failure (trace : Trace)
  | success (trace : Trace)
  | running (trace : Trace)
  | crashed (trace : Trace)
  deriving DecidableEq, Repr

def Exit.trace : Exit → Trace
  | .failure trace => trace
  | .success trace => trace
  | .running trace => trace
  | .crashed trace => trace

/-- What follows the poll loop. -/
def leave (paths : List Text) (signalFd : ℤ) : Except Ending Trace → Exit
  | .ok trace => .running trace
  | .error (.exit trace) => .failure trace
  | .error (.crashed trace) => .crashed trace
  | .error (.broken trace) =>
      .success (shutdownFanotify paths (fanotifyFd system) trace ++
        [.close signalFd, .print "Exiting fanotify example...\n".toList])

/-- `main`, for the given directories, the descriptor for signals, and the
rounds that `poll` comes back from. -/
def main (progname : Text) (paths : List Text) (signalFd : ℤ)
    (rounds : List Round) : Exit :=
  if paths = [] then
    .failure [.complain ("Usage: ".toList ++ progname ++
      " directory1 [directory2 ...]\n".toList)]
  else if signalFd < 0 then
    .failure [.complain "Couldn't initialize signals\n".toList]
  else
    match initializeFanotify system paths [] with
    | .error (.returned trace) =>
        .failure (trace ++
          [.complain "Couldn't initialize fanotify\n".toList])
    | .error (.crashed trace) => .crashed trace
    | .ok trace =>
        leave system paths signalFd (rounds.foldlM (pollRound system) trace)

end Loop

/-! ## The calls in between -/

/-- Nothing else has been called since. -/
def Chats (trace later : Trace) : Prop :=
  ∃ chatter : List Call, (∀ call ∈ chatter, call.isChatter) ∧
    later = trace ++ chatter

theorem Chats.refl (trace : Trace) : Chats trace trace :=
  ⟨[], by simp, by simp⟩

theorem Chats.concat
    {trace later : Trace} (hchats : Chats trace later) (call : Call)
    (hcall : call.isChatter) : Chats trace (later ++ [call]) := by
  obtain ⟨chatter, hchatter, rfl⟩ := hchats
  refine ⟨chatter ++ [call], ?_, by simp⟩
  intro other hother
  rcases List.mem_append.mp hother with hother | hother
  · exact hchatter other hother
  · rw [List.mem_singleton.mp hother]
    exact hcall

theorem Chats.trans
    {trace between later : Trace} (hfirst : Chats trace between)
    (hsecond : Chats between later) : Chats trace later := by
  obtain ⟨chatter, hchatter, rfl⟩ := hfirst
  obtain ⟨more, hmore, rfl⟩ := hsecond
  refine ⟨chatter ++ more, ?_, by simp⟩
  intro call hcall
  rcases List.mem_append.mp hcall with hcall | hcall
  · exact hchatter call hcall
  · exact hmore call hcall

section Chatter

variable (system : System)

theorem chats_getFilePathFromFd (fd : ℤ) (trace : Trace) :
    Chats trace (getFilePathFromFd system fd trace).2 := by
  have hlink : Chats trace (trace ++ [.readlink fd]) :=
    (Chats.refl trace).concat _ rfl
  simp only [getFilePathFromFd]
  split_ifs
  · exact Chats.refl trace
  · exact hlink
  · exact hlink

theorem chats_getProgramNameFromPid (pid : ℤ) (trace : Trace) :
    Chats trace (getProgramNameFromPid system pid trace).2 := by
  have hopen : Chats trace (trace ++ [.openCmdline pid]) :=
    (Chats.refl trace).concat _ rfl
  simp only [getProgramNameFromPid]
  split_ifs
  · exact hopen
  · split
    · exact hopen
    · split <;> exact hopen

theorem eventProcess_cases (metadata : Metadata) (trace : Trace) :
    ∃ closing, Chats trace closing ∧
      eventProcess system metadata trace =
        closing ++ [.close metadata.descriptor] := by
  have hpath := (chats_getFilePathFromFd system metadata.descriptor
    trace).concat (.print ("Received event in path '".toList ++
      (getFilePathFromFd system metadata.descriptor trace).1.getD unknown ++
      "'".toList)) rfl
  refine ⟨_, ?_, rfl⟩
  have hname := hpath.trans (chats_getProgramNameFromPid system
    metadata.pid.toInt _)
  split_ifs
  · exact ((hname.concat _ rfl).concat _ rfl).concat _ rfl
  · exact (hname.concat _ rfl).concat _ rfl
  · exact (hname.concat _ rfl).concat _ rfl
  · exact hname.concat _ rfl

/-- What the program does about an event: it closes the descriptor, and it
responds unless it crashes. -/
theorem handle_cases (metadata : Metadata) (trace : Trace) :
    ∃ closing printed, Chats trace closing ∧
      Chats (closing ++ [.close metadata.descriptor]) printed ∧
      (handle system trace metadata =
          .ok (printed ++ [.respond metadata.descriptor fanAllow]) ∨
        handle system trace metadata = .error (.crashed printed)) := by
  obtain ⟨closing, hchats, hprocess⟩ :=
    eventProcess_cases system metadata trace
  refine ⟨closing, _, hchats, (Chats.refl _).concat (.print (decimal
    metadata.descriptor ++ [newline])) rfl, ?_⟩
  simp only [handle, hprocess]
  split
  · exact Or.inr rfl
  · exact Or.inl rfl

end Chatter


/-! ## The poll loop -/

/-- The events that a round gets to. -/
def Round.received (round : Round) : List Metadata :=
  match round.events with
  | none => []
  | some bytes => eventsIn bytes

/-- The round does not end the loop. -/
def Round.goesOn (round : Round) : Bool :=
  !round.pollFails &&
    match round.signal with
    | none => true
    | some none => false
    | some (some signo) => signo != sigint && signo != sigterm

def Ending.trace : Ending → Trace
  | .exit trace => trace
  | .broken trace => trace
  | .crashed trace => trace

section Rounds

variable (system : System)

theorem readSignal_of_goesOn
    {round : Round} (hgoesOn : round.goesOn) (trace : Trace) :
    ∃ next, readSignal round trace = .ok next ∧ Chats trace next := by
  unfold readSignal
  cases hsignal : round.signal with
  | none => exact ⟨_, rfl, Chats.refl trace⟩
  | some read =>
      cases read with
      | none => simp [Round.goesOn, hsignal] at hgoesOn
      | some signo =>
          simp only [Round.goesOn, hsignal, Bool.and_eq_true, bne_iff_ne]
            at hgoesOn
          refine ⟨trace ++ [.complain "Received unexpected signal\n".toList],
            ?_, (Chats.refl trace).concat _ rfl⟩
          simp [hgoesOn.2.1, hgoesOn.2.2]

/-- A round that lets the loop go on comes to its events. -/
theorem pollRound_of_goesOn
    {round : Round} (hgoesOn : round.goesOn) (trace : Trace) :
    ∃ next, pollRound system trace round = readEvents system round next ∧
      Chats trace next := by
  obtain ⟨next, hnext, hchats⟩ := readSignal_of_goesOn hgoesOn trace
  have hpoll : round.pollFails = false := by
    simpa using (Bool.and_eq_true_iff.mp hgoesOn).1
  refine ⟨next, ?_, hchats⟩
  simp only [pollRound, hpoll, hnext]
  rfl

/-- A round that ends the loop ends it before any event is read. -/
theorem pollRound_of_not_goesOn
    {round : Round} (hends : ¬ round.goesOn) (trace : Trace) :
    ∃ ending, pollRound system trace round = .error ending ∧
      Chats trace ending.trace := by
  unfold pollRound
  cases hpoll : round.pollFails with
  | true => exact ⟨_, rfl, (Chats.refl trace).concat _ rfl⟩
  | false =>
      unfold readSignal
      cases hsignal : round.signal with
      | none => simp [Round.goesOn, hpoll, hsignal] at hends
      | some read =>
          cases read with
          | none => exact ⟨_, rfl, (Chats.refl trace).concat _ rfl⟩
          | some signo =>
              have hquits : signo = sigint ∨ signo = sigterm := by
                by_contra hother
                rw [not_or] at hother
                simp [Round.goesOn, hpoll, hsignal, hother.1, hother.2]
                  at hends
              refine ⟨.broken trace, ?_, Chats.refl trace⟩
              simp only [if_pos hquits]
              rfl

/-- What is carried through the poll loop: a condition that speaks of the
rounds and of the events of the present round that are still to come. -/
structure Carries (waiting : List Round → List Metadata → Trace → Prop)
    (ending : Ending → Prop) : Prop where
  chats : ∀ {rounds events trace later}, Chats trace later →
    waiting rounds events trace → waiting rounds events later
  ends : ∀ {round rounds stop}, ¬ Round.goesOn round →
    waiting (round :: rounds) [] (Ending.trace stop) → ending stop
  reads : ∀ {round rounds trace}, Round.goesOn round →
    waiting (round :: rounds) [] trace →
    match round.events with
    | none => waiting rounds [] trace
    | some bytes =>
        waiting rounds (eventsIn bytes) (trace ++ [.read (eventsIn bytes)])
  handles : ∀ rounds metadata events,
    Leads (waiting rounds (metadata :: events)) (waiting rounds events)
      ending (fun trace => handle system trace metadata)

variable {system} {waiting : List Round → List Metadata → Trace → Prop}
  {ending : Ending → Prop}

theorem Carries.pollRound
    (hcarries : Carries system waiting ending) (round : Round)
    (rounds : List Round) :
    Leads (waiting (round :: rounds) []) (waiting rounds []) ending
      (fun trace => pollRound system trace round) := by
  intro trace hwaiting
  by_cases hgoesOn : round.goesOn
  · obtain ⟨next, hnext, hchats⟩ := pollRound_of_goesOn system hgoesOn trace
    have hreads := hcarries.reads hgoesOn (hcarries.chats hchats hwaiting)
    simp only [hnext, readEvents]
    cases hevents : round.events with
    | none =>
        rw [hevents] at hreads
        exact Or.inl ⟨next, rfl, hreads⟩
    | some bytes =>
        rw [hevents] at hreads
        simp only [eventLoop_eq]
        exact Leads.foldlM (waiting rounds) (hcarries.handles rounds)
          (eventsIn bytes) _ hreads
  · obtain ⟨stop, hstop, hchats⟩ :=
      pollRound_of_not_goesOn system hgoesOn trace
    exact Or.inr ⟨stop, hstop,
      hcarries.ends hgoesOn (hcarries.chats hchats hwaiting)⟩

theorem Carries.rounds
    (hcarries : Carries system waiting ending) (rounds : List Round) :
    Leads (waiting rounds []) (waiting [] []) ending
      (fun trace => rounds.foldlM (Tester.pollRound system) trace) :=
  Leads.foldlM (fun rounds => waiting rounds []) hcarries.pollRound rounds

def Ending.Crashed (ending : Ending) : Prop :=
  ∃ trace, ending = .crashed trace

/-- A condition that is lost only in a crash. -/
theorem Carries.outcome
    {good : Trace → Prop}
    (hcarries : Carries system waiting
      fun ending => ending.Crashed ∨ good ending.trace)
    (hdone : ∀ trace, waiting [] [] trace → good trace)
    {rounds : List Round} {trace : Trace}
    (hwaiting : waiting rounds [] trace) :
    (∃ next, rounds.foldlM (Tester.pollRound system) trace = .ok next ∧
      good next) ∨
    ∃ stop, rounds.foldlM (Tester.pollRound system) trace = .error stop ∧
      (stop.Crashed ∨ good stop.trace) := by
  rcases hcarries.rounds rounds trace hwaiting with
    ⟨next, hok, hnext⟩ | hstop
  · exact Or.inl ⟨next, hok, hdone next hnext⟩
  · exact Or.inr hstop

/-- Two conditions that are both lost only in a crash. -/
theorem Carries.both
    {waiting' : List Round → List Metadata → Trace → Prop}
    {good good' : Trace → Prop}
    (hcarries : Carries system waiting
      fun ending => ending.Crashed ∨ good ending.trace)
    (hcarries' : Carries system waiting'
      fun ending => ending.Crashed ∨ good' ending.trace)
    (hdone : ∀ trace, waiting [] [] trace → good trace)
    (hdone' : ∀ trace, waiting' [] [] trace → good' trace)
    {rounds : List Round} {trace : Trace} (hwaiting : waiting rounds [] trace)
    (hwaiting' : waiting' rounds [] trace) :
    (∃ next, rounds.foldlM (Tester.pollRound system) trace = .ok next ∧
      good next ∧ good' next) ∨
    ∃ stop, rounds.foldlM (Tester.pollRound system) trace = .error stop ∧
      (stop.Crashed ∨ good stop.trace ∧ good' stop.trace) := by
  rcases (hcarries.rounds rounds).and (hcarries'.rounds rounds) trace
      ⟨hwaiting, hwaiting'⟩ with
    ⟨next, hok, hfirst, hsecond⟩ |
      ⟨stop, hstop, hfirst | hfirst, hsecond | hsecond⟩
  · exact Or.inl ⟨next, hok, hdone next hfirst, hdone' next hsecond⟩
  · exact Or.inr ⟨stop, hstop, Or.inl hfirst⟩
  · exact Or.inr ⟨stop, hstop, Or.inl hfirst⟩
  · exact Or.inr ⟨stop, hstop, Or.inl hsecond⟩
  · exact Or.inr ⟨stop, hstop, Or.inr ⟨hfirst, hsecond⟩⟩

end Rounds

/-! ## The calls that are made -/

/-- The calls without those in between. -/
def seen (trace : Trace) : List Call :=
  trace.filter fun call => !call.isChatter

def eventScript (metadata : Metadata) : List Call :=
  [.close metadata.descriptor, .respond metadata.descriptor fanAllow]

def Round.script (round : Round) : List Call :=
  match round.events with
  | none => []
  | some bytes =>
      .read (eventsIn bytes) :: (eventsIn bytes).flatMap eventScript

theorem seen_append (trace : Trace) (calls : List Call) :
    seen (trace ++ calls) = seen trace ++ seen calls :=
  List.filter_append _ _

/-- A kind of calls that are not among those in between. -/
theorem filter_seen
    {kind : Call → Bool} (hkind : ∀ call, call.isChatter → kind call = false)
    (trace : Trace) : (seen trace).filter kind = trace.filter kind := by
  rw [seen, List.filter_filter]
  apply List.filter_congr
  intro call _
  cases hchatter : call.isChatter with
  | false => simp
  | true => simp [hkind call hchatter]

theorem Chats.seen_eq
    {trace later : Trace} (hchats : Chats trace later) :
    seen later = seen trace := by
  obtain ⟨chatter, hchatter, rfl⟩ := hchats
  have hnone : seen chatter = [] := by
    simpa [seen, List.filter_eq_nil_iff] using hchatter
  rw [seen_append, hnone, List.append_nil]

/-- The calls that are still to be made. -/
def StillToCall (total : List Call) (rounds : List Round)
    (events : List Metadata) (trace : Trace) : Prop :=
  seen trace ++ events.flatMap eventScript ++
    (rounds.takeWhile Round.goesOn).flatMap Round.script = total

def AllCalled (total : List Call) (trace : Trace) : Prop :=
  seen trace = total

theorem StillToCall.allCalled
    {total : List Call} {rounds : List Round} {trace : Trace}
    (hstill : StillToCall total rounds [] trace)
    (hnone : rounds.takeWhile Round.goesOn = []) : AllCalled total trace := by
  simpa [StillToCall, AllCalled, hnone] using hstill

section Seen

variable (system : System)

theorem carries_stillToCall (total : List Call) :
    Carries system (StillToCall total)
      (fun ending => ending.Crashed ∨ AllCalled total ending.trace) where
  chats := by
    intro rounds events trace later hchats hstill
    rw [StillToCall, hchats.seen_eq]
    exact hstill
  ends := by
    intro round rounds stop hends hstill
    exact Or.inr (hstill.allCalled (List.takeWhile_cons_of_neg hends))
  reads := by
    intro round rounds trace hgoesOn hstill
    rw [StillToCall, List.takeWhile_cons_of_pos hgoesOn,
      List.flatMap_cons] at hstill
    cases hevents : round.events with
    | none =>
        have hscript : round.script = [] := by simp [Round.script, hevents]
        simpa [StillToCall, hscript] using hstill
    | some bytes =>
        have hscript : round.script = .read (eventsIn bytes) ::
            (eventsIn bytes).flatMap eventScript := by
          simp [Round.script, hevents]
        have hseen : seen (trace ++ [.read (eventsIn bytes)]) =
            seen trace ++ [.read (eventsIn bytes)] := seen_append _ _
        simpa [StillToCall, hscript, hseen] using hstill
  handles := by
    intro rounds metadata events trace hstill
    obtain ⟨closing, printed, hclosing, hprinted, hhandle | hhandle⟩ :=
      handle_cases system metadata trace
    · refine Or.inl ⟨_, hhandle, ?_⟩
      have hseen : seen (printed ++
          [.respond metadata.descriptor fanAllow]) =
          seen trace ++ eventScript metadata := by
        rw [seen_append, hprinted.seen_eq, seen_append, hclosing.seen_eq]
        simp [seen, Call.isChatter, eventScript]
      rw [StillToCall, hseen]
      simpa [StillToCall] using hstill
    · exact Or.inr ⟨_, hhandle, Or.inl ⟨_, rfl⟩⟩

end Seen

/-! ## One read -/

/-- The numbers of the descriptors in one read, as they are given out: those of
different events are different, and an event that asks for permission has
one. -/
structure Fresh (events : List Metadata) : Prop where
  distinct : (openedFds events).Nodup
  opened : ∀ metadata ∈ events, metadata.asksPermission →
    0 ≤ metadata.descriptor

/-- One response to everybody who waits, given when the descriptor is
closed. -/
def repliesTo (events : List Metadata) : List Answer :=
  (events.filter Metadata.asksPermission).map fun metadata =>
    ⟨metadata.descriptor, fanAllow, true, false⟩

theorem repliesTo_cons (metadata : Metadata) (events : List Metadata) :
    repliesTo (metadata :: events) =
      (if metadata.asksPermission then
        [⟨metadata.descriptor, fanAllow, true, false⟩] else []) ++
        repliesTo events := by
  cases hasks : metadata.asksPermission <;> simp [repliesTo, hasks]

theorem Fresh.tail
    {metadata : Metadata} {events : List Metadata}
    (hfresh : Fresh (metadata :: events)) : Fresh events := by
  constructor
  · have hdistinct := hfresh.distinct
    rw [openedFds_cons] at hdistinct
    exact (List.nodup_append.mp hdistinct).2.1
  · exact fun other hother => hfresh.opened other (by simp [hother])

/-- The number of the first descriptor does not come again. -/
theorem Fresh.not_opened
    {metadata : Metadata} {events : List Metadata}
    (hfresh : Fresh (metadata :: events)) :
    metadata.descriptor ∉ openedFds events := by
  intro hmem
  have hdistinct := hfresh.distinct
  rw [openedFds_cons, if_pos (nonneg_of_mem_openedFds hmem)] at hdistinct
  exact (List.nodup_cons.mp hdistinct).1 hmem

theorem Fresh.not_pending
    {metadata : Metadata} {events : List Metadata}
    (hfresh : Fresh (metadata :: events)) :
    metadata.descriptor ∉ permissionFds events := by
  intro hmem
  obtain ⟨later, hlater, hsame⟩ := List.mem_map.mp hmem
  have hasks := List.mem_filter.mp hlater
  have hopen := hfresh.tail.opened later hasks.1 hasks.2
  apply hfresh.not_opened
  rw [← hsame]
  exact List.mem_filter.mpr
    ⟨List.mem_map.mpr ⟨later, hasks.1, rfl⟩, by simpa using hopen⟩

theorem Chats.group_eq
    {trace later : Trace} (hchats : Chats trace later) (system : System) :
    system.group later = system.group trace := by
  obtain ⟨chatter, hchatter, rfl⟩ := hchats
  exact system.group_quiet trace fun call hcall =>
    Call.quiet_of_isChatter (hchatter call hcall)

section Obliging

variable {system : System} (hobliging : system.Obliging)

include hobliging

/-- The descriptor of the first event is closed, if it has one. -/
theorem group_closeFirst
    {metadata : Metadata} {events : List Metadata}
    (hfresh : Fresh (metadata :: events)) {pending : List ℤ}
    {answers : List Answer} {trace : Trace}
    (hgroup : system.group trace =
      ⟨pending, openedFds (metadata :: events), answers⟩) :
    system.group (trace ++ [.close metadata.descriptor]) =
      ⟨pending, openedFds events, answers⟩ := by
  by_cases hopen : 0 ≤ metadata.descriptor
  · have hmem : metadata.descriptor ∈ (system.group trace).opened := by
      simp [hgroup, openedFds_cons, hopen]
    have hresult := hobliging.close trace metadata.descriptor hmem
    rw [system.group_close (Int.not_lt.mpr hresult) hgroup]
    simp [openedFds_cons, hopen]
  · have hclosed : metadata.descriptor ∉ (system.group trace).opened := by
      simpa [hgroup, openedFds_cons, hopen] using hfresh.not_opened
    rw [system.group_close_unopened hclosed, hgroup, openedFds_cons,
      if_neg hopen]
    rfl

/-- Who waits for the first event is answered; a response that nobody waits
for may fail or not. -/
theorem group_respondFirst
    {metadata : Metadata} {events : List Metadata}
    (hfresh : Fresh (metadata :: events)) {answers : List Answer}
    {trace : Trace}
    (hgroup : system.group trace =
      ⟨permissionFds (metadata :: events), openedFds events, answers⟩) :
    ∃ more, system.group
        (trace ++ [.respond metadata.descriptor fanAllow]) =
          ⟨permissionFds events, openedFds events, answers ++ more⟩ ∧
      more.filter Answer.awaited = repliesTo [metadata] := by
  have hopened := hfresh.not_opened
  have hpending := hfresh.not_pending
  by_cases hasks : metadata.asksPermission
  · have hmem : metadata.descriptor ∈ (system.group trace).pending := by
      simp [hgroup, permissionFds_cons, hasks]
    have hresult := hobliging.respond trace _ fanAllow hmem
    refine ⟨[⟨metadata.descriptor, fanAllow, true, false⟩], ?_, ?_⟩
    · rw [system.group_respond (Int.not_lt.mpr hresult) hgroup]
      simp [permissionFds_cons, hasks, hopened]
    · simp [hasks, repliesTo]
  · have hreplies : repliesTo [metadata] = [] := by
      simp [repliesTo, hasks]
    have hsame : permissionFds (metadata :: events) =
        permissionFds events := by
      simp [permissionFds_cons, hasks]
    rw [hsame] at hgroup
    by_cases hresult : system.result
        (trace ++ [.respond metadata.descriptor fanAllow]) < 0
    · refine ⟨[], ?_, by simp [hreplies]⟩
      rw [system.group_respond_failed hresult, hgroup, List.append_nil]
    · refine ⟨[⟨metadata.descriptor, fanAllow, false, false⟩], ?_,
        by simp [hreplies]⟩
      rw [system.group_respond hresult hgroup]
      simp [hpending, hopened, List.erase_of_not_mem]

end Obliging

def Round.Fresh (round : Round) : Prop := Tester.Fresh round.received

/-- The people who are still to be answered. -/
def StillToAnswer (system : System) (total : List Answer)
    (rounds : List Round) (events : List Metadata) (trace : Trace) : Prop :=
  (∀ round ∈ rounds, round.Fresh) ∧ Fresh events ∧
    ∃ answers, system.group trace =
        ⟨permissionFds events, openedFds events, answers⟩ ∧
      answers.filter Answer.awaited ++ repliesTo (events ++
        (rounds.takeWhile Round.goesOn).flatMap Round.received) = total

/-- Nobody waits, nothing is open, and the given answers were waited for. -/
def AllAnswered (system : System) (total : List Answer) (trace : Trace) :
    Prop :=
  ∃ answers, system.group trace = Group.idle answers ∧
    answers.filter Answer.awaited = total

theorem StillToAnswer.allAnswered
    {system : System} {total : List Answer} {rounds : List Round}
    {trace : Trace} (hstill : StillToAnswer system total rounds [] trace)
    (hnone : rounds.takeWhile Round.goesOn = []) :
    AllAnswered system total trace := by
  obtain ⟨_, _, answers, hgroup, htotal⟩ := hstill
  refine ⟨answers, hgroup, ?_⟩
  simpa [hnone, repliesTo] using htotal

theorem carries_stillToAnswer
    {system : System} (hobliging : system.Obliging) (total : List Answer) :
    Carries system (StillToAnswer system total)
      (fun ending => ending.Crashed ∨
        AllAnswered system total ending.trace) where
  chats := by
    rintro rounds events trace later hchats ⟨hrounds, hevents, hanswers⟩
    refine ⟨hrounds, hevents, ?_⟩
    rw [hchats.group_eq system]
    exact hanswers
  ends := by
    intro round rounds stop hends hstill
    exact Or.inr (hstill.allAnswered (List.takeWhile_cons_of_neg hends))
  reads := by
    rintro round rounds trace hgoesOn
      ⟨hrounds, _, answers, hgroup, htotal⟩
    have hround : round.Fresh := hrounds round (by simp)
    have hlater : ∀ later ∈ rounds, later.Fresh :=
      fun later hmem => hrounds later (by simp [hmem])
    rw [List.takeWhile_cons_of_pos hgoesOn, List.flatMap_cons,
      List.nil_append] at htotal
    unfold Round.Fresh Round.received at hround
    rw [Round.received] at htotal
    cases hevents : round.events with
    | none =>
        rw [hevents] at hround htotal
        exact ⟨hlater, hround, answers, hgroup, htotal⟩
    | some bytes =>
        rw [hevents] at hround htotal
        exact ⟨hlater, hround, answers, system.group_read hgroup _, htotal⟩
  handles := by
    rintro rounds metadata events trace
      ⟨hrounds, hfresh, answers, hgroup, htotal⟩
    obtain ⟨closing, printed, hclosing, hprinted, hhandle | hhandle⟩ :=
      handle_cases system metadata trace
    · have hclosed := group_closeFirst hobliging hfresh
        ((hclosing.group_eq system).trans hgroup)
      obtain ⟨more, hresponded, hmore⟩ := group_respondFirst hobliging hfresh
        ((hprinted.group_eq system).trans hclosed)
      refine Or.inl ⟨_, hhandle, hrounds, hfresh.tail, answers ++ more,
        hresponded, ?_⟩
      rw [← htotal, List.filter_append, hmore, List.cons_append,
        repliesTo_cons metadata (events ++ _), repliesTo_cons metadata []]
      simp [repliesTo]
    · exact Or.inr ⟨_, hhandle, Or.inl ⟨_, rfl⟩⟩

/-! ## The whole program -/

def initScript (paths : List Text) : List Call :=
  initCall :: paths.flatMap fun path => [addCall path, startedCall path]

theorem stillToCall_initScript (paths : List Text) (rounds : List Round) :
    StillToCall (seen (initScript paths) ++
      (rounds.takeWhile Round.goesOn).flatMap Round.script) rounds []
      (initScript paths) := by
  simp [StillToCall]

/-- The calls of an initialization that fails; a complaint may follow them. -/
def Refusal.After (refusal : Refusal) (calls : List Call) : Prop :=
  (∃ text, refusal = .returned (calls ++ [.complain text])) ∨
    refusal = .crashed calls

section Main

variable (system : System)

theorem performs_addMonitor (path : Text) :
    Performs id Refusal.After (fun trace => addMonitor system trace path)
      (fun trace => trace ++ [addCall path, startedCall path]) := by
  refine ⟨fun trace => List.prefix_append _ _, ?_⟩
  intro trace
  simp only [addMonitor]
  split
  · exact Or.inr ⟨_, trace ++ [addCall path], rfl, Or.inl ⟨_, rfl⟩,
      List.prefix_append _ _, by simp⟩
  · exact Or.inl (by simp)

theorem performs_addMonitors (paths : List Text) :
    Performs id Refusal.After
      (fun trace => paths.foldlM (addMonitor system) trace)
      (fun trace => trace ++
        paths.flatMap fun path => [addCall path, startedCall path]) := by
  induction paths with
  | nil => exact performs_ok.congr fun trace => (List.append_nil trace).symm
  | cons path paths ih =>
      simp only [List.foldlM_cons]
      refine ((performs_addMonitor system path).bind ih).congr ?_
      intro trace
      simp

theorem performs_initializeFanotify (paths : List Text) :
    Performs id Refusal.After (initializeFanotify system paths)
      (fun trace => trace ++ initScript paths) := by
  refine ⟨fun trace => List.prefix_append _ _, ?_⟩
  intro trace
  have hfront : trace ++ [initCall] <+: trace ++ initScript paths := by
    simp [initScript]
  simp only [initializeFanotify]
  split_ifs
  · exact Or.inr ⟨_, trace ++ [initCall], rfl, Or.inl ⟨_, rfl⟩,
      List.prefix_append _ _, hfront⟩
  · exact Or.inr ⟨_, trace ++ [initCall], rfl, Or.inr rfl,
      List.prefix_append _ _, hfront⟩
  · have hplan : trace ++ initScript paths = trace ++ [initCall] ++
        paths.flatMap fun path => [addCall path, startedCall path] := by
      simp [initScript]
    rw [hplan]
    rcases (performs_addMonitors system paths).follows (trace ++ [initCall])
      with hok | ⟨stop, front, hstop, hends, hfirst, hlast⟩
    · exact Or.inl hok
    · exact Or.inr ⟨stop, front, hstop, hends,
        (List.prefix_append trace [initCall]).trans hfirst, hlast⟩

/-- The program gets as far as the poll loop. -/
def setsUp (paths : List Text) (signalFd : ℤ) : Bool :=
  paths ≠ [] && 0 ≤ signalFd && (initializeFanotify system paths []).isOk

/-- The rounds the program goes through. -/
def handled (paths : List Text) (signalFd : ℤ) (rounds : List Round) :
    List Round :=
  if setsUp system paths signalFd then rounds.takeWhile Round.goesOn else []

/-- The program stops while it sets up its marks, or it comes to the poll
loop. -/
theorem main_cases
    (progname : Text) (paths : List Text) (signalFd : ℤ)
    (rounds : List Round) :
    (setsUp system paths signalFd = false ∧
      ((∃ trace front, main system progname paths signalFd rounds =
          .failure trace ∧ Chats front trace ∧ front <+: initScript paths) ∨
        ∃ trace, main system progname paths signalFd rounds =
          .crashed trace)) ∨
    (setsUp system paths signalFd ∧
      initializeFanotify system paths [] = .ok (initScript paths) ∧
      main system progname paths signalFd rounds =
        leave system paths signalFd
          (rounds.foldlM (pollRound system) (initScript paths))) := by
  by_cases hpaths : paths = []
  · refine Or.inl ⟨by simp [setsUp, hpaths], Or.inl ⟨_, [], if_pos hpaths,
      ?_, List.nil_prefix⟩⟩
    exact (Chats.refl []).concat _ rfl
  by_cases hsignal : signalFd < 0
  · refine Or.inl ⟨by simp [setsUp, hsignal], Or.inl ⟨_, [],
      (if_neg hpaths).trans (if_pos hsignal), ?_, List.nil_prefix⟩⟩
    exact (Chats.refl []).concat _ rfl
  rcases (performs_initializeFanotify system paths).follows [] with
    hok | ⟨stop, front, hstop, hends, _, hfront⟩
  · have hinit : initializeFanotify system paths [] =
        .ok (initScript paths) := hok
    refine Or.inr ⟨?_, hinit, ?_⟩
    · have hopen : 0 ≤ signalFd := by omega
      simp [setsUp, hpaths, hopen, hinit, Except.isOk, Except.toBool]
    · simp [main, hpaths, hsignal, hinit]
  · refine Or.inl ⟨by simp [setsUp, hstop, Except.isOk, Except.toBool], ?_⟩
    rcases hends with ⟨text, rfl⟩ | rfl
    · refine Or.inl ⟨front ++ [.complain text] ++
        [.complain "Couldn't initialize fanotify\n".toList], front,
        by simp [main, hpaths, hsignal, hstop],
        ((Chats.refl front).concat _ rfl).concat _ rfl, hfront⟩
    · exact Or.inr ⟨front, by simp [main, hpaths, hsignal, hstop]⟩

theorem quiet_of_mem_initScript
    {call : Call} {paths : List Text} (hmem : call ∈ initScript paths) :
    call.quiet := by
  rcases List.mem_cons.mp hmem with rfl | hmem
  · rfl
  · obtain ⟨path, _, hcall⟩ := List.mem_flatMap.mp hmem
    simp only [List.mem_cons, List.not_mem_nil, or_false] at hcall
    rcases hcall with rfl | rfl <;> rfl

theorem group_front
    {front : Trace} {paths : List Text} (hfront : front <+: initScript paths) :
    system.group front = Group.idle [] :=
  system.group_quiet [] fun _ hcall =>
    quiet_of_mem_initScript (hfront.subset hcall)

/-- The calls of a clean exit behind the poll loop. -/
def exitScript (paths : List Text) (signalFd : ℤ) : List Call :=
  paths.map removeCall ++ [.close (fanotifyFd system), .close signalFd,
    .print "Exiting fanotify example...\n".toList]

/-- The program is left with the calls of the poll loop, or with these and
those of a clean exit, unless it crashes. -/
theorem leave_cases
    {outcome : Except Ending Trace} {good : Trace → Prop}
    (houtcome : (∃ trace, outcome = .ok trace ∧ good trace) ∨
      ∃ stop, outcome = .error stop ∧ (stop.Crashed ∨ good stop.trace))
    (paths : List Text) (signalFd : ℤ) :
    (∃ trace, leave system paths signalFd outcome = .crashed trace) ∨
    ∃ trace, good trace ∧
      (leave system paths signalFd outcome = .running trace ∨
        leave system paths signalFd outcome = .failure trace ∨
        leave system paths signalFd outcome =
          .success (trace ++ exitScript system paths signalFd)) := by
  rcases houtcome with ⟨trace, rfl, hgood⟩ | ⟨stop, rfl, hstop⟩
  · exact Or.inr ⟨trace, hgood, Or.inl rfl⟩
  · rcases hstop with ⟨trace, rfl⟩ | hgood
    · exact Or.inl ⟨trace, rfl⟩
    · cases stop with
      | crashed trace => exact Or.inl ⟨trace, rfl⟩
      | exit trace => exact Or.inr ⟨trace, hgood, Or.inr (Or.inl rfl)⟩
      | broken trace =>
          refine Or.inr ⟨trace, hgood, Or.inr (Or.inr ?_)⟩
          simp [leave, shutdownFanotify, exitScript]

/-- They change nothing for a group that is idle. -/
theorem group_exitScript
    {trace : Trace} {answers : List Answer}
    (hgroup : system.group trace = Group.idle answers) (paths : List Text)
    (signalFd : ℤ) :
    system.group (trace ++ exitScript system paths signalFd) =
      Group.idle answers := by
  have hclose : ∀ {calls : Trace} (fd : ℤ),
      system.group calls = Group.idle answers →
      system.group (calls ++ [.close fd]) = Group.idle answers := by
    intro calls fd hidle
    rw [system.group_close_unopened (by simp [hidle, Group.idle]), hidle]
  have hremove : system.group (trace ++ paths.map removeCall) =
      Group.idle answers := by
    rw [system.group_quiet _ (by simp [removeCall, Call.quiet]), hgroup]
  have hlast := hclose signalFd (hclose (fanotifyFd system) hremove)
  have hsplit : trace ++ exitScript system paths signalFd =
      trace ++ paths.map removeCall ++ [.close (fanotifyFd system)] ++
        [.close signalFd] ++
        [.print "Exiting fanotify example...\n".toList] := by
    simp [exitScript]
  rw [hsplit, system.group_quiet _ (by simp [Call.quiet]), hlast]

theorem filter_isResponse_quiet
    {calls : List Call} (hquiet : ∀ call ∈ calls, call.quiet) :
    calls.filter Call.isResponse = [] := by
  rw [List.filter_eq_nil_iff]
  intro call hcall
  simp [Call.isResponse_of_quiet (hquiet call hcall)]

theorem filter_isResponse_seen (trace : Trace) :
    (seen trace).filter Call.isResponse = trace.filter Call.isResponse :=
  filter_seen (fun _ hchatter =>
    Call.isResponse_of_quiet (Call.quiet_of_isChatter hchatter)) trace

theorem filter_isResponse_scripts (rounds : List Round) :
    (rounds.flatMap Round.script).filter Call.isResponse =
      (rounds.flatMap Round.received).map fun metadata =>
        .respond metadata.descriptor fanAllow := by
  have hevents : ∀ events : List Metadata,
      (events.flatMap eventScript).filter Call.isResponse =
        events.map fun metadata =>
          .respond metadata.descriptor fanAllow := by
    intro events
    induction events with
    | nil => rfl
    | cons metadata events ih =>
        rw [List.flatMap_cons, List.filter_append, ih]
        rfl
  induction rounds with
  | nil => rfl
  | cons round rounds ih =>
      rw [List.flatMap_cons, List.filter_append, ih, List.flatMap_cons,
        List.map_append]
      congr 1
      unfold Round.script Round.received
      cases round.events with
      | none => rfl
      | some bytes => exact hevents (eventsIn bytes)

/-- What holds in front of the poll loop and at the end of it holds in every
run that does not crash, up to the calls of a clean exit. -/
theorem main_outcome
    (good : Trace → Prop) {progname : Text} {paths : List Text}
    {signalFd : ℤ} {rounds : List Round}
    (hmalloc : ∀ trace,
      main system progname paths signalFd rounds ≠ .crashed trace)
    (hfront : setsUp system paths signalFd = false →
      ∀ {front trace}, front <+: initScript paths → Chats front trace →
        good trace)
    (hloop : setsUp system paths signalFd →
      (∃ trace, rounds.foldlM (pollRound system) (initScript paths) =
          .ok trace ∧ good trace) ∨
        ∃ stop, rounds.foldlM (pollRound system) (initScript paths) =
          .error stop ∧ (stop.Crashed ∨ good stop.trace)) :
    ∃ trace, good trace ∧
      ((main system progname paths signalFd rounds).trace = trace ∨
        (main system progname paths signalFd rounds).trace =
          trace ++ exitScript system paths signalFd) := by
  rcases main_cases system progname paths signalFd rounds with
    ⟨hsets, ⟨trace, front, hmain, hchats, hbegun⟩ | ⟨trace, hmain⟩⟩ |
      ⟨hsets, _, hmain⟩
  · exact ⟨trace, hfront hsets hbegun hchats, Or.inl (by rw [hmain]; rfl)⟩
  · exact absurd hmain (hmalloc trace)
  · rcases leave_cases system (hloop hsets) paths signalFd with
      ⟨trace, hleave⟩ | ⟨trace, hgood, hleave | hleave | hleave⟩
    · exact absurd (hmain.trans hleave) (hmalloc trace)
    · exact ⟨trace, hgood, Or.inl (by rw [hmain, hleave]; rfl)⟩
    · exact ⟨trace, hgood, Or.inl (by rw [hmain, hleave]; rfl)⟩
    · exact ⟨trace, hgood, Or.inr (by rw [hmain, hleave]; rfl)⟩

theorem handled_of_not_setsUp
    {paths : List Text} {signalFd : ℤ}
    (hsets : setsUp system paths signalFd = false) (rounds : List Round) :
    handled system paths signalFd rounds = [] := by
  simp [handled, hsets]

theorem handled_of_setsUp
    {paths : List Text} {signalFd : ℤ}
    (hsets : setsUp system paths signalFd) (rounds : List Round) :
    handled system paths signalFd rounds = rounds.takeWhile Round.goesOn :=
  if_pos hsets

/-- One response for every event, whatever the kernel makes of it. -/
def Responded (events : List Metadata) (trace : Trace) : Prop :=
  trace.filter Call.isResponse =
    events.map fun metadata => .respond metadata.descriptor fanAllow

theorem AllCalled.responded
    {paths : List Text} {rounds : List Round} {trace : Trace}
    (hcalled : AllCalled (seen (initScript paths) ++
      rounds.flatMap Round.script) trace) :
    Responded (rounds.flatMap Round.received) trace := by
  have hinit : (seen (initScript paths)).filter Call.isResponse = [] := by
    rw [filter_isResponse_seen]
    exact filter_isResponse_quiet fun _ => quiet_of_mem_initScript
  rw [Responded, ← filter_isResponse_seen, hcalled, List.filter_append,
    hinit, filter_isResponse_scripts, List.nil_append]

theorem main_responded
    {progname : Text} {paths : List Text} {signalFd : ℤ}
    {rounds : List Round}
    (hmalloc : ∀ trace,
      main system progname paths signalFd rounds ≠ .crashed trace) :
    Responded ((handled system paths signalFd rounds).flatMap Round.received)
      (main system progname paths signalFd rounds).trace := by
  obtain ⟨trace, hresponded, hmain⟩ := main_outcome system (Responded
    ((handled system paths signalFd rounds).flatMap Round.received)) hmalloc
    (by
      intro hsets front trace hfront hchats
      rw [handled_of_not_setsUp system hsets, Responded,
        ← filter_isResponse_seen, hchats.seen_eq, filter_isResponse_seen]
      exact filter_isResponse_quiet fun _ hcall =>
        quiet_of_mem_initScript (hfront.subset hcall))
    (by
      intro hsets
      rw [handled_of_setsUp system hsets]
      have hcarries := carries_stillToCall system (seen (initScript paths) ++
        (rounds.takeWhile Round.goesOn).flatMap Round.script)
      refine (hcarries.outcome (fun _ hstill => hstill.allCalled rfl)
        (stillToCall_initScript paths rounds)).imp ?_ ?_
      · rintro ⟨trace, hok, hcalled⟩
        exact ⟨trace, hok, hcalled.responded⟩
      · rintro ⟨stop, hstop, hcrashed | hcalled⟩
        · exact ⟨stop, hstop, Or.inl hcrashed⟩
        · exact ⟨stop, hstop, Or.inr hcalled.responded⟩)
  rcases hmain with hmain | hmain
  · rw [hmain]
    exact hresponded
  · have hexit : (exitScript system paths signalFd).filter
        Call.isResponse = [] := by
      simp [exitScript, removeCall, Call.isResponse]
    rw [hmain, Responded, List.filter_append, hexit, List.append_nil]
    exact hresponded

theorem main_allAnswered
    (hobliging : system.Obliging) {progname : Text} {paths : List Text}
    {signalFd : ℤ} {rounds : List Round}
    (hfresh : ∀ round ∈ rounds, round.Fresh)
    (hmalloc : ∀ trace,
      main system progname paths signalFd rounds ≠ .crashed trace) :
    AllAnswered system (repliesTo
      ((handled system paths signalFd rounds).flatMap Round.received))
      (main system progname paths signalFd rounds).trace := by
  obtain ⟨trace, ⟨answers, hgroup, hawaited⟩, hmain⟩ := main_outcome system
    (AllAnswered system (repliesTo
      ((handled system paths signalFd rounds).flatMap Round.received)))
    hmalloc
    (by
      intro hsets front trace hfront hchats
      rw [handled_of_not_setsUp system hsets]
      exact ⟨[], (hchats.group_eq system).trans (group_front system hfront),
        rfl⟩)
    (by
      intro hsets
      rw [handled_of_setsUp system hsets]
      exact (carries_stillToAnswer hobliging _).outcome
        (fun _ hstill => hstill.allAnswered rfl)
        ⟨hfresh, ⟨List.nodup_nil, by simp⟩, [],
          group_front system (List.prefix_refl _), rfl⟩)
  rcases hmain with hmain | hmain
  · rw [hmain]
    exact ⟨answers, hgroup, hawaited⟩
  · rw [hmain]
    exact ⟨answers, group_exitScript system hgroup paths signalFd, hawaited⟩

/-- However the program ends, or however far it has come, it has written one
response for every event of the rounds it went through.  If the kernel takes
the responses that it waits for and closes what is open, and a read hands out
different descriptors, one to each event that asks, then nobody is left waiting
and no descriptor is left open, and who waited was answered once, behind the
close. -/
theorem main_idle
    (progname : Text) (paths : List Text) (signalFd : ℤ)
    (rounds : List Round)
    (hmalloc : ∀ trace,
      main system progname paths signalFd rounds ≠ .crashed trace) :
    let trace := (main system progname paths signalFd rounds).trace
    let events :=
      (handled system paths signalFd rounds).flatMap Round.received
    (trace.filter Call.isResponse =
      events.map fun metadata => .respond metadata.descriptor fanAllow) ∧
    (system.Obliging → (∀ round ∈ rounds, round.Fresh) →
      ∃ answers, system.group trace = Group.idle answers ∧
        answers.filter Answer.awaited =
          (events.filter Metadata.asksPermission).map fun metadata =>
            ⟨metadata.descriptor, fanAllow, true, false⟩) :=
  ⟨main_responded system hmalloc, fun hobliging hfresh =>
    main_allAnswered system hobliging hfresh hmalloc⟩

end Main

theorem fresh_twoEvents :
    ∀ round ∈ [⟨false, none, some twoEvents⟩, ⟨false, some (some 2), none⟩],
      Round.Fresh round := by
  intro round hround
  rcases List.mem_cons.mp hround with rfl | hround
  · exact ⟨by decide +kernel, by decide +kernel⟩
  · rw [List.mem_singleton.mp hround]
    exact ⟨by decide, by decide⟩

/-- The kernel refuses the second response, which nobody waits for. -/
theorem main_idle_twoEvents :
    (∃ answers, keepingSystem.group (main keepingSystem [] [['/']] 4
        [⟨false, none, some twoEvents⟩,
          ⟨false, some (some 2), none⟩]).trace = Group.idle answers ∧
      answers.filter Answer.awaited = [⟨5, fanAllow, true, false⟩]) ∧
    (main keepingSystem [] [['/']] 4 [⟨false, none, some twoEvents⟩,
        ⟨false, some (some 2), none⟩]).trace.filter Call.isResponse =
      [.respond 5 fanAllow, .respond 6 fanAllow] := by
  have hmalloc : (match main keepingSystem [] [['/']] 4
      [⟨false, none, some twoEvents⟩, ⟨false, some (some 2), none⟩] with
      | .crashed _ => false
      | _ => true) = true := by decide +kernel
  have hidle := main_idle keepingSystem [] [['/']] 4
    [⟨false, none, some twoEvents⟩, ⟨false, some (some 2), none⟩] (by
      intro trace hcrashed
      rw [hcrashed] at hmalloc
      cases hmalloc)
  have hevents : (handled keepingSystem [['/']] 4
      [⟨false, none, some twoEvents⟩,
        ⟨false, some (some 2), none⟩]).flatMap Round.received =
      [⟨24, 3, 0x10000, 5, 100⟩, ⟨24, 3, 0x8, 6, 100⟩] := by
    decide +kernel
  simp only [hevents] at hidle
  exact ⟨hidle.2 obliging_keepingSystem fresh_twoEvents, hidle.1⟩

end LinuxKernelCode.Fanotify.Tester
