import LinuxKernelCode.DecimalText
import LinuxKernelCode.FanotifyEvents

/-!
# The fanotify listener

The event loop of `fanotify.c`.  For every event the listener looks up the path
behind the descriptor, prints what happened, answers if permission is asked
for, and closes the descriptor.  Any call that fails ends the program on the
spot.

The results of the calls are not known here; they come from a system that may
look at everything that was called so far.  Whatever they are, the listener
makes the calls of one plan, in which each event has its script, and a listener
that is stopped has made the first of them.
-/

namespace LinuxKernelCode.Fanotify

open LinuxKernelCode.DecimalText
open LinuxKernelCode.RecordStream
open LinuxKernelCode.Scripted

namespace Listener

structure Options where
  optFast : Bool
  optIgnorePerm : Bool
  optSleep : ℤ
  deriving DecidableEq, Repr

/-- The calls made so far, and the array `path`, which has no contents at the
beginning of a read. -/
structure State where
  trace : List Call
  path : Option Text
  deriving DecidableEq, Repr

/-- The program ends at the label `fail`, or reads an array without contents. -/
inductive Stop where
  | fail (trace : List Call)
  | indeterminate (trace : List Call)
  deriving DecidableEq, Repr

def Stop.trace : Stop → List Call
  | .fail trace => trace
  | .indeterminate trace => trace

def State.call (state : State) (call : Call) : State :=
  { state with trace := state.trace ++ [call] }

def specialPaths : List Text :=
  ["/var/log/audit/audit.log".toList, "/var/log/messages".toList,
    "/var/log/wtmp".toList, "/var/run/utmp".toList]

/-- `set_special_ignored`: its result is not looked at. -/
def setSpecialIgnored (state : State) (fd : ℤ) (path : Text) : State :=
  if path ∈ specialPaths then
    state.call (.fanotifyMark
      (markAdd ||| markIgnoredMask ||| markIgnoredSurvModify)
      (fanAllEvents ||| fanAllPermEvents) fd none)
  else state

section Handling

variable (system : System) (options : Options)

/-- `set_ignored_mask`, and the jump to `fail` if it gives no zero. -/
def setIgnoredMask (state : State) (fd : ℤ) (mask : Mask) :
    Except Stop State :=
  let state := state.call
    (.fanotifyMark (markAdd ||| markIgnoredMask) mask fd none)
  if system.result state.trace ≠ 0 then .error (.fail state.trace)
  else .ok state

def checkVersion (metadata : Metadata) (state : State) :
    Except Stop State :=
  if metadata.vers.toNat < 2 then
    .error (.fail (state.trace ++
      [.complain "Kernel fanotify version too old\n".toList]))
  else .ok state

def ignoreFast (metadata : Metadata) (state : State) : Except Stop State :=
  if 0 ≤ metadata.descriptor ∧ options.optFast then
    setIgnoredMask system state metadata.descriptor
      (fanAllEvents ||| fanAllPermEvents)
  else .ok state

def readPath (metadata : Metadata) (state : State) : Except Stop State :=
  if 0 ≤ metadata.descriptor then
    let state := state.call (.readlink metadata.descriptor)
    if system.result state.trace < 0 then .error (.fail state.trace)
    else
      let path := system.link state.trace
      .ok ({ state with path := some path }.call (.print (path ++ [':'])))
  else .ok (state.call (.print ['?', ':']))

/-- The comparison in `set_special_ignored` reads the array, also for an event
without a descriptor. -/
def ignoreSpecial (metadata : Metadata) (state : State) :
    Except Stop State :=
  match state.path with
  | some path => .ok (setSpecialIgnored state metadata.descriptor path)
  | none => .error (.indeterminate state.trace)

def description (metadata : Metadata) : Text :=
  " pid=".toList ++ decimal metadata.pid.toInt ++
  (if has metadata.mask fanAccess then " access".toList else []) ++
  (if has metadata.mask fanOpen then " open".toList else []) ++
  (if has metadata.mask fanModify then " modify".toList else []) ++
  (if has metadata.mask fanClose then
    (if has metadata.mask fanCloseWrite then " close(writable)".toList
      else []) ++
    (if has metadata.mask fanCloseNowrite then " close".toList else [])
  else []) ++
  (if has metadata.mask fanOpenPerm then " open_perm".toList else []) ++
  (if has metadata.mask fanAccessPerm then " access_perm".toList else [])

def describe (metadata : Metadata) (state : State) : Except Stop State :=
  .ok (state.call (.print (description metadata)))

/-- `handle_perm`, and the jump to `fail` if the write fails. -/
def handlePerm (metadata : Metadata) (state : State) : Except Stop State :=
  let state := state.call (.respond metadata.descriptor fanAllow)
  if system.result state.trace < 0 then .error (.fail state.trace)
  else .ok state

def ignorePerm (metadata : Metadata) (state : State) : Except Stop State :=
  if 0 ≤ metadata.descriptor ∧ options.optIgnorePerm then
    setIgnoredMask system state metadata.descriptor metadata.mask
  else .ok state

def pause (metadata : Metadata) (state : State) : Except Stop State :=
  if metadata.asksPermission ∧ options.optSleep ≠ 0 then
    .ok (state.call (.sleep options.optSleep))
  else .ok state

def answer (metadata : Metadata) (state : State) : Except Stop State :=
  if metadata.asksPermission then do
    let state ← handlePerm system metadata state
    ignorePerm system options metadata state
  else .ok state

def closeDescriptor (metadata : Metadata) (state : State) :
    Except Stop State :=
  let state := state.call (.print [newline])
  if 0 ≤ metadata.descriptor then
    let state := state.call (.close metadata.descriptor)
    if system.result state.trace ≠ 0 then .error (.fail state.trace)
    else .ok state
  else .ok state

/-- The body of the loop over a buffer. -/
def handle (state : State) (metadata : Metadata) : Except Stop State := do
  let state ← checkVersion metadata state
  let state ← ignoreFast system options metadata state
  let state ← readPath system metadata state
  let state ← ignoreSpecial metadata state
  let state ← describe metadata state
  let state ← pause options metadata state
  let state ← answer system options metadata state
  closeDescriptor system metadata state

/-- `while (select(...) < 0) if (errno != EINTR) goto fail` -/
def select (state : State) : Except Stop State :=
  if system.selectFails state.trace then .error (.fail state.trace)
  else .ok state

def processRead (state : State) (bytes : List Byte) : Except Stop State := do
  let state : State := ⟨state.trace ++ [.read (eventsIn bytes)], none⟩
  let state ← eventLoop (handle system options) bytes.length bytes state
  select system state

/-- The loop over the reads that gave something. -/
def listen (reads : List (List Byte)) (state : State) :
    Except Stop State := do
  let state ← select system state
  reads.foldlM (processRead system options) state

end Handling

/-! ## What the listener sets out to do -/

/-- The calls of a listener that is stopped; a complaint may follow them. -/
def Stop.After (stop : Stop) (calls : List Call) : Prop :=
  stop.trace = calls ∨ stop.trace = calls ++
    [.complain "Kernel fanotify version too old\n".toList]

def State.calls (state : State) (calls : List Call) : State :=
  { state with trace := state.trace ++ calls }

def fastScript (options : Options) (metadata : Metadata) : List Call :=
  if 0 ≤ metadata.descriptor ∧ options.optFast then
    [.fanotifyMark (markAdd ||| markIgnoredMask)
      (fanAllEvents ||| fanAllPermEvents) metadata.descriptor none]
  else []

def specialScript (metadata : Metadata) (path : Text) : List Call :=
  if path ∈ specialPaths then
    [.fanotifyMark (markAdd ||| markIgnoredMask ||| markIgnoredSurvModify)
      (fanAllEvents ||| fanAllPermEvents) metadata.descriptor none]
  else []

def pauseScript (options : Options) (metadata : Metadata) : List Call :=
  if metadata.asksPermission ∧ options.optSleep ≠ 0 then
    [.sleep options.optSleep]
  else []

def answerScript (options : Options) (metadata : Metadata) : List Call :=
  if metadata.asksPermission then
    .respond metadata.descriptor fanAllow ::
      if 0 ≤ metadata.descriptor ∧ options.optIgnorePerm then
        [.fanotifyMark (markAdd ||| markIgnoredMask) metadata.mask
          metadata.descriptor none]
      else []
  else []

/-- All the calls about one event, for the path that the array then holds. -/
def eventScript (options : Options) (metadata : Metadata) (path : Text) :
    List Call :=
  fastScript options metadata ++
  (if 0 ≤ metadata.descriptor then
    [.readlink metadata.descriptor, .print (path ++ [':'])]
  else [.print ['?', ':']]) ++
  specialScript metadata path ++
  [.print (description metadata)] ++
  pauseScript options metadata ++
  answerScript options metadata ++
  [.print [newline]] ++
  if 0 ≤ metadata.descriptor then [.close metadata.descriptor] else []

section Plan

variable (system : System) (options : Options)

end Plan

@[simp] theorem State.calls_trace (state : State) (calls : List Call) :
    (state.calls calls).trace = state.trace ++ calls := rfl

@[simp] theorem State.calls_path (state : State) (calls : List Call) :
    (state.calls calls).path = state.path := rfl

section Performing

variable (system : System) (options : Options) (metadata : Metadata)

theorem processRead_eq (state : State) (bytes : List Byte) :
    processRead system options state bytes =
      (eventsIn bytes).foldlM (handle system options)
        ⟨state.trace ++ [.read (eventsIn bytes)], none⟩ >>=
          select system := by
  simp only [processRead, eventLoop_eq]
  rfl

end Performing

/-! ## The other side of the conversation -/

/-- One response to every event that asks for permission, given while the
descriptor of the event, if it has one, is still open. -/
def answersTo (events : List Metadata) : List Answer :=
  (events.filter Metadata.asksPermission).map fun metadata =>
    ⟨metadata.descriptor, fanAllow, true, 0 ≤ metadata.descriptor⟩

section Group

variable (system : System) (total : List Answer)

def InGroup (group : Group) (state : State) : Prop :=
  system.group state.trace = group

/-- A stopped listener has given the first of the answers. -/
def Answered (stop : Stop) : Prop :=
  (system.group stop.trace).answers <+: total

variable {system total}

variable (options : Options) (metadata : Metadata) (events : List Metadata)

/-- The events that are still to be handled, and those of later reads. -/
def Waiting (system : System) (total : List Answer) (later : List Metadata)
    (events : List Metadata) (state : State) : Prop :=
  ∃ answers, answers ++ answersTo (events ++ later) = total ∧
    InGroup system ⟨permissionFds events, openedFds events, answers⟩ state

end Group

/-! ## The array that holds the path -/

def HasPath (state : State) : Prop := state.path.isSome

def Fails (stop : Stop) : Prop := ∃ trace, stop = .fail trace

/-- A step that neither fills nor loses the array, nor reads it. -/
def KeepsPath (step : State → Except Stop State) : Prop :=
  ∀ path, Leads (fun state => state.path = path)
    (fun state => state.path = path) Fails step

theorem KeepsPath.leads
    {step : State → Except Stop State} (hkeeps : KeepsPath step)
    (condition : Option Text → Prop) :
    Leads (fun state => condition state.path)
      (fun state => condition state.path) Fails step := by
  intro state hbefore
  rcases hkeeps state.path state rfl with
    ⟨next, hnext, heq⟩ | ⟨stop, hstop, hfails⟩
  · refine Or.inl ⟨next, hnext, ?_⟩
    show condition next.path
    rw [heq]
    exact hbefore
  · exact Or.inr ⟨stop, hstop, hfails⟩

theorem KeepsPath.hasPath
    {step : State → Except Stop State} (hkeeps : KeepsPath step) :
    Leads HasPath HasPath Fails step :=
  hkeeps.leads fun path => path.isSome

section Path

variable (system : System) (options : Options) (metadata : Metadata)

theorem keepsPath_setIgnoredMask (fd : ℤ) (mask : Mask) :
    KeepsPath (fun state => setIgnoredMask system state fd mask) := by
  intro path state hpath
  simp only [setIgnoredMask]
  split
  · exact Or.inr ⟨_, rfl, _, rfl⟩
  · exact Or.inl ⟨_, rfl, hpath⟩

theorem keepsPath_checkVersion : KeepsPath (checkVersion metadata) := by
  intro path state hpath
  simp only [checkVersion]
  split
  · exact Or.inr ⟨_, rfl, _, rfl⟩
  · exact Or.inl ⟨_, rfl, hpath⟩

theorem keepsPath_ignoreFast :
    KeepsPath (ignoreFast system options metadata) := by
  intro path state hpath
  simp only [ignoreFast]
  split
  · exact keepsPath_setIgnoredMask system _ _ path state hpath
  · exact Or.inl ⟨_, rfl, hpath⟩

theorem keepsPath_describe : KeepsPath (describe metadata) := by
  intro path state hpath
  exact Or.inl ⟨_, rfl, hpath⟩

theorem keepsPath_pause : KeepsPath (pause options metadata) := by
  intro path state hpath
  simp only [pause]
  split <;> exact Or.inl ⟨_, rfl, hpath⟩

theorem keepsPath_handlePerm : KeepsPath (handlePerm system metadata) := by
  intro path state hpath
  simp only [handlePerm]
  split
  · exact Or.inr ⟨_, rfl, _, rfl⟩
  · exact Or.inl ⟨_, rfl, hpath⟩

theorem keepsPath_ignorePerm :
    KeepsPath (ignorePerm system options metadata) := by
  intro path state hpath
  simp only [ignorePerm]
  split
  · exact keepsPath_setIgnoredMask system _ _ path state hpath
  · exact Or.inl ⟨_, rfl, hpath⟩

theorem keepsPath_answer : KeepsPath (answer system options metadata) := by
  intro path state hpath
  simp only [answer]
  split
  · exact (keepsPath_handlePerm system metadata path).bind
      (keepsPath_ignorePerm system options metadata path) state hpath
  · exact Or.inl ⟨_, rfl, hpath⟩

theorem keepsPath_closeDescriptor :
    KeepsPath (closeDescriptor system metadata) := by
  intro path state hpath
  simp only [closeDescriptor]
  split
  · split
    · exact Or.inr ⟨_, rfl, _, rfl⟩
    · exact Or.inl ⟨_, rfl, hpath⟩
  · exact Or.inl ⟨_, rfl, hpath⟩

theorem keepsPath_select : KeepsPath (select system) := by
  intro path state hpath
  simp only [select]
  split
  · exact Or.inr ⟨_, rfl, _, rfl⟩
  · exact Or.inl ⟨_, rfl, hpath⟩

/-- The array is filled if it was, or if the event has a descriptor. -/
theorem leads_readPath :
    Leads (fun state => HasPath state ∨ 0 ≤ metadata.descriptor) HasPath
      Fails (readPath system metadata) := by
  intro state hbefore
  simp only [readPath]
  split
  · split
    · exact Or.inr ⟨_, rfl, _, rfl⟩
    · exact Or.inl ⟨_, rfl, rfl⟩
  · rename_i hclosed
    exact Or.inl ⟨_, rfl, hbefore.resolve_right hclosed⟩

theorem leads_ignoreSpecial :
    Leads HasPath HasPath Fails (ignoreSpecial metadata) := by
  intro state hpath
  obtain ⟨path, heq⟩ := Option.isSome_iff_exists.mp hpath
  simp only [ignoreSpecial, heq]
  refine Or.inl ⟨_, rfl, ?_⟩
  simp only [setSpecialIgnored]
  split <;> exact hpath

theorem leads_handle :
    Leads (fun state => HasPath state ∨ 0 ≤ metadata.descriptor) HasPath
      Fails (fun state => handle system options state metadata) :=
  let filled := fun path : Option Text =>
    path.isSome ∨ 0 ≤ metadata.descriptor
  ((keepsPath_checkVersion metadata).leads filled).bind <|
    ((keepsPath_ignoreFast system options metadata).leads filled).bind <|
    (leads_readPath system metadata).bind <|
    (leads_ignoreSpecial metadata).bind <|
    (keepsPath_describe metadata).hasPath.bind <|
    (keepsPath_pause options metadata).hasPath.bind <|
    (keepsPath_answer system options metadata).hasPath.bind
      (keepsPath_closeDescriptor system metadata).hasPath

/-- An event without a descriptor at the front of a read. -/
theorem handle_indeterminate
    (hvers : 2 ≤ metadata.vers.toNat) (hclosed : metadata.descriptor < 0)
    {state : State} (hpath : state.path = none) :
    ∃ trace, handle system options state metadata =
      .error (.indeterminate trace) := by
  have hversion : ¬ metadata.vers.toNat < 2 := by omega
  have hfd : ¬ 0 ≤ metadata.descriptor := by omega
  refine ⟨state.trace ++ [.print ['?', ':']], ?_⟩
  simp [handle, checkVersion, ignoreFast, readPath, ignoreSpecial,
    State.call, hversion, hfd, hpath, bind, Except.bind]

theorem handle_old
    (hvers : metadata.vers.toNat < 2) (state : State) :
    ∃ stop, handle system options state metadata = .error stop ∧
      Fails stop := by
  refine ⟨.fail (state.trace ++
    [.complain "Kernel fanotify version too old\n".toList]), ?_, _, rfl⟩
  simp [handle, checkVersion, hvers, bind, Except.bind]

/-- An event at the front of a read finds the array without contents. -/
def StartsBare (events : List Metadata) : Prop :=
  ∃ first others, events = first :: others ∧ first.descriptor < 0 ∧
    2 ≤ first.vers.toNat

/-- A first event with a descriptor fills the array for the others, and one of
an old version stops the listener at the label. -/
theorem leads_foldlM_handle
    {events : List Metadata} (hbare : ¬ StartsBare events) :
    Leads (fun state => state.path = none) (fun _ => True) Fails
      (fun state => events.foldlM (handle system options) state) := by
  cases events with
  | nil =>
      intro state _
      exact Or.inl ⟨state, rfl, trivial⟩
  | cons first others =>
      by_cases hvers : first.vers.toNat < 2
      · intro state _
        obtain ⟨stop, hstop, hfails⟩ :=
          handle_old system options first hvers state
        refine Or.inr ⟨stop, ?_, hfails⟩
        simp only [List.foldlM_cons, hstop]
        rfl
      · have hopen : 0 ≤ first.descriptor := by
          by_contra hclosed
          exact hbare ⟨first, others, rfl, by omega, by omega⟩
        have hleads := (leads_handle system options first).bind <|
          Leads.foldlM (fun _ => HasPath) (fun metadata _ =>
            (leads_handle system options metadata).mono
              (fun _ hpath => Or.inl hpath) (fun _ hpath => hpath)) others
        simp only [List.foldlM_cons]
        exact hleads.mono (fun _ _ => Or.inr hopen) (fun _ _ => trivial)

theorem leads_processRead
    {bytes : List Byte} (hbare : ¬ StartsBare (eventsIn bytes)) :
    Leads (fun _ => True) (fun _ => True) Fails
      (fun state => processRead system options state bytes) := by
  intro state _
  have hleads := (leads_foldlM_handle system options hbare).bind
    ((keepsPath_select system).leads fun _ => True)
  simp only [processRead_eq]
  exact hleads _ rfl

theorem processRead_indeterminate
    {bytes : List Byte} (hbare : StartsBare (eventsIn bytes))
    (state : State) :
    ∃ trace, processRead system options state bytes =
      .error (.indeterminate trace) := by
  obtain ⟨first, others, hevents, hclosed, hvers⟩ := hbare
  obtain ⟨trace, hhandle⟩ := handle_indeterminate system options first hvers
    hclosed (show State.path ⟨state.trace ++ [.read (eventsIn bytes)], none⟩ =
      none from rfl)
  refine ⟨trace, ?_⟩
  rw [processRead_eq]
  simp only [hevents, List.foldlM_cons] at hhandle ⊢
  rw [hhandle]
  rfl

end Path

/-- The array is read without contents exactly when a read starts with an
event that has no descriptor, after reads that went through. -/
theorem listen_indeterminate_iff
    (system : System) (options : Options) (reads : List (List Byte))
    (state : State) :
    (∃ trace, listen system options reads state =
      .error (.indeterminate trace)) ↔
    ∃ done bytes rest, reads = done ++ bytes :: rest ∧
      (∃ next, listen system options done state = .ok next) ∧
      ∃ first others, eventsIn bytes = first :: others ∧
        first.descriptor < 0 ∧ 2 ≤ first.vers.toNat := by
  have hselect := (keepsPath_select system) state.path state rfl
  rcases hselect with ⟨begun, hbegun, _⟩ | ⟨stop, hstop, hfails⟩
  · have hlisten : ∀ reads, listen system options reads state =
        reads.foldlM (processRead system options) begun := by
      intro reads
      simp only [listen, hbegun]
      rfl
    simp only [hlisten]
    constructor
    · rintro ⟨trace, hfold⟩
      obtain ⟨done, bytes, rest, next, hreads, hdone, hread⟩ :=
        foldlM_eq_error_iff.mp hfold
      refine ⟨done, bytes, rest, hreads, ⟨next, hdone⟩, ?_⟩
      by_contra hbare
      obtain ⟨other, hother⟩ :=
        (leads_processRead system options hbare).stop trivial hread
      cases hother
    · rintro ⟨done, bytes, rest, hreads, ⟨next, hdone⟩, hbare⟩
      obtain ⟨trace, hread⟩ :=
        processRead_indeterminate system options hbare next
      exact ⟨trace, foldlM_eq_error_iff.mpr
        ⟨done, bytes, rest, next, hreads, hdone, hread⟩⟩
  · have hlisten : ∀ reads, listen system options reads state =
        .error stop := by
      intro reads
      simp only [listen, hstop]
      rfl
    obtain ⟨other, rfl⟩ := hfails
    simp [hlisten]

/-- The record of a queue that ran over: it comes without a descriptor. -/
def overflowEvent : List Byte :=
  toBytes 4 24 ++ toBytes 4 3 ++ toBytes 8 0x4000 ++
    toBytes 4 (2 ^ 32 - 1) ++ toBytes 4 0

/-- It is read at the front of the second read. -/
theorem listen_indeterminate_overflow :
    ∃ trace, listen keepingSystem ⟨false, true, 0⟩ [twoEvents, overflowEvent]
      ⟨[], none⟩ = .error (.indeterminate trace) := by
  refine (listen_indeterminate_iff keepingSystem ⟨false, true, 0⟩
    [twoEvents, overflowEvent] ⟨[], none⟩).mpr
      ⟨[twoEvents], overflowEvent, [], rfl, ?_, ?_⟩
  · have hdone : (listen keepingSystem ⟨false, true, 0⟩ [twoEvents]
        ⟨[], none⟩).isOk := by decide +kernel
    cases hlisten : listen keepingSystem ⟨false, true, 0⟩ [twoEvents]
        ⟨[], none⟩ with
    | ok next => exact ⟨next, rfl⟩
    | error stop =>
        rw [hlisten] at hdone
        cases hdone
  · exact ⟨⟨24, 3, 0x4000, 0xffffffff, 0⟩, [], by decide +kernel,
      by decide +kernel, by decide +kernel⟩

end Listener

end LinuxKernelCode.Fanotify
