import LinuxKernelCode.FanotifyTester

/-!
# The marks of the fanotify tester

`initialize_fanotify` sets a mark on the mount that each directory lies on, and
`shutdown_fanotify` removes the marks with the same mask, but without the flag
that says that they are marks of mounts.

How a kernel keeps its marks is not known here.  It is enough that a call
without `FAN_MARK_MOUNT` leaves the marks of mounts alone and that an addition
takes nothing away: then every one of the marks is still there when the
descriptor of the group is closed.
-/

namespace LinuxKernelCode.Fanotify.Tester

open LinuxKernelCode.Scripted

/-- A kernel's table of marks: what a call of `fanotify_mark` with its result
makes of it, and the mask of the mark on the mount that a path lies on. -/
structure MarkTable (σ : Type) where
  mark : σ → BitVec 32 → Mask → ℤ → Option Text → ℤ → σ
  mountMask : σ → Text → Mask

/-- What is relied on: a call without `FAN_MARK_MOUNT` is about no mount, and
an addition to the mark of a mount adds the bits and takes none away. -/
structure MarkTable.Documented {σ : Type} (kernel : MarkTable σ) : Prop where
  apart : ∀ table flags mask dfd path result mount, flags &&& markMount = 0 →
    kernel.mountMask (kernel.mark table flags mask dfd path result) mount =
      kernel.mountMask table mount
  added : ∀ table mask dfd path result, 0 ≤ result →
    kernel.mountMask (kernel.mark table (markAdd ||| markMount) mask dfd
      (some path) result) path = kernel.mountMask table path ||| mask
  kept : ∀ table mask dfd path result mount,
    kernel.mountMask table mount &&& kernel.mountMask
      (kernel.mark table (markAdd ||| markMount) mask dfd path result) mount =
        kernel.mountMask table mount

section Marks

variable {σ : Type} (kernel : MarkTable σ) (system : System)

def MarkTable.observe (before : List Call) (table : σ) (call : Call) : σ :=
  match call with
  | .fanotifyMark flags mask dfd path =>
      kernel.mark table flags mask dfd path
        (system.result (before ++ [call]))
  | _ => table

/-- The table after the given calls, with what the system made of each. -/
def MarkTable.after (initial : σ) (trace : Trace) : σ :=
  account (kernel.observe system) [] initial trace

theorem MarkTable.after_concat (initial : σ) (trace : Trace) (call : Call) :
    kernel.after system initial (trace ++ [call]) =
      kernel.observe system trace (kernel.after system initial trace) call :=
  account_concat _ [] initial trace call

/-- The mount of a path is marked for all the events that are asked for. -/
def MarkTable.Marked (initial : σ) (path : Text) (trace : Trace) : Prop :=
  kernel.mountMask (kernel.after system initial trace) path &&& eventMask =
    eventMask

def MarkTable.AllMarked (initial : σ) (paths : List Text) (trace : Trace) :
    Prop :=
  ∀ path ∈ paths, kernel.Marked system initial path trace

/-- The directories that are not in the rest have got their marks. -/
def MarkTable.MarkedBut (initial : σ) (paths rest : List Text)
    (trace : Trace) : Prop :=
  ∀ path ∈ paths, path ∈ rest ∨ kernel.Marked system initial path trace

variable {kernel system} {initial : σ} {path : Text} {trace : Trace}

theorem MarkTable.Marked.append
    (hmarked : kernel.Marked system initial path trace)
    (calls : List Call) (hcalls : ∀ call ∈ calls, call.isMark = false) :
    kernel.Marked system initial path (trace ++ calls) := by
  have hafter : kernel.after system initial (trace ++ calls) =
      kernel.after system initial trace := by
    apply account_unnoticed
    intro call hcall before table
    have hother := hcalls call hcall
    cases call with
    | fanotifyMark flags mask dfd path => cases hother
    | _ => rfl
  rw [MarkTable.Marked, hafter]
  exact hmarked

theorem MarkTable.Marked.chats
    {later : Trace} (hmarked : kernel.Marked system initial path trace)
    (hchats : Chats trace later) :
    kernel.Marked system initial path later := by
  obtain ⟨chatter, hchatter, rfl⟩ := hchats
  exact hmarked.append chatter fun call hcall =>
    Call.isMark_of_isChatter (hchatter call hcall)

/-- No call of the poll loop is about a mark. -/
theorem carries_allMarked (initial : σ) (paths : List Text) :
    Carries system
      (fun _ _ trace => kernel.AllMarked system initial paths trace)
      (fun ending => ending.Crashed ∨
        kernel.AllMarked system initial paths ending.trace) where
  chats := fun hchats hmarked path hpath => (hmarked path hpath).chats hchats
  ends := fun _ hmarked => Or.inr hmarked
  reads := by
    intro round rounds trace _ hmarked
    cases round.events with
    | none => exact hmarked
    | some bytes =>
        exact fun path hpath =>
          (hmarked path hpath).append _ (by simp [Call.isMark])
  handles := by
    intro rounds metadata events trace hmarked
    obtain ⟨closing, printed, hclosing, hprinted, hhandle | hhandle⟩ :=
      handle_cases system metadata trace
    · refine Or.inl ⟨_, hhandle, ?_⟩
      intro path hpath
      have hclosed := ((hmarked path hpath).chats hclosing).append
        [.close metadata.descriptor] (by simp [Call.isMark])
      exact (hclosed.chats hprinted).append _ (by simp [Call.isMark])
    · exact Or.inr ⟨_, hhandle, Or.inl ⟨_, rfl⟩⟩

section Documented

variable (hkernel : kernel.Documented)

include hkernel

/-- A further mark, on whatever mount, takes nothing away. -/
theorem MarkTable.Marked.addCall
    (hmarked : kernel.Marked system initial path trace) (other : Text) :
    kernel.Marked system initial path (trace ++ [addCall other]) := by
  have hkept := hkernel.kept (kernel.after system initial trace) eventMask
    atFdcwd (some other) (system.result (trace ++ [Tester.addCall other])) path
  rw [MarkTable.Marked, MarkTable.after_concat]
  change kernel.mountMask (kernel.mark _ _ _ _ _ _) path &&& eventMask = _
  calc kernel.mountMask (kernel.mark _ _ _ _ _ _) path &&& eventMask
      = kernel.mountMask (kernel.mark _ _ _ _ _ _) path &&&
          (kernel.mountMask (kernel.after system initial trace) path &&&
            eventMask) := by rw [hmarked]
    _ = kernel.mountMask (kernel.after system initial trace) path &&&
          eventMask := by rw [← BitVec.and_assoc, BitVec.and_comm _
            (kernel.mountMask (kernel.after system initial trace) path), hkept]
    _ = eventMask := hmarked

theorem marked_addCall
    (hresult : ¬ system.result (trace ++ [addCall path]) < 0) :
    kernel.Marked system initial path (trace ++ [addCall path]) := by
  have hadded := hkernel.added (kernel.after system initial trace) eventMask
    atFdcwd path _ (Int.not_lt.mp hresult)
  rw [MarkTable.Marked, MarkTable.after_concat]
  refine (congrArg (· &&& eventMask) hadded).trans ?_
  ext i
  simp
  tauto

/-- A removal that does not name the mount. -/
theorem MarkTable.Marked.removeCalls
    (hmarked : kernel.Marked system initial path trace)
    (paths : List Text) :
    kernel.Marked system initial path (trace ++ paths.map removeCall) := by
  induction paths generalizing trace with
  | nil => simpa using hmarked
  | cons other paths ih =>
      have hremoved :
          kernel.Marked system initial path (trace ++ [removeCall other]) := by
        rw [MarkTable.Marked, MarkTable.after_concat]
        exact (congrArg (· &&& eventMask) (hkernel.apart _ _ _ _ _ _ _
          (by decide))).trans hmarked
      simpa using ih hremoved

theorem leads_addMonitor
    (initial : σ) (paths : List Text) (path : Text) (rest : List Text) :
    Leads (kernel.MarkedBut system initial paths (path :: rest))
      (kernel.MarkedBut system initial paths rest) (fun _ => True)
      (fun trace => addMonitor system trace path) := by
  intro trace hadding
  by_cases hresult : system.result (trace ++ [addCall path]) < 0
  · exact Or.inr ⟨_, if_pos hresult, trivial⟩
  · refine Or.inl ⟨_, if_neg hresult, ?_⟩
    intro other hother
    rcases hadding other hother with hmem | hmarked
    · rcases List.mem_cons.mp hmem with rfl | hmem
      · exact Or.inr ((marked_addCall hkernel hresult).append _
          (by simp [startedCall, Call.isMark]))
      · exact Or.inl hmem
    · exact Or.inr ((hmarked.addCall hkernel path).append _
        (by simp [startedCall, Call.isMark]))

theorem allMarked_initializeFanotify
    (initial : σ) {paths : List Text} {trace : Trace}
    (hinit : initializeFanotify system paths [] = .ok trace) :
    kernel.AllMarked system initial paths trace := by
  have hfold : paths.foldlM (addMonitor system) [initCall] = .ok trace := by
    simp only [initializeFanotify] at hinit
    split_ifs at hinit
    exact hinit
  have hleads := Leads.foldlM (kernel.MarkedBut system initial paths)
    (leads_addMonitor hkernel initial paths) paths
  have hall := hleads.ok (fun path hpath => Or.inl hpath) hfold
  intro path hpath
  exact (hall path hpath).resolve_left List.not_mem_nil

end Documented

theorem filter_isMark_initScript (paths : List Text) :
    (initScript paths).filter Call.isMark = paths.map addCall := by
  induction paths with
  | nil => rfl
  | cons path paths ih =>
      have hcons : initScript (path :: paths) = initCall ::
          ([addCall path, startedCall path] ++ (initScript paths).tail) := by
        rfl
      have htail : (initScript paths).tail.filter Call.isMark =
          (initScript paths).filter Call.isMark := rfl
      rw [hcons, List.filter_cons_of_neg (by decide), List.filter_append,
        htail, ih]
      rfl

theorem filter_isMark_scripts (rounds : List Round) :
    (rounds.flatMap Round.script).filter Call.isMark = [] := by
  rw [List.filter_eq_nil_iff]
  intro call hcall
  obtain ⟨round, _, hscript⟩ := List.mem_flatMap.mp hcall
  unfold Round.script at hscript
  cases hevents : round.events with
  | none => simp [hevents] at hscript
  | some bytes =>
      rw [hevents] at hscript
      rcases List.mem_cons.mp hscript with rfl | hscript
      · simp [Call.isMark]
      · obtain ⟨metadata, _, hevent⟩ := List.mem_flatMap.mp hscript
        simp only [eventScript, List.mem_cons, List.not_mem_nil, or_false]
          at hevent
        rcases hevent with rfl | rfl <;> simp [Call.isMark]

/-- Up to the close of the group's descriptor, the marks that a run with a
clean exit sets and removes are these, and they all stay: each was set on a
mount, and no removal names one. -/
theorem main_marks
    (hkernel : kernel.Documented) (initial : σ) {progname : Text}
    {paths : List Text} {signalFd : ℤ} {rounds : List Round} {trace : Trace}
    (hsuccess : main system progname paths signalFd rounds =
      .success trace) :
    ∃ front, trace = front ++ [.close (fanotifyFd system), .close signalFd,
        .print "Exiting fanotify example...\n".toList] ∧
      front.filter Call.isMark =
        (paths.map fun path => .fanotifyMark (markAdd ||| markMount)
          eventMask atFdcwd (some path)) ++
        (paths.map fun path => .fanotifyMark markRemove eventMask atFdcwd
          (some path)) ∧
      ∀ path ∈ paths,
        kernel.mountMask (kernel.after system initial front) path &&&
          eventMask = eventMask := by
  rcases main_cases system progname paths signalFd rounds with
    ⟨_, ⟨other, _, hmain, _⟩ | ⟨other, hmain⟩⟩ | ⟨_, hinit, hmain⟩
  · rw [hmain] at hsuccess
    cases hsuccess
  · rw [hmain] at hsuccess
    cases hsuccess
  rw [hmain] at hsuccess
  have houtcome := (carries_allMarked initial paths).both
    (carries_stillToCall system _) (fun _ hmarked => hmarked)
    (fun _ hstill => hstill.allCalled rfl)
    (allMarked_initializeFanotify hkernel initial hinit)
    (stillToCall_initScript paths rounds)
  rcases leave_cases system houtcome paths signalFd with
    ⟨other, hleave⟩ | ⟨last, ⟨hmarked, hseen⟩, hleave | hleave | hleave⟩
  · rw [hleave] at hsuccess
    cases hsuccess
  · rw [hleave] at hsuccess
    cases hsuccess
  · rw [hleave] at hsuccess
    cases hsuccess
  · rw [hleave] at hsuccess
    cases hsuccess
    refine ⟨last ++ paths.map removeCall, by simp [exitScript], ?_,
      fun path hpath => (hmarked path hpath).removeCalls hkernel paths⟩
    have hremove : (paths.map removeCall).filter Call.isMark =
        paths.map removeCall := by
      simp [removeCall, Call.isMark]
    have hfilter : ∀ trace : Trace, (seen trace).filter Call.isMark =
        trace.filter Call.isMark :=
      filter_seen fun _ => Call.isMark_of_isChatter
    rw [List.filter_append, hremove, ← hfilter last, hseen,
      List.filter_append, hfilter, filter_isMark_initScript,
      filter_isMark_scripts, List.append_nil]
    rfl

end Marks

/-- A kernel with one mount and any number of inodes. -/
def oneMount : MarkTable (Mask × (Text → Mask)) where
  mark := fun table flags mask _ path result =>
    let change := fun old : Mask =>
      if flags &&& markRemove ≠ 0 then old &&& ~~~mask else old ||| mask
    if result < 0 then table
    else if flags &&& markMount ≠ 0 then (change table.1, table.2)
    else
      match path with
      | none => table
      | some path =>
          (table.1, fun inode =>
            if inode = path then change (table.2 inode) else table.2 inode)
  mountMask := fun table _ => table.1

theorem oneMount_add
    (table : Mask × (Text → Mask)) (mask : Mask) (dfd : ℤ)
    (path : Option Text) (result : ℤ) (mount : Text) :
    oneMount.mountMask (oneMount.mark table (markAdd ||| markMount) mask dfd
      path result) mount = if result < 0 then table.1 else table.1 ||| mask := by
  by_cases hresult : result < 0
  · simp [oneMount, hresult]
  · simp only [oneMount, hresult, if_false]
    rfl

theorem documented_oneMount : oneMount.Documented := by
  constructor
  · intro table flags mask dfd path result mount hflags
    simp only [oneMount, hflags]
    split_ifs <;> first | rfl | contradiction | (cases path <;> rfl)
  · intro table mask dfd path result hresult
    rw [oneMount_add, if_neg (Int.not_lt.mpr hresult)]
    rfl
  · intro table mask dfd path result mount
    rw [oneMount_add]
    change table.1 &&& _ = table.1
    split_ifs
    · exact BitVec.and_self
    · ext i
      simp
      tauto

/-- The mark of the one mount outlives the removal. -/
theorem main_marks_left :
    ∃ trace front, main keepingSystem [] [['/']] 4
        [⟨false, some (some 2), none⟩] = .success trace ∧
      trace = front ++ [.close 3, .close 4,
        .print "Exiting fanotify example...\n".toList] ∧
      oneMount.mountMask (oneMount.after keepingSystem (0, fun _ => 0) front)
        ['/'] &&& eventMask = eventMask := by
  have hsuccess : (match main keepingSystem [] [['/']] 4
      [⟨false, some (some 2), none⟩] with
      | .success _ => true
      | _ => false) = true := by decide +kernel
  cases hmain : main keepingSystem [] [['/']] 4
      [⟨false, some (some 2), none⟩] with
  | success trace =>
      obtain ⟨front, htrace, _, hmarked⟩ :=
        main_marks documented_oneMount (0, fun _ => 0) hmain
      exact ⟨trace, front, rfl, htrace, hmarked ['/'] (by simp)⟩
  | failure trace =>
      rw [hmain] at hsuccess
      cases hsuccess
  | running trace =>
      rw [hmain] at hsuccess
      cases hsuccess
  | crashed trace =>
      rw [hmain] at hsuccess
      cases hsuccess

end LinuxKernelCode.Fanotify.Tester
