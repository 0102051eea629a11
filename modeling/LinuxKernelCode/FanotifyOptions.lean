import Mathlib.Data.List.DropRight
import LinuxKernelCode.FanotifyListener
import LinuxKernelCode.StdioText
import LinuxKernelCode.StringTokens

/-!
# The options of the fanotify listener

The `main` function of `fanotify.c`: the options as `getopt` gives them, the
group and its marks, and then the event loop.

An option `-o` starts the mask afresh, so it undoes a `-d` in front of it but
none of the options that only set a variable.  `-f` and `-n` undo each other.
-/

namespace LinuxKernelCode.Fanotify.Listener

open LinuxKernelCode.RecordStream
open LinuxKernelCode.Scripted
open LinuxKernelCode.Tokens

/-- What `getopt` returns for `"o:s:cdfhmnp"`. -/
inductive Opt where
  | o (optarg : Text)
  | s (optarg : Text)
  | c
  | d
  | f
  | h
  | m
  | n
  | p
  | other
  deriving DecidableEq, Repr

structure Settings where
  fanMask : Mask
  optChild : Bool
  optOnMount : Bool
  optAddPerms : Bool
  optFast : Bool
  optIgnorePerm : Bool
  optSleep : ℤ
  deriving DecidableEq, Repr

def Settings.initial : Settings :=
  ⟨fanOpen ||| fanClose ||| fanAccess ||| fanModify, false, false, false,
    false, true, 0⟩

def eventBit (tok : Text) : Option Mask :=
  if tok = "open".toList then some fanOpen
  else if tok = "close".toList then some fanClose
  else if tok = "access".toList then some fanAccess
  else if tok = "modify".toList then some fanModify
  else if tok = "open_perm".toList then some fanOpenPerm
  else if tok = "access_perm".toList then some fanAccessPerm
  else none

/-- A word of the argument; an unknown one ends the program with `synopsis`. -/
def addEvent (mask : Mask) (tok : Text) : Except ℕ Mask :=
  match eventBit tok with
  | some bit => .ok (mask ||| bit)
  | none => .error 1

def comma (c : Char) : Bool := c = ','

def namedEvents (optarg : Text) : Except ℕ Mask :=
  tokenLoop comma addEvent optarg.length optarg 0

/-- The `int` that is left of what `strtol` reads. -/
def atoi (text : Text) : ℤ :=
  let magnitude := fun rest : Text =>
    (Nat.ofDigitChars 10 (rest.takeWhile Char.isDigit) 0 : ℤ)
  let value := match text.dropWhile Stdio.isSpace with
    | '-' :: rest => -magnitude rest
    | '+' :: rest => magnitude rest
    | rest => magnitude rest
  (BitVec.ofInt 32 (max (-2 ^ 63) (min (2 ^ 63 - 1) value))).toInt

/-- The body of the loop over the options; an error is the status that
`synopsis` exits with. -/
def applyOption (settings : Settings) : Opt → Except ℕ Settings
  | .o optarg => do
      let mask ← namedEvents optarg
      .ok { settings with fanMask := mask }
  | .c => .ok { settings with optChild := true }
  | .d => .ok { settings with fanMask := settings.fanMask ||| fanOndir }
  | .f => .ok { settings with optFast := true, optIgnorePerm := true }
  | .m => .ok { settings with optOnMount := true }
  | .n => .ok { settings with optFast := false, optIgnorePerm := false }
  | .p => .ok { settings with optAddPerms := true }
  | .s optarg => .ok { settings with optSleep := atoi optarg }
  | .h => .error 0
  | .other => .error 1

def parseOptions (opts : List Opt) : Except ℕ Settings :=
  opts.foldlM applyOption Settings.initial

/-! ## What the options come to -/

/-- The events that an argument of `-o` names. -/
def eventsOf (optarg : Text) : Mask :=
  ((words comma optarg).filterMap eventBit).foldl (· ||| ·) 0

/-- The status of an option that ends the program. -/
def Opt.status : Opt → Option ℕ
  | .o optarg =>
      if ∀ tok ∈ words comma optarg, (eventBit tok).isSome then none
      else some 1
  | .h => some 0
  | .other => some 1
  | _ => none

def Opt.events : Opt → Option Mask
  | .o optarg => some (eventsOf optarg)
  | _ => none

def Opt.speed : Opt → Option Bool
  | .f => some true
  | .n => some false
  | _ => none

def Opt.seconds : Opt → Option ℤ
  | .s optarg => some (atoi optarg)
  | _ => none

/-- What the last option of a kind says. -/
def lastOf {β : Type} (part : Opt → Option β) (opts : List Opt)
    (initially : β) : β :=
  (opts.filterMap part).getLast?.getD initially

/-- There is a `-d` with no `-o` behind it. -/
def ondirCounts (opts : List Opt) : Bool :=
  (opts.rtakeWhile fun opt => opt.events.isNone).contains .d

/-- Each setting by the last option that decides it. -/
def summary (opts : List Opt) : Settings where
  fanMask :=
    lastOf Opt.events opts Settings.initial.fanMask |||
      if ondirCounts opts then fanOndir else 0
  optChild := opts.contains .c
  optOnMount := opts.contains .m
  optAddPerms := opts.contains .p
  optFast := lastOf Opt.speed opts false
  optIgnorePerm := lastOf Opt.speed opts true
  optSleep := lastOf Opt.seconds opts 0

@[simp] theorem lastOf_concat
    {β : Type} (part : Opt → Option β) (opts : List Opt) (opt : Opt)
    (initially : β) :
    lastOf part (opts ++ [opt]) initially =
      (part opt).getD (lastOf part opts initially) := by
  cases hpart : part opt <;> simp [lastOf, hpart]

@[simp] theorem ondirCounts_concat (opts : List Opt) (opt : Opt) :
    ondirCounts (opts ++ [opt]) =
      (opt.events.isNone && (opt == .d || ondirCounts opts)) := by
  rw [Bool.eq_iff_iff, ondirCounts, ondirCounts, List.rtakeWhile_concat]
  cases hevents : opt.events with
  | some mask => simp
  | none =>
      simp only [Option.isNone_none, if_true, Bool.true_and,
        List.contains_eq_mem, List.mem_append, List.mem_singleton,
        decide_eq_true_eq, Bool.or_eq_true, beq_iff_eq]
      rw [or_comm, eq_comm]

theorem foldlM_addEvent (toks : List Text) (mask : Mask) :
    toks.foldlM addEvent mask =
      if ∀ tok ∈ toks, (eventBit tok).isSome then
        .ok ((toks.filterMap eventBit).foldl (· ||| ·) mask)
      else .error 1 := by
  induction toks generalizing mask with
  | nil => rfl
  | cons tok toks ih =>
      rw [List.foldlM_cons, addEvent]
      cases hbit : eventBit tok with
      | none => simp [hbit, bind, Except.bind]
      | some bit => simp [hbit, bind, Except.bind, ih]

theorem namedEvents_eq (optarg : Text) :
    namedEvents optarg =
      match (Opt.o optarg).status with
      | some status => .error status
      | none => .ok (eventsOf optarg) := by
  rw [namedEvents, tokenLoop_eq addEvent (Nat.le_refl _), foldlM_addEvent]
  simp only [Opt.status, eventsOf]
  split <;> rfl

theorem applyOption_of_status
    {opt : Opt} {status : ℕ} (hstatus : opt.status = some status)
    (settings : Settings) : applyOption settings opt = .error status := by
  cases opt with
  | o optarg =>
      simp only [applyOption, namedEvents_eq, hstatus]
      rfl
  | h =>
      cases hstatus
      rfl
  | other =>
      cases hstatus
      rfl
  | _ => cases hstatus

/-- One more option at the end. -/
theorem applyOption_summary
    {opts : List Opt} {opt : Opt} (hstatus : opt.status = none) :
    applyOption (summary opts) opt = .ok (summary (opts ++ [opt])) := by
  cases opt with
  | o optarg =>
      simp only [applyOption, namedEvents_eq, hstatus]
      simp [summary, Opt.events, Opt.speed, Opt.seconds, bind, Except.bind]
  | d =>
      cases hcounts : ondirCounts opts <;>
        simp [applyOption, summary, Opt.events, Opt.speed, Opt.seconds,
          hcounts, BitVec.or_assoc]
  | h => cases hstatus
  | other => cases hstatus
  | _ => simp [applyOption, summary, Opt.events, Opt.speed, Opt.seconds]

theorem parseOptions_eq (opts : List Opt) :
    parseOptions opts =
      match opts.findSome? Opt.status with
      | some status => .error status
      | none => .ok (summary opts) := by
  induction opts using List.reverseRecOn with
  | nil => rfl
  | append_singleton opts opt ih =>
      have hlast : parseOptions (opts ++ [opt]) =
          parseOptions opts >>= fun settings => applyOption settings opt := by
        simp [parseOptions, List.foldlM_append]
      rw [hlast, ih, List.findSome?_append]
      cases hfirst : opts.findSome? Opt.status with
      | some status => rfl
      | none =>
          cases hstatus : opt.status with
          | some status =>
              simp [hstatus, applyOption_of_status hstatus, bind, Except.bind]
          | none =>
              simp [hstatus, applyOption_summary hstatus, bind, Except.bind]

/-! ## What is asked of the kernel -/

def Settings.mask (settings : Settings) : Mask :=
  let mask := settings.fanMask
  let mask := if settings.optChild then mask ||| fanEventOnChild else mask
  if settings.optAddPerms then mask ||| fanAllPermEvents else mask

def Settings.markFlags (settings : Settings) : BitVec 32 :=
  if settings.optOnMount then markAdd ||| markMount else markAdd

def Settings.initFlags (settings : Settings) : BitVec 32 :=
  if has settings.mask fanAllPermEvents then fanClassContent
  else fanClassNotif

def Settings.options (settings : Settings) : Options :=
  ⟨settings.optFast, settings.optIgnorePerm, settings.optSleep⟩

theorem has_or (mask added bits : Mask) :
    has (mask ||| added) bits = (has mask bits || has added bits) := by
  have hor : (mask ||| added) &&& bits = (mask &&& bits) ||| (added &&& bits) :=
    BitVec.and_or_distrib_right
  have hzero : (mask &&& bits) ||| (added &&& bits) = 0 ↔
      mask &&& bits = 0 ∧ added &&& bits = 0 := BitVec.or_eq_zero_iff
  rw [Bool.eq_iff_iff]
  simp only [has, bne_iff_ne, Bool.or_eq_true, ne_eq, hor, hzero]
  tauto

theorem has_foldl_or (masks : List Mask) (mask bits : Mask) :
    has (masks.foldl (· ||| ·) mask) bits =
      (has mask bits || masks.any fun added => has added bits) := by
  induction masks generalizing mask with
  | nil => simp
  | cons added masks ih =>
      rw [List.foldl_cons, ih, has_or, List.any_cons, Bool.or_assoc]

theorem has_eventsOf_iff (optarg : Text) (bits : Mask) :
    has (eventsOf optarg) bits ↔
      ∃ tok ∈ words comma optarg, ∃ bit, eventBit tok = some bit ∧
        has bit bits := by
  have hzero : has 0 bits = false := by simp [has]
  rw [eventsOf, has_foldl_or, hzero, Bool.false_or, List.any_eq_true]
  simp only [List.mem_filterMap]
  constructor
  · rintro ⟨bit, ⟨tok, htok, hbit⟩, hhas⟩
    exact ⟨tok, htok, bit, hbit, hhas⟩
  · rintro ⟨tok, htok, bit, hbit, hhas⟩
    exact ⟨bit, ⟨tok, htok, hbit⟩, hhas⟩

theorem eventBit_perm_iff (tok : Text) :
    (∃ bit, eventBit tok = some bit ∧ has bit fanAllPermEvents) ↔
      tok = "open_perm".toList ∨ tok = "access_perm".toList := by
  unfold eventBit
  split_ifs with hopen hclose haccess hmodify hopenPerm haccessPerm
  · have hbit : has fanOpen fanAllPermEvents = false := by decide
    simp [hopen, hbit]
  · have hbit : has fanClose fanAllPermEvents = false := by decide
    simp [hclose, hbit]
  · have hbit : has fanAccess fanAllPermEvents = false := by decide
    simp [haccess, hbit]
  · have hbit : has fanModify fanAllPermEvents = false := by decide
    simp [hmodify, hbit]
  · have hbit : has fanOpenPerm fanAllPermEvents := by decide
    simp [hopenPerm, hbit]
  · have hbit : has fanAccessPerm fanAllPermEvents := by decide
    simp [haccessPerm, hbit]
  · simp only [hopenPerm, haccessPerm, or_self, iff_false]
    rintro ⟨bit, hnone, _⟩
    cases hnone

theorem eventBit_ondir (tok : Text) :
    ¬ ∃ bit, eventBit tok = some bit ∧ has bit fanOndir := by
  unfold eventBit
  split_ifs <;> simp <;> decide

/-- The last option of a kind, with none of the kind behind it. -/
def LastOption {β : Type} (part : Opt → Option β) (opts : List Opt)
    (value : β) : Prop :=
  ∃ front opt back, opts = front ++ opt :: back ∧
    (∀ later ∈ back, part later = none) ∧ part opt = some value

theorem lastOf_of_lastOption
    {β : Type} {part : Opt → Option β} {opts : List Opt} {value : β}
    (hlast : LastOption part opts value) (initially : β) :
    lastOf part opts initially = value := by
  obtain ⟨front, opt, back, rfl, hback, hopt⟩ := hlast
  have hnone : back.filterMap part = [] := by
    simpa [List.filterMap_eq_nil_iff] using hback
  simp [lastOf, hopt, hnone]

theorem lastOf_cases
    {β : Type} (part : Opt → Option β) (opts : List Opt) (initially : β) :
    lastOf part opts initially = initially ∨
      LastOption part opts (lastOf part opts initially) := by
  induction opts using List.reverseRecOn with
  | nil => exact Or.inl rfl
  | append_singleton opts opt ih =>
      rw [lastOf_concat]
      cases hpart : part opt with
      | some value => exact Or.inr ⟨opts, opt, [], rfl, by simp, hpart⟩
      | none =>
          rcases ih with hinitially | ⟨front, last, back, hopts, hback, hlast⟩
          · exact Or.inl hinitially
          · refine Or.inr ⟨front, last, back ++ [opt], by simp [hopts], ?_,
              hlast⟩
            intro later hlater
            rcases List.mem_append.mp hlater with hlater | hlater
            · exact hback later hlater
            · rw [List.mem_singleton.mp hlater]
              exact hpart

theorem ondirCounts_iff (opts : List Opt) :
    ondirCounts opts ↔ ∃ front back, opts = front ++ .d :: back ∧
      ∀ later ∈ back, later.events = none := by
  induction opts using List.reverseRecOn with
  | nil => simp [ondirCounts, List.rtakeWhile]
  | append_singleton opts opt ih =>
      rw [ondirCounts_concat, Bool.and_eq_true, Bool.or_eq_true, ih]
      constructor
      · rintro ⟨hevents, hd | ⟨front, back, rfl, hback⟩⟩
        · exact ⟨opts, [], by simpa using hd, by simp⟩
        · refine ⟨front, back ++ [opt], by simp, ?_⟩
          intro later hlater
          rcases List.mem_append.mp hlater with hlater | hlater
          · exact hback later hlater
          · rw [List.mem_singleton.mp hlater]
            simpa using hevents
      · rintro ⟨front, back, hopts, hback⟩
        rcases List.eq_nil_or_concat' back with rfl | ⟨back, last, rfl⟩
        · obtain ⟨rfl, hd⟩ := List.append_inj' hopts rfl
          cases hd
          exact ⟨rfl, Or.inl rfl⟩
        · rw [← List.cons_append, ← List.append_assoc] at hopts
          obtain ⟨rfl, hlast⟩ := List.append_inj' hopts rfl
          cases hlast
          exact ⟨by simpa using hback _ (by simp),
            Or.inr ⟨front, back, rfl, fun later hlater =>
              hback later (by simp [hlater])⟩⟩

theorem lastOption_events_iff (opts : List Opt) (property : Mask → Prop) :
    (∃ mask, LastOption Opt.events opts mask ∧ property mask) ↔
      ∃ front optarg back, opts = front ++ .o optarg :: back ∧
        (∀ later ∈ back, later.events = none) ∧
        property (eventsOf optarg) := by
  constructor
  · rintro ⟨mask, ⟨front, opt, back, rfl, hback, hopt⟩, hmask⟩
    cases opt with
    | o optarg =>
        cases hopt
        exact ⟨front, optarg, back, rfl, hback, hmask⟩
    | _ => cases hopt
  · rintro ⟨front, optarg, back, hopts, hback, hmask⟩
    exact ⟨_, ⟨front, _, back, hopts, hback, rfl⟩, hmask⟩

theorem has_lastOf_events_iff
    (opts : List Opt) {bits : Mask}
    (hinitial : has Settings.initial.fanMask bits = false) :
    has (lastOf Opt.events opts Settings.initial.fanMask) bits ↔
      ∃ front optarg back, opts = front ++ .o optarg :: back ∧
        (∀ later ∈ back, later.events = none) ∧
        has (eventsOf optarg) bits := by
  rw [← lastOption_events_iff opts fun mask => has mask bits]
  constructor
  · intro hhas
    rcases lastOf_cases Opt.events opts Settings.initial.fanMask with
      hlast | hlast
    · rw [hlast, hinitial] at hhas
      cases hhas
    · exact ⟨_, hlast, hhas⟩
  · rintro ⟨mask, hlast, hhas⟩
    rw [lastOf_of_lastOption hlast]
    exact hhas

theorem has_ite (condition : Bool) (mask bits : Mask) :
    has (if condition then mask else 0) bits = (condition && has mask bits) := by
  cases condition <;> simp [has]

theorem has_summary_mask (opts : List Opt) (bits : Mask) :
    has (summary opts).mask bits =
      (has (lastOf Opt.events opts Settings.initial.fanMask) bits ||
        (ondirCounts opts && has fanOndir bits) ||
        (opts.contains .c && has fanEventOnChild bits) ||
        (opts.contains .p && has fanAllPermEvents bits)) := by
  rw [Settings.mask]
  cases hc : opts.contains .c <;> cases hp : opts.contains .p <;>
    simp only [summary, hc, hp, has_or, has_ite, Bool.false_and,
      Bool.true_and, Bool.or_false, if_true, Bool.false_eq_true, if_false]

/-- Events on directories are asked for exactly if a `-d` has no `-o` behind
it, and the group can hold up processes exactly if `-p` is given or the last
`-o` names an event of the kind. -/
theorem parseOptions_asks
    {opts : List Opt} {settings : Settings}
    (hparse : parseOptions opts = .ok settings) :
    (has settings.mask fanOndir ↔
      ∃ front back, opts = front ++ .d :: back ∧
        ∀ later ∈ back, later.events = none) ∧
    (settings.initFlags = fanClassContent ↔
      .p ∈ opts ∨ ∃ front optarg back, opts = front ++ .o optarg :: back ∧
        (∀ later ∈ back, later.events = none) ∧
        ∃ tok ∈ words comma optarg,
          tok = "open_perm".toList ∨ tok = "access_perm".toList) := by
  have hsettings : settings = summary opts := by
    rw [parseOptions_eq] at hparse
    cases hstatus : opts.findSome? Opt.status with
    | some status =>
        rw [hstatus] at hparse
        cases hparse
    | none =>
        rw [hstatus] at hparse
        cases hparse
        rfl
  subst hsettings
  have hondir : has (lastOf Opt.events opts Settings.initial.fanMask)
      fanOndir = false := by
    rw [← Bool.not_eq_true, has_lastOf_events_iff opts (by decide)]
    rintro ⟨front, optarg, back, _, _, hhas⟩
    obtain ⟨tok, _, hbit⟩ := (has_eventsOf_iff optarg fanOndir).mp hhas
    exact eventBit_ondir tok hbit
  have hchild : has fanEventOnChild fanOndir = false := by decide
  have hperms : has fanAllPermEvents fanOndir = false := by decide
  have hself : has fanOndir fanOndir := by decide
  have hother : has fanOndir fanAllPermEvents = false := by decide
  have hchildPerm : has fanEventOnChild fanAllPermEvents = false := by decide
  have hpermsSelf : has fanAllPermEvents fanAllPermEvents := by decide
  constructor
  · rw [has_summary_mask, hondir, hchild, hperms, hself]
    simpa using ondirCounts_iff opts
  · have hflags : (summary opts).initFlags = fanClassContent ↔
        has (summary opts).mask fanAllPermEvents := by
      rw [Settings.initFlags]
      split <;> rename_i hhas
      · simp [hhas]
      · simp only [hhas]
        decide
    rw [hflags, has_summary_mask, hother, hchildPerm, hpermsSelf]
    simp only [Bool.and_false, Bool.or_false, Bool.and_true,
      Bool.or_eq_true, List.contains_eq_mem, decide_eq_true_eq]
    rw [or_comm, has_lastOf_events_iff opts (by decide)]
    simp only [has_eventsOf_iff, eventBit_perm_iff]

theorem parseOptions_dropped :
    parseOptions [.d, .o "open".toList, .p] =
      .ok ⟨fanOpen, false, false, true, false, true, 0⟩ := by
  rfl

/-- The `-o` undoes the `-d`, not the `-p`. -/
theorem parseOptions_asks_dropped :
    ¬ (∃ front back, [Opt.d, .o "open".toList, .p] = front ++ .d :: back ∧
      ∀ later ∈ back, later.events = none) ∧
    (Settings.initFlags ⟨fanOpen, false, false, true, false, true, 0⟩) =
      fanClassContent := by
  have hasks := parseOptions_asks parseOptions_dropped
  constructor
  · rw [← hasks.1]
    decide
  · exact hasks.2.mpr (Or.inl (by simp))

/-! ## The whole program -/

/-- `mark_object`, and the jump to `fail` if it gives no zero. -/
def markObject (system : System) (settings : Settings) (state : State)
    (path : Text) : Except Stop State :=
  let state := state.call
    (.fanotifyMark settings.markFlags settings.mask atFdcwd (some path))
  if system.result state.trace ≠ 0 then .error (.fail state.trace)
  else .ok state

def fanotifyInit (system : System) (settings : Settings) (state : State) :
    Except Stop State :=
  let state := state.call (.fanotifyInit settings.initFlags)
  if system.result state.trace < 0 then .error (.fail state.trace)
  else .ok state

/-- From the options on to the end of the reads. -/
def serve (system : System) (settings : Settings) (operands : List Text)
    (reads : List (List Byte)) (state : State) : Except Stop State := do
  let state ← fanotifyInit system settings state
  let state ← operands.foldlM (markObject system settings) state
  listen system settings.options reads state

inductive Exit where
  | usage (status : ℕ)
  | stopped (stop : Stop)
  | finished (state : State)
  deriving DecidableEq, Repr

/-- `main`, with what `getopt` makes of the arguments, the reads that give
something, and the result of the read that ends the loop. -/
def main (system : System) (sigaction : ℤ) (opts : List Opt)
    (operands : List Text) (reads : List (List Byte)) (len : ℤ) : Exit :=
  if sigaction = -1 then .stopped (.fail [])
  else
    match parseOptions opts with
    | .error status => .usage status
    | .ok settings =>
        if operands = [] then .usage 1
        else
          match serve system settings operands reads ⟨[], none⟩ with
          | .error stop => .stopped stop
          | .ok state =>
              if len < 0 then .stopped (.fail state.trace)
              else .finished state

section Plan

variable (system : System) (settings : Settings)

end Plan

/-- The ways in which the program comes to an end. -/
theorem main_cases
    (system : System) (sigaction : ℤ) (opts : List Opt)
    (operands : List Text) (reads : List (List Byte)) (len : ℤ) :
    main system sigaction opts operands reads len = .stopped (.fail []) ∨
    (∃ status, main system sigaction opts operands reads len =
        .usage status ∧
      (opts.findSome? Opt.status = some status ∨
        operands = [] ∧ status = 1)) ∨
    (∃ stop, main system sigaction opts operands reads len =
        .stopped stop ∧
      serve system (summary opts) operands reads ⟨[], none⟩ =
        .error stop) ∨
    ∃ state, serve system (summary opts) operands reads ⟨[], none⟩ =
        .ok state ∧
      (main system sigaction opts operands reads len =
          .stopped (.fail state.trace) ∨
        main system sigaction opts operands reads len = .finished state) := by
  have hparse := parseOptions_eq opts
  by_cases hsigaction : sigaction = -1
  · exact Or.inl (by simp [main, hsigaction])
  right
  cases hstatus : opts.findSome? Opt.status with
  | some status =>
      rw [hstatus] at hparse
      exact Or.inl ⟨status, by simp [main, hsigaction, hparse], Or.inl rfl⟩
  | none =>
      rw [hstatus] at hparse
      by_cases hoperands : operands = []
      · exact Or.inl ⟨1, by simp [main, hsigaction, hparse, hoperands],
          Or.inr ⟨hoperands, rfl⟩⟩
      right
      cases hserve : serve system (summary opts) operands reads
          ⟨[], none⟩ with
      | error stop =>
          exact Or.inl ⟨stop,
            by simp [main, hsigaction, hparse, hoperands, hserve], rfl⟩
      | ok state =>
          refine Or.inr ⟨state, rfl, ?_⟩
          by_cases hlen : len < 0
          · exact Or.inl
              (by simp [main, hsigaction, hparse, hoperands, hserve, hlen])
          · exact Or.inr
              (by simp [main, hsigaction, hparse, hoperands, hserve, hlen])

end LinuxKernelCode.Fanotify.Listener
