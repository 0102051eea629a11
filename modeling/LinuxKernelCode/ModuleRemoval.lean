import LinuxKernelCode.ModuleUsage

/-!
# Which modules `rmmod` asks the kernel to delete

The intended decision depends on one line of `/proc/modules`, the first one
that names the module: the kernel is asked to delete the module if this line
has a reference count and the count is zero.  The decision the code takes also
carries the last reference count read before.  The two agree if and only if
the line has its count, or the count carried along is not zero, as long as
`fgets` reads every line in one piece.
-/

namespace LinuxKernelCode.Rmmod

open Stdio

/-! ## Module names -/

/-- The part of a path after its last slash and up to the first dot, with
underscores for dashes. -/
def moduleName (path : List Char) : List Char :=
  ((path.reverse.takeWhile (· ≠ '/')).reverse.takeWhile (· ≠ '.')).map
    fun c => if c = '-' then '_' else c

theorem takeWhile_append_of_notMem
    {wanted : Char} {text : List Char} (hnot : wanted ∉ text) (rest : List Char) :
    (text ++ rest).takeWhile (· ≠ wanted) =
      text ++ rest.takeWhile (· ≠ wanted) := by
  apply List.takeWhile_append_of_pos
  intro c hc
  exact decide_eq_true fun heq => hnot (heq ▸ hc)

theorem basename_eq (path : List Char) :
    basename path = (path.reverse.takeWhile (· ≠ '/')).reverse := by
  unfold basename
  cases hslash : strrchr path '/' with
  | none =>
      have hnot : '/' ∉ path.reverse := by
        rw [List.mem_reverse]
        exact (strrchr_eq_none_iff path '/').mp hslash
      have htake := takeWhile_append_of_notMem hnot []
      rw [List.append_nil] at htake
      rw [htake]
      simp
  | some base =>
      obtain ⟨before, after, hpath, hbase, hafter⟩ := strrchr_eq_some hslash
      have hnot : '/' ∉ after.reverse := by
        rw [List.mem_reverse]
        exact hafter
      have htake := takeWhile_append_of_notMem hnot ('/' :: before.reverse)
      have hreverse : path.reverse =
          after.reverse ++ '/' :: before.reverse := by
        simp [hpath]
      rw [hreverse, htake, hbase]
      simp

theorem filename2modnameLoop_eq (afterslash : List Char) :
    filename2modnameLoop afterslash =
      (afterslash.takeWhile (· ≠ '.')).map
        fun c => if c = '-' then '_' else c := by
  induction afterslash with
  | nil => rfl
  | cons c afterslash ih =>
      unfold filename2modnameLoop
      by_cases hdot : c = '.'
      · simp [hdot]
      · simp [hdot, ih]

theorem filename2modname_eq (path : List Char) :
    filename2modname path = moduleName path := by
  unfold filename2modname moduleName
  rw [filename2modnameLoop_eq, basename_eq]

/-! ## Lines of the listing -/

/-- A line of `/proc/modules`, without its newline.  It holds no zero, at which
`sscanf` would stop, and its first field fits into the array `name`. -/
structure ModuleLine where
  text : List Char
  oneLine : '\n' ∉ text
  noNul : Char.ofNat 0 ∉ text
  hasField : firstField (text ++ ['\n']) ≠ []
  fieldLt : (firstField (text ++ ['\n'])).length < 64

def ModuleLine.chars (line : ModuleLine) : List Char := line.text ++ ['\n']

def ModuleLine.name (line : ModuleLine) : List Char := firstField line.chars

/-- The reference count, if the line has two further fields that `%lu`
accepts. -/
def ModuleLine.refs (line : ModuleLine) : Option (BitVec 64) :=
  match sscanf line.chars with
  | .refs _ _ refs => some refs
  | _ => none

/-- `fgets` reads the line in one piece. -/
def ModuleLine.Fits (line : ModuleLine) : Prop :=
  line.chars.length < lineSize - 1

def listing (lines : List ModuleLine) : List Char :=
  lines.flatMap ModuleLine.chars

theorem ModuleLine.assign_name (line : ModuleLine) (vars : Vars) :
    (vars.assign (sscanf line.chars)).name = line.name := by
  have hfield : firstField line.chars ≠ [] := line.hasField
  unfold sscanf scanWord
  rw [if_neg hfield]
  dsimp only
  cases scanUnsigned _ with
  | none => rfl
  | some first =>
      dsimp only
      cases scanUnsigned first.2 <;> rfl

theorem ModuleLine.assign_refs (line : ModuleLine) (vars : Vars) :
    (vars.assign (sscanf line.chars)).refs = line.refs.getD vars.refs := by
  unfold ModuleLine.refs
  cases sscanf line.chars <;> rfl

/-! ## The decision of the code -/

/-- Whether the code lets a module pass, given the reference count with which
it enters a listing. -/
def Permits (modname : List Char) : BitVec 64 → List ModuleLine → Prop
  | _, [] => False
  | refs, line :: rest =>
      line.Fits ∧
        if line.name = modname then line.refs.getD refs = 0
        else Permits modname (line.refs.getD refs) rest

theorem fgets_chars
    (line : ModuleLine) (stream : List Char) :
    ∃ first rest, fgets (lineSize - 1) (line.chars ++ stream) = some (first, rest) ∧
      (line.Fits → first = line.chars ∧ rest = stream) ∧
      (¬ line.Fits → '\n' ∉ first) := by
  have hchars : line.chars ++ stream = line.text ++ '\n' :: stream := by
    simp [ModuleLine.chars]
  have hlength : line.chars.length = line.text.length + 1 := by
    simp [ModuleLine.chars]
  unfold fgets
  rw [if_neg (by simp [hchars]), hchars]
  refine ⟨_, _, rfl, ?_, ?_⟩
  · intro hfits
    unfold ModuleLine.Fits at hfits
    rw [fgetsLoop_line line.oneLine (by omega)]
    exact ⟨rfl, rfl⟩
  · intro hlong
    unfold ModuleLine.Fits at hlong
    exact newline_notMem_fgetsLoop line.oneLine (by omega) _

theorem verdict_eq_zero_iff (refs : BitVec 64) : verdict refs = 0 ↔ refs = 0 := by
  unfold verdict
  split_ifs with hzero
  · simp [hzero]
  · constructor
    · intro hcode
      simp [EINVAL] at hcode
    · intro hrefs
      exact absurd hrefs hzero

theorem checkUsageLoop_nil
    (modname : List Char) (errorReturns : Bool) (fuel : ℕ) (vars : Vars) :
    (checkUsageLoop modname errorReturns fuel [] vars).1 ≠ .returns 0 := by
  cases fuel with
  | zero => simp [checkUsageLoop]
  | succ fuel => cases errorReturns <;> simp [checkUsageLoop, fgets, verdict, EINVAL]

theorem checkUsageLoop_iff
    (modname : List Char) (errorReturns : Bool) {fuel : ℕ}
    {lines : List ModuleLine} (hfuel : lines.length < fuel) (vars : Vars) :
    (checkUsageLoop modname errorReturns fuel (listing lines) vars).1 =
        .returns 0 ↔
      Permits modname vars.refs lines := by
  induction lines generalizing fuel vars with
  | nil =>
      simp only [Permits, iff_false]
      exact checkUsageLoop_nil modname errorReturns fuel vars
  | cons line lines ih =>
      cases fuel with
      | zero => simp at hfuel
      | succ fuel =>
          obtain ⟨first, rest, hfgets, hpiece, hcut⟩ :=
            fgets_chars line (listing lines)
          have hlisting : listing (line :: lines) =
              line.chars ++ listing lines := rfl
          unfold checkUsageLoop Permits
          rw [hlisting, hfgets]
          dsimp only
          by_cases hfits : line.Fits
          · obtain ⟨rfl, rfl⟩ := hpiece hfits
            have hnewline : '\n' ∈ line.chars := by
              simp [ModuleLine.chars]
            rw [if_neg (not_not.mpr hnewline), line.assign_name]
            by_cases hname : line.name = modname
            · rw [if_neg (not_not.mpr hname), if_pos hname, line.assign_refs]
              simp [hfits, verdict_eq_zero_iff]
            · have hrest := ih (by simpa using hfuel)
                (vars.assign (sscanf line.chars))
              rw [line.assign_refs] at hrest
              rw [if_pos hname, if_neg hname, hrest]
              simp [hfits]
          · rw [if_pos (hcut hfits)]
            simp [hfits]

/-! ## The condition on the listing -/

/-- The lines in front of the first one that names the module. -/
def precedingLines (modname : List Char) (lines : List ModuleLine) :
    List ModuleLine :=
  lines.takeWhile fun line => decide (line.name ≠ modname)

/-- The first line that names the module. -/
def moduleLine (modname : List Char) (lines : List ModuleLine) :
    Option ModuleLine :=
  lines.find? fun line => decide (line.name = modname)

/-- The reference count of the last line that has one, or the one given. -/
def leftoverRefs (refs : BitVec 64) (lines : List ModuleLine) : BitVec 64 :=
  lines.foldl (fun refs line => line.refs.getD refs) refs

theorem permits_iff
    (modname : List Char) (refs : BitVec 64) (lines : List ModuleLine) :
    Permits modname refs lines ↔
      ∃ line, moduleLine modname lines = some line ∧
        (∀ other ∈ precedingLines modname lines ++ [line], other.Fits) ∧
        line.refs.getD (leftoverRefs refs (precedingLines modname lines)) = 0 := by
  induction lines generalizing refs with
  | nil => simp [Permits, moduleLine]
  | cons head lines ih =>
      by_cases hname : head.name = modname
      · simp [Permits, moduleLine, precedingLines, leftoverRefs, hname]
      · have hrest := ih (head.refs.getD refs)
        have hline : moduleLine modname (head :: lines) =
            moduleLine modname lines := by
          simp [moduleLine, hname]
        have hbefore : precedingLines modname (head :: lines) =
            head :: precedingLines modname lines := by
          simp [precedingLines, hname]
        rw [Permits, if_neg hname, hrest, hline, hbefore]
        constructor
        · rintro ⟨hhead, line, hsome, hfits, hzero⟩
          refine ⟨line, hsome, ?_, hzero⟩
          intro other hother
          rcases List.mem_cons.mp hother with heq | hmem
          · exact heq ▸ hhead
          · exact hfits other hmem
        · rintro ⟨line, hsome, hfits, hzero⟩
          refine ⟨hfits head (by simp), line, hsome, ?_, hzero⟩
          intro other hother
          exact hfits other (List.mem_cons_of_mem head hother)

/-! ## The intended decision -/

/-- The first line that names the module has a reference count, and the count
is zero. -/
def Unused (modname : List Char) (lines : List ModuleLine) : Prop :=
  ∃ line, moduleLine modname lines = some line ∧ line.refs = some 0

def removalFlags : BitVec 32 := O_NONBLOCK ||| O_EXCL

/-- `rmmod` on a system whose module list consists of the given lines. -/
def rmmodListing (path : List Char) (lines : List ModuleLine) (system : System) :
    Removal :=
  rmmod path removalFlags { system with moduleList := .opened (listing lines) }

theorem length_le_listing (lines : List ModuleLine) :
    lines.length ≤ (listing lines).length := by
  induction lines with
  | nil => simp [listing]
  | cons line lines ih =>
      have hlisting : listing (line :: lines) = line.chars ++ listing lines := rfl
      have hchars : line.chars.length = line.text.length + 1 := by
        simp [ModuleLine.chars]
      rw [hlisting, List.length_append, List.length_cons]
      omega

/-- The kernel is asked exactly when the usage check returns zero. -/
theorem rmmodListing_deleted_iff
    (path : List Char) (lines : List ModuleLine) (system : System) :
    (moduleName path, removalFlags) ∈ (rmmodListing path lines system).deleted ↔
      Permits (moduleName path) system.vars.refs lines := by
  have hloop := checkUsageLoop_iff (moduleName path) system.errorReturns
    (Nat.lt_succ_of_le (length_le_listing lines)) system.vars
  have hflags : removalFlags &&& O_NONBLOCK ≠ 0 ∧ removalFlags &&& O_TRUNC = 0 := by
    decide
  unfold rmmodListing rmmod
  rw [filename2modname_eq, ← hloop]
  dsimp only
  rw [if_pos hflags]
  unfold checkUsage
  dsimp only
  cases hresult : checkUsageLoop (moduleName path) system.errorReturns
      ((listing lines).length + 1) (listing lines) system.vars with
  | mk ending messages =>
      cases ending with
      | returns code =>
          by_cases hcode : code = 0
          · simp [hcode]
          · simp [hcode]
      | exits => simp
      | undefined => simp
      | running => simp

/-- What the decision needs of the lines up to the one of the module.  If this
line says that the module is unused, `fgets` has to get that far.  If it has no
reference count, either `fgets` does not get there or the count left over from
the lines before is not zero. -/
def Reliable (modname : List Char) (entry : BitVec 64)
    (lines : List ModuleLine) : Prop :=
  ∀ line, moduleLine modname lines = some line →
    (line.refs = some 0 →
      ∀ other ∈ precedingLines modname lines ++ [line], other.Fits) ∧
    (line.refs = none →
      (∀ other ∈ precedingLines modname lines ++ [line], other.Fits) →
        leftoverRefs entry (precedingLines modname lines) ≠ 0)

theorem permits_iff_unused_iff
    (modname : List Char) (entry : BitVec 64) (lines : List ModuleLine) :
    (Permits modname entry lines ↔ Unused modname lines) ↔
      Reliable modname entry lines := by
  rw [permits_iff]
  unfold Unused Reliable
  cases hline : moduleLine modname lines with
  | none => simp
  | some line =>
      simp only [Option.some.injEq, exists_eq_left', forall_eq']
      cases hrefs : line.refs with
      | none => simp
      | some refs =>
          simp only [Option.getD_some, Option.some.injEq, reduceCtorEq,
            false_implies, and_true]
          tauto

/-- `rmmod` asks the kernel to delete exactly the unused module if and only if
the listing is reliable for it. -/
theorem rmmodListing_deletes_unused_iff
    (path : List Char) (lines : List ModuleLine) (system : System) :
    ((moduleName path, removalFlags) ∈ (rmmodListing path lines system).deleted ↔
        Unused (moduleName path) lines) ↔
      Reliable (moduleName path) system.vars.refs lines := by
  rw [rmmodListing_deleted_iff]
  exact permits_iff_unused_iff (moduleName path) system.vars.refs lines

def unusedLine : ModuleLine :=
  ⟨['a', ' ', '1', ' ', '0'], by decide, by decide, by decide, by decide⟩

def bareLine : ModuleLine :=
  ⟨['m'], by decide, by decide, by decide, by decide⟩

/-- The line of `m` has no reference count, and the zero of `a` is taken for
it. -/
theorem rmmodListing_deletes_after_unused :
    ¬ ((moduleName ['m'], removalFlags) ∈
        (rmmodListing ['m'] [unusedLine, bareLine]
          ⟨.opened [], true, ⟨[], 0, 5⟩, fun _ _ => 0⟩).deleted ↔
      Unused (moduleName ['m']) [unusedLine, bareLine]) := by
  intro hiff
  have hdeleted : (moduleName ['m'], removalFlags) ∈
      (rmmodListing ['m'] [unusedLine, bareLine]
        ⟨.opened [], true, ⟨[], 0, 5⟩, fun _ _ => 0⟩).deleted := by
    decide
  have hbare : (moduleLine (moduleName ['m'])
      [unusedLine, bareLine]).map ModuleLine.refs = some none := by
    decide
  obtain ⟨line, hline, hrefs⟩ := hiff.mp hdeleted
  rw [hline, Option.map_some, hrefs] at hbare
  simp at hbare

end LinuxKernelCode.Rmmod
