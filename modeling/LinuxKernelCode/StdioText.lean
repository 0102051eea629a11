import Mathlib.Data.List.Basic
import Mathlib.Data.BitVec
import Mathlib.Tactic

/-!
# Text input of the C library

A string is the list of its characters, without the closing zero, and a stream
is the list of characters that are still to be read.  The functions follow the
C standard: `fgets` reads up to a newline or until its buffer is full, the
conversions of `scanf` skip white space in front of a field, and a number that
does not fit is read as the largest `unsigned long`.
-/

namespace LinuxKernelCode.Stdio

/-! ## Reading lines -/

def fgetsLoop : ℕ → List Char → List Char × List Char
  | 0, stream => ([], stream)
  | _ + 1, [] => ([], [])
  | room + 1, c :: stream =>
      if c = '\n' then ([c], stream)
      else
        let rest := fgetsLoop room stream
        (c :: rest.1, rest.2)

/-- A line of at most `size - 1` characters and the rest of the stream. -/
def fgets (size : ℕ) (stream : List Char) : Option (List Char × List Char) :=
  if stream = [] then none else some (fgetsLoop (size - 1) stream)

theorem fgetsLoop_line
    {room : ℕ} {text : List Char} (hnewline : '\n' ∉ text)
    (hroom : text.length < room) (stream : List Char) :
    fgetsLoop room (text ++ '\n' :: stream) = (text ++ ['\n'], stream) := by
  induction text generalizing room with
  | nil =>
      cases room with
      | zero => simp at hroom
      | succ room => rfl
  | cons c text ih =>
      simp only [List.mem_cons, not_or] at hnewline
      cases room with
      | zero => simp at hroom
      | succ room =>
          have hrest := ih hnewline.2 (by simpa using hroom)
          have hne : c ≠ '\n' := fun heq => hnewline.1 heq.symm
          simp [fgetsLoop, hne, hrest]

theorem newline_notMem_fgetsLoop
    {room : ℕ} {text : List Char} (hnewline : '\n' ∉ text)
    (hroom : room ≤ text.length) (stream : List Char) :
    '\n' ∉ (fgetsLoop room (text ++ stream)).1 := by
  induction text generalizing room with
  | nil =>
      rw [Nat.le_zero.mp hroom]
      simp [fgetsLoop]
  | cons c text ih =>
      simp only [List.mem_cons, not_or] at hnewline
      cases room with
      | zero => simp [fgetsLoop]
      | succ room =>
          have hrest := ih hnewline.2 (by simpa using hroom)
          have hne : c ≠ '\n' := fun heq => hnewline.1 heq.symm
          simp [fgetsLoop, hne, hrest, hnewline.1]

/-! ## Conversions -/

/-- `isspace` of the C locale. -/
def isSpace (c : Char) : Bool :=
  c = ' ' || (9 ≤ c.toNat && c.toNat ≤ 13)

/-- The first field of a text, empty if there is none. -/
def firstField (text : List Char) : List Char :=
  (text.dropWhile isSpace).takeWhile fun c => !isSpace c

/-- The conversion `%s`: the field and what follows it. -/
def scanWord (text : List Char) : Option (List Char × List Char) :=
  if firstField text = [] then none
  else
    some (firstField text,
      (text.dropWhile isSpace).dropWhile fun c => !isSpace c)

/-- The value of decimal digits, with a sign, as `strtoul` returns it. -/
def strtoul (negative : Bool) (digits : List Char) : BitVec 64 :=
  let magnitude := Nat.ofDigitChars 10 digits 0
  if 2 ^ 64 ≤ magnitude then BitVec.allOnes 64
  else if negative then -BitVec.ofNat 64 magnitude
  else BitVec.ofNat 64 magnitude

def scanDigits (negative : Bool) (text : List Char) :
    Option (BitVec 64 × List Char) :=
  if text.takeWhile Char.isDigit = [] then none
  else
    some (strtoul negative (text.takeWhile Char.isDigit),
      text.dropWhile Char.isDigit)

/-- The conversion `%lu`. -/
def scanUnsigned (text : List Char) : Option (BitVec 64 × List Char) :=
  match text.dropWhile isSpace with
  | '-' :: rest => scanDigits true rest
  | '+' :: rest => scanDigits false rest
  | rest => scanDigits false rest

/-! ## Searching a string -/

/-- The rest of the string from the last occurrence of a character on. -/
def strrchr (string : List Char) (wanted : Char) : Option (List Char) :=
  match string with
  | [] => none
  | c :: rest =>
      match strrchr rest wanted with
      | some found => some found
      | none => if c = wanted then some (c :: rest) else none

theorem strrchr_eq_none_iff (string : List Char) (wanted : Char) :
    strrchr string wanted = none ↔ wanted ∉ string := by
  induction string with
  | nil => simp [strrchr]
  | cons c rest ih =>
      unfold strrchr
      cases hrest : strrchr rest wanted with
      | some found =>
          have hmem : wanted ∈ rest := by
            by_contra hnot
            rw [ih.mpr hnot] at hrest
            contradiction
          simp [hmem]
      | none =>
          have hnot := ih.mp hrest
          by_cases heq : c = wanted
          · simp [heq]
          · have hne : wanted ≠ c := fun h => heq h.symm
            simp [heq, hne, hnot]

/-- The text behind the last occurrence. -/
theorem strrchr_eq_some
    {string found : List Char} {wanted : Char}
    (hfound : strrchr string wanted = some found) :
    ∃ before after, string = before ++ wanted :: after ∧
      found = wanted :: after ∧ wanted ∉ after := by
  induction string with
  | nil => simp [strrchr] at hfound
  | cons c rest ih =>
      unfold strrchr at hfound
      cases hrest : strrchr rest wanted with
      | some later =>
          rw [hrest] at hfound
          obtain ⟨before, after, hstring, hlater, hnot⟩ :=
            ih (hrest.trans hfound)
          exact ⟨c :: before, after, by simp [hstring], hlater, hnot⟩
      | none =>
          rw [hrest] at hfound
          simp only [Option.ite_none_right_eq_some, Option.some.injEq] at hfound
          obtain ⟨rfl, rfl⟩ := hfound
          exact ⟨[], rest, rfl, rfl, (strrchr_eq_none_iff rest c).mp hrest⟩

end LinuxKernelCode.Stdio
