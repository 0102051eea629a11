import LinuxKernelCode.DecimalText
import LinuxKernelCode.StdioText
import LinuxKernelCode.StringTokens

/-!
# Looking up a symbol in the system map

`read_system_map.c` reads the map of the running kernel line by line, prints
the first line that has `sys_call_table` in it, and then the words of this line
one by one.

A line is read into an array of 1024 characters, of which `fgets` is told to
use all but one, so a line of more than 1022 characters comes in pieces.  The
symbol is found in a piece or not at all.
-/

namespace LinuxKernelCode.SystemMap

open LinuxKernelCode.DecimalText
open LinuxKernelCode.Stdio
open LinuxKernelCode.Tokens

abbrev Text := List Char

def symbol : Text := "sys_call_table".toList

def sizeofLine : ℕ := 1024

/-- The characters in front of the closing zero. -/
def cString (line : Text) : Text := line.takeWhile (· ≠ nul)

/-- The loop over the file, up to the line that is printed. -/
def searchLoop : ℕ → Text → Option Text
  | 0, _ => none
  | rounds + 1, file =>
      match fgets (sizeofLine - 1) file with
      | none => none
      | some (line, file) =>
          match strstr (cString line) symbol with
          | none => searchLoop rounds file
          | some _ => some (cString line)

def blank (c : Char) : Bool := c = ' '

def printElement (printed splitElement : Text) : Except Empty Text :=
  .ok (printed ++ splitElement ++ ['\n'])

/-- The line, and the loop over `strtok_r`. -/
def printLine (line printed : Text) : Text :=
  match tokenLoop blank printElement line.length line (printed ++ line) with
  | .ok printed => printed
  | .error stop => nomatch stop

structure Outcome where
  status : ℕ
  stdout : Text
  stderr : Text
  deriving DecidableEq, Repr

/-- `main`, given the release that `uname` reports, or the error it fails with,
and the contents of the files that can be opened. -/
def main (uname : Except Text Text) (fopen : Text → Option Text) : Outcome :=
  match uname with
  | .error strerror => ⟨1, [], strerror ++ ":uname(2)\n".toList⟩
  | .ok release =>
      let sysmapFile := "/boot/System.map-".toList ++ release
      let printed := sysmapFile ++ ['\n']
      match fopen sysmapFile with
      | none =>
          ⟨1, printed ++ "Fail to open the system.map file\n".toList, []⟩
      | some file =>
          match searchLoop file.length file with
          | none => ⟨0, printed, []⟩
          | some line => ⟨0, printLine line printed, []⟩

/-! ## The pieces of a file -/

/-- How a piece ends: with its line, with the array, or with the file. -/
inductive Piece (room : ℕ) : Text → Text → Prop
  | line (text rest : Text) (hnewline : '\n' ∉ text)
      (hroom : text.length < room) : Piece room (text ++ ['\n']) rest
  | full (piece rest : Text) (hnewline : '\n' ∉ piece)
      (hroom : piece.length = room) : Piece room piece rest
  | last (piece : Text) (hnewline : '\n' ∉ piece)
      (hroom : piece.length ≤ room) : Piece room piece []

theorem fgetsLoop_append (room : ℕ) (file : Text) :
    (fgetsLoop room file).1 ++ (fgetsLoop room file).2 = file := by
  induction room generalizing file with
  | zero => rfl
  | succ room ih =>
      cases file with
      | nil => rfl
      | cons c file =>
          simp only [fgetsLoop]
          split
          · rfl
          · simp [ih file]

theorem fgetsLoop_piece (room : ℕ) (file : Text) :
    Piece room (fgetsLoop room file).1 (fgetsLoop room file).2 := by
  induction room generalizing file with
  | zero => exact .full [] file (by simp) rfl
  | succ room ih =>
      cases file with
      | nil => exact .last [] (by simp) (by simp)
      | cons c file =>
          simp only [fgetsLoop]
          split
          · rename_i heq
            subst heq
            exact .line [] file (by simp) (by simp)
          · rename_i hne
            have hother : '\n' ≠ c := fun heq => hne heq.symm
            generalize hpiece : (fgetsLoop room file).1 = piece
            generalize hrest : (fgetsLoop room file).2 = rest
            have hih := ih file
            rw [hpiece, hrest] at hih
            cases hih with
            | line text rest hnewline hroom =>
                exact .line (c :: text) rest
                  (by simp [hother, hnewline]) (by simpa using hroom)
            | full piece rest hnewline hroom =>
                exact .full (c :: piece) rest
                  (by simp [hother, hnewline]) (by simpa using hroom)
            | last piece hnewline hroom =>
                exact .last (c :: piece)
                  (by simp [hother, hnewline]) (by simpa using hroom)

/-- How far a line has come at the end of a text. -/
def column (text : Text) : ℕ := (text.reverse.takeWhile (· ≠ '\n')).length

theorem column_le (text : Text) : column text ≤ text.length := by
  have hle := (List.takeWhile_sublist (fun c => decide (c ≠ '\n'))
    (l := text.reverse)).length_le
  rwa [List.length_reverse] at hle

theorem column_newline (text : Text) : column (text ++ ['\n']) = 0 := by
  simp [column]

theorem column_append_of_mem
    (front : Text) {text : Text} (hnewline : '\n' ∈ text) :
    column (front ++ text) = column text := by
  have hstops : (text.reverse.takeWhile (· ≠ '\n')).length ≠
      text.reverse.length := by
    intro hall
    have hself := (List.takeWhile_prefix
      (fun c => decide (c ≠ '\n')) (l := text.reverse)).eq_of_length hall
    rw [List.takeWhile_eq_self_iff] at hself
    simpa using hself '\n' (List.mem_reverse.mpr hnewline)
  simp only [column, List.reverse_append]
  rw [List.takeWhile_append, if_neg hstops]

theorem column_append_of_notMem
    (front : Text) {text : Text} (hnewline : '\n' ∉ text) :
    column (front ++ text) = column front + text.length := by
  have hall : text.reverse.takeWhile (· ≠ '\n') = text.reverse := by
    rw [List.takeWhile_eq_self_iff]
    intro c hc
    have hne : c ≠ '\n' := fun heq =>
      hnewline (heq ▸ List.mem_reverse.mp hc)
    simpa using hne
  simp only [column, List.reverse_append]
  rw [List.takeWhile_append, hall, if_pos rfl, List.length_append,
    List.length_reverse, Nat.add_comm]

theorem column_of_notMem {text : Text} (hnewline : '\n' ∉ text) :
    column text = text.length := by
  have hcolumn := column_append_of_notMem [] hnewline
  simpa [column] using hcolumn

/-- A piece in front moves the columns behind it by a whole number of pieces,
or not at all. -/
theorem Piece.column_append
    {room : ℕ} {piece rest : Text} (hpiece : Piece room piece rest)
    {text : Text} (htext : rest ≠ []) :
    column (piece ++ text) % room = column text % room := by
  by_cases hnewline : '\n' ∈ text
  · rw [column_append_of_mem _ hnewline]
  · rw [column_append_of_notMem _ hnewline, column_of_notMem hnewline]
    cases hpiece with
    | line front rest hfront hroom => rw [column_newline, Nat.zero_add]
    | full piece rest hfull hroom =>
        rw [column_of_notMem hfull, hroom, Nat.add_mod_left]
    | last piece hlast hroom => exact absurd rfl htext

theorem Piece.length_le
    {room : ℕ} {piece rest : Text} (hpiece : Piece room piece rest) :
    piece.length ≤ room := by
  cases hpiece with
  | line text rest hnewline hroom => simpa using hroom
  | full piece rest hnewline hroom => exact hroom.le
  | last piece hnewline hroom => exact hroom

/-- There is no newline in front of the end of a piece. -/
theorem Piece.newline_notMem
    {room : ℕ} {piece rest : Text} (hpiece : Piece room piece rest)
    {front back : Text} (hsplit : piece = front ++ back) (hback : back ≠ []) :
    '\n' ∉ front := by
  cases hpiece with
  | line text rest hnewline hroom =>
      intro hmem
      rcases List.eq_nil_or_concat' back with rfl | ⟨init, c, rfl⟩
      · exact hback rfl
      · rw [← List.append_assoc] at hsplit
        have htext := (List.append_inj' hsplit rfl).1
        exact hnewline (by simp [htext, hmem])
  | full piece rest hnewline hroom =>
      exact fun hmem => hnewline (by simp [hsplit, hmem])
  | last piece hnewline hroom =>
      exact fun hmem => hnewline (by simp [hsplit, hmem])

/-- A text without a newline that starts in a piece and has room in it ends in
it. -/
theorem Piece.prefix_of_fits
    {room : ℕ} {piece rest : Text} (hpiece : Piece room piece rest)
    {text after : Text} (hfile : piece ++ rest = text ++ after)
    (hnewline : '\n' ∉ text) (hfits : text.length ≤ room) :
    text <+: piece := by
  rcases List.prefix_or_prefix_of_prefix
    (⟨rest, hfile⟩ : piece <+: text ++ after) (List.prefix_append text after)
    with hshort | hlong
  · cases hpiece with
    | line front rest hfront hroom =>
        exact absurd (hshort.subset (by simp)) hnewline
    | full piece rest hfull hroom =>
        rw [hshort.eq_of_length (Nat.le_antisymm hshort.length_le
          (hfits.trans_eq hroom.symm))]
    | last piece hlast hroom =>
        rw [List.append_nil] at hfile
        rw [hfile]
        exact List.prefix_append text after
  · exact hlong

/-! ## What is found -/

/-- An occurrence that lies in one piece of its line, with no zero in front of
it in the same piece. -/
def Visible (room : ℕ) (wanted file : Text) : Prop :=
  ∃ before after, file = before ++ (wanted ++ after) ∧
    column before % room + wanted.length ≤ room ∧
    nul ∉ before.drop (before.length - column before % room)

theorem infix_cString_iff
    {wanted : Text} (hnul : nul ∉ wanted) (piece : Text) :
    wanted <:+: cString piece ↔
      ∃ before after, piece = before ++ (wanted ++ after) ∧
        nul ∉ before := by
  constructor
  · rintro ⟨before, after, hsplit⟩
    refine ⟨before, after ++ piece.dropWhile (· ≠ nul), ?_, ?_⟩
    · have happend := List.takeWhile_append_dropWhile
        (p := fun c => decide (c ≠ nul)) (l := piece)
      rw [← cString, ← hsplit] at happend
      simpa using happend.symm
    · intro hmem
      have hkept : nul ∈ cString piece := by
        rw [← hsplit]
        simp [hmem]
      simpa using List.mem_takeWhile_imp hkept
  · rintro ⟨before, after, rfl, hbefore⟩
    have hall : ∀ c ∈ before ++ wanted, decide (c ≠ nul) = true := by
      intro c hc
      rw [decide_eq_true_eq]
      rintro rfl
      rcases List.mem_append.mp hc with hc | hc
      · exact hbefore hc
      · exact hnul hc
    rw [cString, ← List.append_assoc, List.takeWhile_append_of_pos hall]
    exact ⟨before, _, rfl⟩

section Found

variable {room : ℕ} {wanted piece rest : Text}

theorem visible_in_piece_iff
    (hpiece : Piece room piece rest) (hne : wanted ≠ [])
    (hnewline : '\n' ∉ wanted) (hnul : nul ∉ wanted) :
    wanted <:+: cString piece ↔
      ∃ before after, piece ++ rest = before ++ (wanted ++ after) ∧
        before.length < piece.length ∧
        column before % room + wanted.length ≤ room ∧
        nul ∉ before.drop (before.length - column before % room) := by
  rw [infix_cString_iff hnul]
  constructor
  · rintro ⟨before, after, rfl, hbefore⟩
    have hlength := hpiece.length_le
    have hpos := List.length_pos_of_ne_nil hne
    simp only [List.length_append] at hlength
    have hcolumn : column before % room = before.length := by
      rw [column_of_notMem (hpiece.newline_notMem rfl (by simp [hne]))]
      exact Nat.mod_eq_of_lt (by omega)
    refine ⟨before, after ++ rest, by simp, ?_, ?_, ?_⟩
    · simp only [List.length_append]
      omega
    · rw [hcolumn]
      omega
    · rw [hcolumn, Nat.sub_self]
      exact hbefore
  · rintro ⟨before, after, hfile, hstart, hfits, hbefore⟩
    have hlength := hpiece.length_le
    have hfront : before <+: piece := by
      rcases List.prefix_or_prefix_of_prefix
        (⟨rest, hfile⟩ : piece <+: before ++ (wanted ++ after))
        (List.prefix_append before _) with hshort | hlong
      · have hle := hshort.length_le
        omega
      · exact hlong
    obtain ⟨back, hsplit⟩ := hfront
    have hback : back ≠ [] := by
      rintro rfl
      rw [List.append_nil] at hsplit
      rw [hsplit] at hstart
      exact Nat.lt_irrefl _ hstart
    have hplain := hpiece.newline_notMem hsplit.symm hback
    have hcolumn : column before % room = before.length := by
      rw [column_of_notMem hplain]
      exact Nat.mod_eq_of_lt (by omega)
    rw [hcolumn] at hfits hbefore
    rw [Nat.sub_self] at hbefore
    obtain ⟨tail, htail⟩ := hpiece.prefix_of_fits
      (hfile.trans (List.append_assoc _ _ _).symm)
      (by simp [hplain, hnewline]) (by simpa using hfits)
    exact ⟨before, tail, by rw [← htail, List.append_assoc], hbefore⟩

/-- An occurrence is visible in the first piece, or behind it. -/
theorem visible_append_iff
    (hpiece : Piece room piece rest) (hne : wanted ≠ [])
    (hnewline : '\n' ∉ wanted) (hnul : nul ∉ wanted) :
    Visible room wanted (piece ++ rest) ↔
      wanted <:+: cString piece ∨ Visible room wanted rest := by
  rw [visible_in_piece_iff hpiece hne hnewline hnul]
  have hshift : ∀ before after : Text, rest = before ++ (wanted ++ after) →
      column (piece ++ before) % room = column before % room ∧
      (piece ++ before).drop ((piece ++ before).length -
        column before % room) =
          before.drop (before.length - column before % room) := by
    intro before after hrest
    constructor
    · exact hpiece.column_append (by simp [hrest, hne])
    · have hle := (Nat.mod_le (column before) room).trans (column_le before)
      have hlength : (piece ++ before).length - column before % room =
          piece.length + (before.length - column before % room) := by
        rw [List.length_append]
        omega
      rw [hlength, List.drop_append, List.drop_eq_nil_of_le (by omega),
        List.nil_append, Nat.add_sub_cancel_left]
  constructor
  · rintro ⟨before, after, hfile, hfits, hbefore⟩
    by_cases hstart : before.length < piece.length
    · exact Or.inl ⟨before, after, hfile, hstart, hfits, hbefore⟩
    · right
      obtain ⟨later, rfl⟩ : piece <+: before :=
        List.prefix_of_prefix_length_le ⟨rest, hfile⟩
          (List.prefix_append before _) (by omega)
      have hrest : rest = later ++ (wanted ++ after) := by
        rw [List.append_assoc] at hfile
        exact List.append_cancel_left hfile
      obtain ⟨hcolumn, hdrop⟩ := hshift later after hrest
      rw [hcolumn] at hfits hbefore
      rw [hdrop] at hbefore
      exact ⟨later, after, hrest, hfits, hbefore⟩
  · rintro (⟨before, after, hfile, _, hfits, hbefore⟩ |
      ⟨before, after, hrest, hfits, hbefore⟩)
    · exact ⟨before, after, hfile, hfits, hbefore⟩
    · obtain ⟨hcolumn, hdrop⟩ := hshift before after hrest
      refine ⟨piece ++ before, after, by simp [hrest], ?_, ?_⟩
      · rw [hcolumn]
        exact hfits
      · rw [hcolumn, hdrop]
        exact hbefore

end Found

theorem symbol_ne_nil : symbol ≠ [] := by decide

theorem newline_notMem_symbol : '\n' ∉ symbol := by decide

theorem nul_notMem_symbol : nul ∉ symbol := by decide

theorem strstr_eq_none_iff (text : Text) :
    strstr text symbol = none ↔ ¬ symbol <:+: text := by
  rw [← strstr_isSome_iff, Option.not_isSome_iff_eq_none]

theorem length_fgetsLoop_lt
    {room : ℕ} (hroom : 0 < room) {file : Text} (hfile : file ≠ []) :
    (fgetsLoop room file).2.length < file.length := by
  cases file with
  | nil => exact absurd rfl hfile
  | cons c file =>
      obtain ⟨room, rfl⟩ := Nat.exists_eq_add_one_of_ne_zero hroom.ne'
      have happend := congrArg List.length (fgetsLoop_append room file)
      rw [List.length_append] at happend
      simp only [fgetsLoop]
      split
      · simp
      · simp only [List.length_cons]
        omega

/-- One round of the loop. -/
theorem searchLoop_succ
    {file : Text} (hfile : file ≠ []) (rounds : ℕ) :
    searchLoop (rounds + 1) file =
      if symbol <:+: cString (fgetsLoop 1022 file).1 then
        some (cString (fgetsLoop 1022 file).1)
      else searchLoop rounds (fgetsLoop 1022 file).2 := by
  have hfgets : fgets (sizeofLine - 1) file = some (fgetsLoop 1022 file) := by
    simp [fgets, hfile, sizeofLine]
  simp only [searchLoop, hfgets]
  split <;> rename_i hstrstr
  · rw [if_neg ((strstr_eq_none_iff _).mp hstrstr)]
  · have hfound : symbol <:+: cString (fgetsLoop 1022 file).1 := by
      rw [← strstr_isSome_iff, hstrstr]
      rfl
    rw [if_pos hfound]

theorem searchLoop_isSome_iff
    {rounds : ℕ} {file : Text} (hrounds : file.length ≤ rounds) :
    (searchLoop rounds file).isSome ↔ Visible 1022 symbol file := by
  have hnothing : ¬ Visible 1022 symbol [] := by
    rintro ⟨before, after, hnil, _⟩
    have hsymbol := symbol_ne_nil
    simp_all
  induction rounds generalizing file with
  | zero =>
      have hnil : file = [] := by
        rw [← List.length_eq_zero_iff]
        omega
      subst hnil
      simpa [searchLoop] using hnothing
  | succ rounds ih =>
      by_cases hfile : file = []
      · subst hfile
        simpa [searchLoop, fgets] using hnothing
      · have hshort := length_fgetsLoop_lt (show 0 < 1022 by decide) hfile
        have hvisible := visible_append_iff (fgetsLoop_piece 1022 file)
          symbol_ne_nil newline_notMem_symbol nul_notMem_symbol
        rw [fgetsLoop_append] at hvisible
        rw [hvisible, searchLoop_succ hfile]
        split <;> rename_i hfound
        · simp [hfound]
        · have hrest := ih (show (fgetsLoop 1022 file).2.length ≤ rounds by omega)
          exact hrest.trans (by simp [hfound])

/-- What the loop gives is a stretch of the file with the symbol in it. -/
theorem searchLoop_eq_some
    {rounds : ℕ} {file line : Text}
    (hsearch : searchLoop rounds file = some line) :
    symbol <:+: line ∧ line <:+: file := by
  induction rounds generalizing file with
  | zero => cases hsearch
  | succ rounds ih =>
      by_cases hfile : file = []
      · subst hfile
        simp [searchLoop, fgets] at hsearch
      · have happend := fgetsLoop_append 1022 file
        rw [searchLoop_succ hfile] at hsearch
        split at hsearch <;> rename_i hfound
        · cases hsearch
          have hpiece : (fgetsLoop 1022 file).1 <+: file := ⟨_, happend⟩
          exact ⟨hfound, ((List.takeWhile_prefix _).trans hpiece).isInfix⟩
        · obtain ⟨hsymbol, hline⟩ := ih hsearch
          have hrest : (fgetsLoop 1022 file).2 <:+ file := ⟨_, happend⟩
          exact ⟨hsymbol, hline.trans hrest.isInfix⟩

theorem printLine_eq (line printed : Text) :
    printLine line printed =
      printed ++ line ++ (words blank line).flatMap (· ++ ['\n']) := by
  have hfold : ∀ (elements : List Text) (printed : Text),
      elements.foldlM printElement printed =
        .ok (printed ++ elements.flatMap (· ++ ['\n'])) := by
    intro elements
    induction elements with
    | nil =>
        intro printed
        simp
        rfl
    | cons element elements ih =>
        intro printed
        rw [List.foldlM_cons]
        exact (ih _).trans (by simp)
  rw [printLine, tokenLoop_eq printElement (Nat.le_refl _), hfold]

/-- The name of the file, which is printed first. -/
def heading (release : Text) : Text :=
  "/boot/System.map-".toList ++ release ++ ['\n']

/-- The words of a line, each on a line of its own. -/
def elements (line : Text) : Text :=
  (words blank line).flatMap (· ++ ['\n'])

/-- Whatever is in the file, a stretch of it with the symbol is printed, and its
words, exactly if some occurrence is visible; otherwise nothing is. -/
theorem main_prints
    {release file : Text} {fopen : Text → Option Text}
    (hfopen : fopen ("/boot/System.map-".toList ++ release) = some file) :
    (Visible 1022 symbol file →
      ∃ line, symbol <:+: line ∧ line <:+: file ∧
        main (.ok release) fopen =
          ⟨0, heading release ++ line ++ elements line, []⟩) ∧
    (¬ Visible 1022 symbol file →
      main (.ok release) fopen = ⟨0, heading release, []⟩) := by
  have hfound := searchLoop_isSome_iff (Nat.le_refl file.length)
  simp only [main, hfopen]
  cases hsearch : searchLoop file.length file with
  | none =>
      rw [hsearch] at hfound
      constructor
      · intro hvisible
        exact absurd (hfound.mpr hvisible) (by simp)
      · intro _
        rfl
  | some line =>
      rw [hsearch] at hfound
      obtain ⟨hsymbol, hline⟩ := searchLoop_eq_some hsearch
      constructor
      · intro _
        refine ⟨line, hsymbol, hline, ?_⟩
        simp only [printLine_eq]
        rfl
      · intro hhidden
        exact absurd (hfound.mp rfl) hhidden

/-- A map of one line. -/
def oneLine : Text := "c1 R sys_call_table\n".toList

theorem visible_oneLine : Visible 1022 symbol oneLine :=
  ⟨"c1 R ".toList, "\n".toList, rfl, by decide, by decide⟩

theorem main_prints_oneLine :
    ∃ line, symbol <:+: line ∧ line <:+: oneLine ∧
      main (.ok "3".toList) (fun _ => some oneLine) =
        ⟨0, heading "3".toList ++ line ++ elements line, []⟩ :=
  (main_prints (show (fun _ : Text => some oneLine)
    ("/boot/System.map-".toList ++ "3".toList) = some oneLine from rfl)).1
    visible_oneLine

/-! ## Files of short lines -/

/-- A line that comes in one piece, without a zero in it. -/
structure Short (line : Text) : Prop where
  newline : '\n' ∉ line
  zero : nul ∉ line
  room : line.length < 1022

theorem Short.cString_eq {line : Text} (hshort : Short line) :
    cString (line ++ ['\n']) = line ++ ['\n'] := by
  rw [cString, List.takeWhile_eq_self_iff]
  intro c hc
  rw [decide_eq_true_eq]
  rintro rfl
  rcases List.mem_append.mp hc with hc | hc
  · exact hshort.zero hc
  · exact absurd hc (by decide)

theorem searchLoop_lines
    {lines : List Text} (hlines : ∀ line ∈ lines, Short line) {rounds : ℕ}
    (hrounds : lines.length ≤ rounds) :
    searchLoop rounds (lines.flatMap (· ++ ['\n'])) =
      (lines.find? fun line => symbol <:+: line ++ ['\n']).map
        (· ++ ['\n']) := by
  induction lines generalizing rounds with
  | nil => cases rounds <;> rfl
  | cons line lines ih =>
      have hshort := hlines line (by simp)
      simp only [List.length_cons] at hrounds
      obtain ⟨rounds, rfl⟩ :=
        Nat.exists_eq_add_one_of_ne_zero (show rounds ≠ 0 by omega)
      have hpiece := fgetsLoop_line hshort.newline hshort.room
        (lines.flatMap (· ++ ['\n']))
      have hfile : (line :: lines).flatMap (· ++ ['\n']) =
          line ++ '\n' :: lines.flatMap (· ++ ['\n']) := by simp
      rw [hfile, searchLoop_succ (by simp), hpiece, hshort.cString_eq,
        List.find?_cons]
      split <;> rename_i hfound
      · simp [hfound]
      · simp only [hfound, decide_false]
        exact ih (fun later hlater => hlines later (by simp [hlater]))
          (by omega)

theorem infix_concat_newline_iff (line : Text) :
    symbol <:+: line ++ ['\n'] ↔ symbol <:+: line := by
  constructor
  · rintro ⟨before, after, hsplit⟩
    rcases List.eq_nil_or_concat' after with rfl | ⟨init, c, rfl⟩
    · rw [List.append_nil] at hsplit
      have hlast := congrArg List.getLast? hsplit
      rw [List.getLast?_append_of_ne_nil _ symbol_ne_nil,
        List.getLast?_concat] at hlast
      exact absurd hlast (by decide)
    · rw [← List.append_assoc] at hsplit
      exact ⟨before, init, (List.append_inj' hsplit rfl).1⟩
  · intro hinfix
    exact hinfix.trans (List.prefix_append _ _).isInfix

/-- In a file of short lines the first line with the symbol is printed, and its
words. -/
theorem main_lines
    {release : Text} {lines : List Text} {fopen : Text → Option Text}
    (hlines : ∀ line ∈ lines, Short line)
    (hfopen : fopen ("/boot/System.map-".toList ++ release) =
      some (lines.flatMap (· ++ ['\n']))) :
    main (.ok release) fopen =
      match lines.find? fun line => symbol <:+: line with
      | none => ⟨0, heading release, []⟩
      | some line =>
          ⟨0, heading release ++ (line ++ ['\n']) ++
            elements (line ++ ['\n']), []⟩ := by
  have hlength : lines.length ≤ (lines.flatMap (· ++ ['\n'])).length := by
    clear hlines hfopen
    induction lines with
    | nil => simp
    | cons line lines ih =>
        simp only [List.flatMap_cons, List.length_append, List.length_cons]
        omega
  have hsearch := searchLoop_lines hlines hlength
  simp only [infix_concat_newline_iff] at hsearch
  simp only [main, hfopen, hsearch]
  cases hfind : lines.find? fun line => symbol <:+: line with
  | none => rfl
  | some line =>
      simp only [Option.map_some, printLine_eq]
      rfl

theorem short_twoLines :
    ∀ line ∈ ["c0 T _text".toList, "c1 R sys_call_table".toList],
      Short line := by
  intro line hline
  rcases List.mem_cons.mp hline with rfl | hline
  · exact ⟨by decide, by decide, by decide⟩
  · rw [List.mem_singleton.mp hline]
    exact ⟨by decide, by decide, by decide⟩

theorem main_lines_twoLines :
    main (.ok "3".toList)
        (fun _ => some "c0 T _text\nc1 R sys_call_table\n".toList) =
      ⟨0, "/boot/System.map-3\nc1 R sys_call_table\nc1\nR\nsys_call_table\n\n".toList,
        []⟩ :=
  main_lines short_twoLines rfl

end LinuxKernelCode.SystemMap
