import Mathlib.Data.List.Basic
import Mathlib.Data.List.Infix
import Mathlib.Data.List.TakeWhile

/-!
# Words of a text

`strtok` gives the words of a text one after another: it skips separators,
cuts a word off in front of the next separator, and goes on behind it.  A loop
over `strtok` sees the pieces between separators that are not empty, in order.

`strstr` looks for one text inside another.
-/

namespace LinuxKernelCode.Tokens

variable {α σ ε : Type}

section Words

variable (separator : α → Bool)

/-- The next word, and the text behind the separator that ends it. -/
def strtok (text : List α) : Option (List α × List α) :=
  match text.dropWhile separator with
  | [] => none
  | first :: rest =>
      some (first :: rest.takeWhile fun c => !separator c,
        (rest.dropWhile fun c => !separator c).drop 1)

/-- `while ((word = strtok(...)) != NULL)` with its body. -/
def tokenLoop (handle : σ → List α → Except ε σ) :
    ℕ → List α → σ → Except ε σ
  | 0, _, state => .ok state
  | rounds + 1, text, state =>
      match strtok separator text with
      | none => .ok state
      | some (word, rest) => do
          let state ← handle state word
          tokenLoop handle rounds rest state

/-- The pieces between separators that are not empty. -/
def words (text : List α) : List (List α) :=
  (text.splitOnP separator).filter fun piece => !piece.isEmpty

variable {separator}

theorem words_cons_separator
    {c : α} (hseparator : separator c) (text : List α) :
    words separator (c :: text) = words separator text := by
  simp [words, List.splitOnP_cons_eq_if_modifyHead, hseparator]

theorem words_dropWhile (text : List α) :
    words separator (text.dropWhile separator) = words separator text := by
  induction text with
  | nil => rfl
  | cons c text ih =>
      by_cases hseparator : separator c
      · rw [List.dropWhile_cons_of_pos hseparator,
          words_cons_separator hseparator, ih]
      · rw [List.dropWhile_cons_of_neg hseparator]

theorem words_word
    {word : List α} (hword : ∀ c ∈ word, separator c = false)
    (hne : word ≠ []) : words separator word = [word] := by
  simp [words, List.splitOnP_eq_singleton hword, hne]

theorem words_word_append
    {word : List α} (hword : ∀ c ∈ word, separator c = false)
    (hne : word ≠ []) {c : α} (hseparator : separator c) (rest : List α) :
    words separator (word ++ c :: rest) =
      word :: words separator rest := by
  simp [words, List.splitOnP_append_cons_of_forall_mem hword c hseparator,
    hne]

/-- The first word, from its first character on. -/
theorem words_cons
    {first : α} (hfirst : separator first = false) (rest : List α) :
    words separator (first :: rest) =
      (first :: rest.takeWhile fun c => !separator c) ::
        words separator ((rest.dropWhile fun c => !separator c).drop 1) := by
  have hword : ∀ c ∈ first :: rest.takeWhile (fun c => !separator c),
      separator c = false := by
    intro c hc
    rcases List.mem_cons.mp hc with rfl | hc
    · exact hfirst
    · simpa using List.mem_takeWhile_imp hc
  have hsplit := List.takeWhile_append_dropWhile
    (p := fun c => !separator c) (l := rest)
  cases hbehind : rest.dropWhile fun c => !separator c with
  | nil =>
      rw [hbehind, List.append_nil] at hsplit
      rw [hsplit] at hword ⊢
      rw [words_word hword (List.cons_ne_nil _ _)]
      rfl
  | cons c behind =>
      have hseparator : separator c := by
        have hhead := List.head?_dropWhile_not (fun c => !separator c) rest
        rw [hbehind] at hhead
        simpa using hhead
      have happend := words_word_append hword (List.cons_ne_nil _ _)
        hseparator behind
      rw [List.cons_append, ← hbehind, hsplit] at happend
      exact happend

theorem words_of_strtok
    {text word rest : List α}
    (hstrtok : strtok separator text = some (word, rest)) :
    words separator text = word :: words separator rest ∧
      rest.length < text.length := by
  have hbegins := List.head?_dropWhile_not separator text
  have hshort := List.length_dropWhile_le separator text
  rw [← words_dropWhile text]
  unfold strtok at hstrtok
  cases hbegin : text.dropWhile separator with
  | nil => simp [hbegin] at hstrtok
  | cons first behind =>
      rw [hbegin] at hbegins hshort hstrtok
      simp only [Option.some.injEq, Prod.mk.injEq] at hstrtok
      obtain ⟨rfl, rfl⟩ := hstrtok
      refine ⟨words_cons (by simpa using hbegins) behind, ?_⟩
      have hbehind := List.length_dropWhile_le
        (fun c => !separator c) behind
      rw [List.length_drop]
      rw [List.length_cons] at hshort
      omega

theorem words_of_strtok_none
    {text : List α} (hstrtok : strtok separator text = none) :
    words separator text = [] := by
  rw [← words_dropWhile text]
  unfold strtok at hstrtok
  cases hbegin : text.dropWhile separator with
  | nil => simp [words]
  | cons first behind => simp [hbegin] at hstrtok

theorem tokenLoop_eq
    (handle : σ → List α → Except ε σ) {rounds : ℕ} {text : List α}
    (hrounds : text.length ≤ rounds) (state : σ) :
    tokenLoop separator handle rounds text state =
      (words separator text).foldlM handle state := by
  induction rounds generalizing text state with
  | zero =>
      have hnil : text = [] := by
        rw [← List.length_eq_zero_iff]
        omega
      subst hnil
      rfl
  | succ rounds ih =>
      unfold tokenLoop
      cases hstrtok : strtok separator text with
      | none =>
          rw [words_of_strtok_none hstrtok]
          rfl
      | some found =>
          obtain ⟨hwords, hshort⟩ := words_of_strtok hstrtok
          rw [hwords, List.foldlM_cons]
          show handle state found.1 >>= _ = _
          congr 1
          funext next
          exact ih (by omega) next

end Words

section Search

variable [DecidableEq α]

/-- The rest of the text from the first occurrence on. -/
def strstr (text wanted : List α) : Option (List α) :=
  if wanted <+: text then some text
  else
    match text with
    | [] => none
    | _ :: rest => strstr rest wanted

theorem strstr_isSome_iff (text wanted : List α) :
    (strstr text wanted).isSome ↔ wanted <:+: text := by
  induction text with
  | nil =>
      unfold strstr
      by_cases hfront : wanted <+: []
      · simp [hfront, hfront.isInfix]
      · have hne : wanted ≠ [] := by simpa using hfront
        simp [hne]
  | cons c rest ih =>
      unfold strstr
      rw [List.infix_cons_iff, ← ih]
      by_cases hfront : wanted <+: c :: rest
      · simp [hfront]
      · simp [hfront]

end Search

end LinuxKernelCode.Tokens
