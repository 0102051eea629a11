import LinuxKernelCode.StepRuns
import Mathlib.Data.List.Nodup

/-!
# Commands on a list of records

What a client may ask of a linked list, said on the list itself: to put a
record in at either end or beside another record, and to take records out.  A
command is allowed when the record it brings in exists and is not in the list
yet, and the record it refers to is in the list.

An implementation refines the commands when each allowed one succeeds on it
and keeps it in step with the list.  The contents of the records are no
business of the links, so they stay as they are.
-/

namespace LinuxKernelCode.ListCommands

open LinuxKernelCode.Runs

universe u v

variable {α δ : Type u}

inductive Command (α : Type u) where
  | insertHead (elm : α)
  | insertTail (elm : α)
  | insertAfter (listelm elm : α)
  | insertBefore (listelm elm : α)
  | remove (elm : α)
  | removeHead
  | removeHeadUntil (elm : α)
  deriving DecidableEq, Repr

section Lists

variable [DecidableEq α]

def insertAfter (listelm elm : α) : List α → List α
  | [] => []
  | record :: rest =>
      if record = listelm then record :: elm :: rest
      else record :: insertAfter listelm elm rest

def insertBefore (listelm elm : α) : List α → List α
  | [] => []
  | record :: rest =>
      if record = listelm then elm :: record :: rest
      else record :: insertBefore listelm elm rest

def removeUntil (elm : α) : List α → List α
  | [] => []
  | record :: rest => if record = elm then rest else removeUntil elm rest

def Command.apply (records : List α) : Command α → List α
  | .insertHead elm => elm :: records
  | .insertTail elm => records ++ [elm]
  | .insertAfter listelm elm => ListCommands.insertAfter listelm elm records
  | .insertBefore listelm elm => ListCommands.insertBefore listelm elm records
  | .remove elm => records.erase elm
  | .removeHead => records.tail
  | .removeHeadUntil elm => removeUntil elm records

end Lists

/-- The record exists and is in no list yet. -/
def Loose (contents : α → Option δ) (records : List α) (elm : α) : Prop :=
  (contents elm).isSome ∧ elm ∉ records

def Command.Allowed (contents : α → Option δ) (records : List α) :
    Command α → Prop
  | .insertHead elm => Loose contents records elm
  | .insertTail elm => Loose contents records elm
  | .insertAfter listelm elm => listelm ∈ records ∧ Loose contents records elm
  | .insertBefore listelm elm => listelm ∈ records ∧ Loose contents records elm
  | .remove elm => elm ∈ records
  | .removeHead => records ≠ []
  | .removeHeadUntil elm => elm ∈ records

instance [DecidableEq α] (contents : α → Option δ) (records : List α)
    (elm : α) : Decidable (Loose contents records elm) :=
  inferInstanceAs (Decidable (_ ∧ _))

instance [DecidableEq α] (contents : α → Option δ) (records : List α) :
    (command : Command α) → Decidable (command.Allowed contents records)
  | .insertHead elm => inferInstanceAs (Decidable (Loose contents records elm))
  | .insertTail elm => inferInstanceAs (Decidable (Loose contents records elm))
  | .insertAfter _ _ => inferInstanceAs (Decidable (_ ∧ _))
  | .insertBefore _ _ => inferInstanceAs (Decidable (_ ∧ _))
  | .remove elm => inferInstanceAs (Decidable (elm ∈ records))
  | .removeHead => inferInstanceAs (Decidable (records ≠ []))
  | .removeHeadUntil elm => inferInstanceAs (Decidable (elm ∈ records))

/-! ## Commands at a split of the list -/

section Split

variable [DecidableEq α] {before behind : List α} {listelm elm : α}

theorem insertAfter_split (hnot : listelm ∉ before) :
    insertAfter listelm elm (before ++ listelm :: behind) =
      before ++ listelm :: elm :: behind := by
  induction before with
  | nil => simp [insertAfter]
  | cons record rest ih =>
      simp only [List.mem_cons, not_or] at hnot
      simp [insertAfter, Ne.symm hnot.1, ih hnot.2]

theorem insertBefore_split (hnot : listelm ∉ before) :
    insertBefore listelm elm (before ++ listelm :: behind) =
      before ++ elm :: listelm :: behind := by
  induction before with
  | nil => simp [insertBefore]
  | cons record rest ih =>
      simp only [List.mem_cons, not_or] at hnot
      simp [insertBefore, Ne.symm hnot.1, ih hnot.2]

theorem erase_split (hnot : elm ∉ before) :
    (before ++ elm :: behind).erase elm = before ++ behind := by
  rw [List.erase_append_right _ hnot, List.erase_cons_head]

theorem removeUntil_split (hnot : elm ∉ before) :
    removeUntil elm (before ++ elm :: behind) = behind := by
  induction before with
  | nil => simp [removeUntil]
  | cons record rest ih =>
      simp only [List.mem_cons, not_or] at hnot
      simp [removeUntil, Ne.symm hnot.1, ih hnot.2]

end Split

/-! ## How long the list gets -/

section Lengths

variable [DecidableEq α]

theorem length_insertAfter_le (listelm elm : α) (records : List α) :
    (insertAfter listelm elm records).length ≤ records.length + 1 := by
  induction records with
  | nil => simp [insertAfter]
  | cons record rest ih =>
      by_cases hrecord : record = listelm
      · simp [insertAfter, hrecord]
      · simpa [insertAfter, hrecord] using ih

theorem length_insertBefore_le (listelm elm : α) (records : List α) :
    (insertBefore listelm elm records).length ≤ records.length + 1 := by
  induction records with
  | nil => simp [insertBefore]
  | cons record rest ih =>
      by_cases hrecord : record = listelm
      · simp [insertBefore, hrecord]
      · simpa [insertBefore, hrecord] using ih

theorem length_removeUntil_le (elm : α) (records : List α) :
    (removeUntil elm records).length ≤ records.length := by
  induction records with
  | nil => simp [removeUntil]
  | cons record rest ih =>
      by_cases hrecord : record = elm
      · simp [removeUntil, hrecord]
      · simp only [removeUntil, hrecord, if_false, List.length_cons]
        omega

theorem Command.length_apply_le (command : Command α) (records : List α) :
    (command.apply records).length ≤ records.length + 1 := by
  cases command with
  | insertHead elm => simp [Command.apply]
  | insertTail elm => simp [Command.apply]
  | insertAfter listelm elm => exact length_insertAfter_le listelm elm records
  | insertBefore listelm elm =>
      exact length_insertBefore_le listelm elm records
  | remove elm =>
      have hle : (records.erase elm).length ≤ records.length :=
        List.length_erase_le
      simp only [Command.apply]
      omega
  | removeHead =>
      simp only [Command.apply, List.length_tail]
      omega
  | removeHeadUntil elm =>
      have hle := length_removeUntil_le elm records
      simp only [Command.apply]
      omega

end Lengths

/-! ## Refinement -/

section Refinement

variable {η ω : Type u} {ε : Type v} [DecidableEq α]

/-- The list after a word of operations. -/
def applyAll (command : ω → Command α) (records : List α)
    (operations : List ω) : List α :=
  operations.foldl (fun records operation => (command operation).apply records)
    records

/-- A run of operations leaves at most one record for each of them, beside
those it started with. -/
theorem length_applyAll_le
    (command : ω → Command α) (records : List α) (operations : List ω) :
    (applyAll command records operations).length ≤
      records.length + operations.length := by
  induction operations generalizing records with
  | nil => simp [applyAll]
  | cons operation rest ih =>
      have hone := (command operation).length_apply_le records
      have hrest := ih ((command operation).apply records)
      simp only [applyAll, List.foldl_cons, List.length_cons] at hrest ⊢
      omega

theorem length_applyAll_nil_le
    (command : ω → Command α) {operations : List ω} {fuel : ℕ}
    (hfuel : operations.length ≤ fuel) :
    (applyAll command [] operations).length ≤ fuel := by
  have hle := length_applyAll_le command [] operations
  simp only [List.length_nil] at hle
  omega

/-- Every operation is allowed at the point where it is taken. -/
def AllowedAll (command : ω → Command α) (contents : α → Option δ)
    (records : List α) (operations : List ω) : Prop :=
  Guarded (fun records operation => (command operation).apply records)
    (fun records operation => (command operation).Allowed contents records)
    records operations

instance (command : ω → Command α) (contents : α → Option δ)
    (records : List α) (operations : List ω) :
    Decidable (AllowedAll command contents records operations) :=
  inferInstanceAs (Decidable (Guarded _ _ _ _))

/-- On lists up to a capacity, every operation of the implementation that is
allowed as a command succeeds, does what the command does and leaves the
contents alone. -/
structure Refines
    (perform : η → ω → Except ε η) (command : ω → Command α)
    (represents : η → List α → Prop) (contents : η → α → Option δ)
    (capacity : ℕ) : Prop where
  step : ∀ {heap records operation}, represents heap records →
    records.length ≤ capacity →
    (command operation).Allowed (contents heap) records →
    ∃ heap', perform heap operation = .ok heap' ∧
      represents heap' ((command operation).apply records) ∧
      contents heap' = contents heap

variable {perform : η → ω → Except ε η} {command : ω → Command α}
  {represents : η → List α → Prop} {contents : η → α → Option δ}
  {capacity : ℕ}

theorem AllowedAll.guarded_length
    {contents : α → Option δ} {records : List α} {operations : List ω}
    (hallowed : AllowedAll command contents records operations)
    (hlength : records.length + operations.length ≤ capacity) :
    Guarded (fun records operation => (command operation).apply records)
      (fun records operation =>
        (command operation).Allowed contents records ∧
          records.length ≤ capacity) records operations := by
  induction operations generalizing records with
  | nil => trivial
  | cons operation rest ih =>
      have hone := (command operation).length_apply_le records
      simp only [List.length_cons] at hlength
      have hfits : ((command operation).apply records).length + rest.length ≤
          capacity := by omega
      exact ⟨⟨hallowed.1, by omega⟩, ih hallowed.2 hfits⟩

theorem Refines.run
    (hrefines : Refines perform command represents contents capacity)
    {heap : η} {records : List α} {operations : List ω}
    (hrepresents : represents heap records)
    (hallowed : AllowedAll command (contents heap) records operations)
    (hlength : records.length + operations.length ≤ capacity) :
    ∃ last, operations.foldlM perform heap = .ok last ∧
      represents last (applyAll command records operations) ∧
      contents last = contents heap := by
  apply (hallowed.guarded_length hlength).refinement fun current records =>
    represents current records ∧ contents current = contents heap
  · rintro current records operation ⟨hcurrent, hcontents⟩ ⟨hoperation, hfits⟩
    rw [← hcontents] at hoperation
    obtain ⟨next, hperform, hnext, hkept⟩ :=
      hrefines.step hcurrent hfits hoperation
    exact ⟨next, hperform, hnext, hkept.trans hcontents⟩
  · exact ⟨hrepresents, rfl⟩

end Refinement

end LinuxKernelCode.ListCommands
