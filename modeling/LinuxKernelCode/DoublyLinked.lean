import LinuxKernelCode.LinkedSlots
import LinuxKernelCode.ListCommands
import Mathlib.Data.Fintype.Basic

/-!
# Doubly linked lists

The lists of `queue.h` that are doubly linked and headed by a single pointer,
or by an array of such pointers for a hash table.  A record keeps the address
of the slot that points to it, whether that is the slot of a record or of a
head, so a record is taken out, and others are put in beside it, without
knowing which of the lists it is in.

The state below is a table of heads over one pool of records.  Records move
freely between the lists, and over any run of the macros each list of the
table follows its own list of records.
-/

namespace LinuxKernelCode.DoublyLinked

open LinuxKernelCode.LinkedSlots
open LinuxKernelCode.ListCommands
open LinuxKernelCode.Runs

universe u

variable {η α δ : Type u}

inductive Slot (η α : Type u) where
  | head (index : η)
  | next (address : α)
  deriving DecidableEq, Repr

structure Record (η α δ : Type u) where
  leNext : Option α
  lePrev : Slot η α
  datum : δ
  deriving DecidableEq, Repr

inductive Fault where
  | released
  | endless
  deriving DecidableEq, Repr

structure Table (η α δ : Type u) where
  lhFirst : η → Option α
  records : α → Option (Record η α δ)

def Table.load (table : Table η α δ) (address : α) :
    Except Fault (Record η α δ) :=
  match table.records address with
  | some record => .ok record
  | none => .error .released

/-- `DLIST_INIT` for every head. -/
def Table.init (table : Table η α δ) : Table η α δ :=
  { table with lhFirst := fun _ => none }

section Macros

variable [DecidableEq η] [DecidableEq α]

def Table.modify
    (table : Table η α δ) (address : α)
    (change : Record η α δ → Record η α δ) : Except Fault (Table η α δ) := do
  let record ← table.load address
  .ok { table with
    records := Function.update table.records address (some (change record)) }

/-- Assignment through the address of a next-slot. -/
def Table.store (table : Table η α δ) (slot : Slot η α) (value : Option α) :
    Except Fault (Table η α δ) :=
  match slot with
  | .head index =>
      .ok { table with lhFirst := Function.update table.lhFirst index value }
  | .next address =>
      table.modify address fun record => { record with leNext := value }

/-- The assignment to `le_prev` of a record, if there is one. -/
def Table.setPrev (table : Table η α δ) (slot : Slot η α) :
    Option α → Except Fault (Table η α δ)
  | some address =>
      table.modify address fun record => { record with lePrev := slot }
  | none => .ok table

def Table.insertAfter (table : Table η α δ) (listelm elm : α) :
    Except Fault (Table η α δ) := do
  let other ← table.load listelm
  let table ← table.store (.next elm) other.leNext
  let other ← table.load listelm
  let table ← table.setPrev (.next elm) other.leNext
  let table ← table.store (.next listelm) (some elm)
  table.setPrev (.next listelm) (some elm)

def Table.insertBefore (table : Table η α δ) (listelm elm : α) :
    Except Fault (Table η α δ) := do
  let other ← table.load listelm
  let table ← table.setPrev other.lePrev (some elm)
  let table ← table.store (.next elm) (some listelm)
  let other ← table.load listelm
  let table ← table.store other.lePrev (some elm)
  table.setPrev (.next elm) (some listelm)

def Table.insertHead (table : Table η α δ) (index : η) (elm : α) :
    Except Fault (Table η α δ) := do
  let table ← table.store (.next elm) (table.lhFirst index)
  let table ← table.setPrev (.next elm) (table.lhFirst index)
  let table ← table.store (.head index) (some elm)
  table.setPrev (.head index) (some elm)

def Table.remove (table : Table η α δ) (elm : α) :
    Except Fault (Table η α δ) := do
  let record ← table.load elm
  let table ← table.setPrev record.lePrev record.leNext
  let record ← table.load elm
  table.store record.lePrev record.leNext

def Table.foreach (fuel : ℕ) (table : Table η α δ) (index : η) :
    Except Fault (List α) :=
  traverse .endless id
    (fun var => do
      let record ← table.load var
      .ok record.leNext)
    fuel (table.lhFirst index)

/-- The macros that change a list. -/
inductive Macro (η α : Type u) where
  | insertHead (index : η) (elm : α)
  | insertAfter (listelm elm : α)
  | insertBefore (listelm elm : α)
  | remove (elm : α)
  deriving DecidableEq, Repr

def Table.perform (table : Table η α δ) :
    Macro η α → Except Fault (Table η α δ)
  | .insertHead index elm => table.insertHead index elm
  | .insertAfter listelm elm => table.insertAfter listelm elm
  | .insertBefore listelm elm => table.insertBefore listelm elm
  | .remove elm => table.remove elm

/-! ## The lists of a table -/

/-- What a macro does to the lists.  Only the insertion at a head names its
list; the others change the list that has the record in it. -/
def Macro.apply (lists : η → List α) : Macro η α → η → List α
  | .insertHead index elm =>
      Function.update lists index (elm :: lists index)
  | .insertAfter listelm elm =>
      fun index => ListCommands.insertAfter listelm elm (lists index)
  | .insertBefore listelm elm =>
      fun index => ListCommands.insertBefore listelm elm (lists index)
  | .remove elm => fun index => (lists index).erase elm

end Macros

/-- The record exists and is in none of the lists. -/
def Unlisted (contents : α → Option δ) (lists : η → List α) (elm : α) : Prop :=
  (contents elm).isSome ∧ ∀ index, elm ∉ lists index

def Listed (lists : η → List α) (elm : α) : Prop :=
  ∃ index, elm ∈ lists index

def Macro.Allowed (contents : α → Option δ) (lists : η → List α) :
    Macro η α → Prop
  | .insertHead _ elm => Unlisted contents lists elm
  | .insertAfter listelm elm =>
      Listed lists listelm ∧ Unlisted contents lists elm
  | .insertBefore listelm elm =>
      Listed lists listelm ∧ Unlisted contents lists elm
  | .remove elm => Listed lists elm

/-! ## The links of a table -/

def layout (η α : Type u) : Layout α (Slot η α) (Option α) where
  slot := .next
  pointer := some
  slot_injective := fun _ _ hequal => by simpa using hequal

@[simp] theorem layout_slot (address : α) :
    (layout η α).slot address = .next address := rfl

@[simp] theorem entry_layout (records : List α) :
    entry (layout η α) records none = records.head? := by
  cases records <;> rfl

def Table.next (table : Table η α δ) : Slot η α → Option (Option α)
  | .head index => some (table.lhFirst index)
  | .next address => (table.records address).map Record.leNext

def Table.previous (table : Table η α δ) (address : α) : Option (Slot η α) :=
  (table.records address).map Record.lePrev

def Table.contents (table : Table η α δ) (address : α) : Option δ :=
  (table.records address).map Record.datum

def Table.view (table : Table η α δ) :
    (Slot η α → Option (Option α)) × (α → Option (Slot η α)) ×
      (α → Option δ) :=
  (table.next, table.previous, table.contents)

def Table.Represents (table : Table η α δ) (lists : η → List α) : Prop :=
  Family (layout η α) .head none table.next table.previous lists

theorem Table.load_of_links
    {table : Table η α δ} {address : α} {slot : Slot η α} {pointer : Option α}
    (hprevious : table.previous address = some slot)
    (hnext : table.next (.next address) = some pointer) :
    ∃ datum, table.load address = .ok ⟨pointer, slot, datum⟩ := by
  obtain ⟨record, hrecord, rfl⟩ := Option.map_eq_some_iff.mp hprevious
  obtain rfl : record.leNext = pointer := by
    simpa [Table.next, hrecord] using hnext
  exact ⟨record.datum, by simp [Table.load, hrecord]⟩

theorem Table.Represents.live
    {table : Table η α δ} {lists : η → List α}
    (hrepresents : table.Represents lists)
    {index : η} {address : α} (hmem : address ∈ lists index) :
    (table.contents address).isSome := by
  obtain ⟨before, behind, hlist⟩ := List.append_of_mem hmem
  have hlinked := hrepresents.linked index
  rw [hlist] at hlinked
  obtain ⟨record, hrecord, _⟩ :=
    Option.map_eq_some_iff.mp hlinked.at_record.1
  simp [Table.contents, hrecord]

variable [DecidableEq η] [DecidableEq α]

section Assignments

variable {table : Table η α δ} {next : Slot η α → Option (Option α)}
  {previous : α → Option (Slot η α)} {contents : α → Option δ}

/-- A write of the links of a live record. -/
theorem Table.yields_modify
    (hview : table.view = (next, previous, contents)) {address : α}
    (hlive : (contents address).isSome)
    {change : Record η α δ → Record η α δ}
    (hdatum : ∀ record, (change record).datum = record.datum) :
    ∃ old, next (.next address) = some old.leNext ∧
      previous address = some old.lePrev ∧
      Yields Table.view (table.modify address change)
        (Function.update next (.next address) (some (change old).leNext),
          Function.update previous address (some (change old).lePrev),
          contents) := by
  simp only [Table.view, Prod.mk.injEq] at hview
  obtain ⟨rfl, rfl, rfl⟩ := hview
  obtain ⟨old, hold⟩ : ∃ old, table.records address = some old := by
    simpa [Table.contents, Option.isSome_iff_exists] using hlive
  refine ⟨old, by simp [Table.next, hold], by simp [Table.previous, hold],
    _, by rw [Table.modify, Table.load, hold]; rfl, ?_⟩
  refine Prod.ext ?_ (Prod.ext ?_ ?_)
  · funext slot
    cases slot with
    | head index => rfl
    | next other =>
        by_cases hother : other = address
        · simp [hother, Table.view, Table.next]
        · simp [Table.view, Table.next, hother]
  · exact Function.comp_update (Option.map Record.lePrev) table.records address
      _
  · funext other
    by_cases hother : other = address
    · simp [hother, Table.view, Table.contents, hold, hdatum]
    · simp [Table.view, Table.contents, hother]

theorem Table.yields_store
    (hview : table.view = (next, previous, contents)) {slot : Slot η α}
    (hlive : ∀ address, slot = .next address → (contents address).isSome)
    (pointer : Option α) :
    Yields Table.view (table.store slot pointer)
      (Function.update next slot (some pointer), previous, contents) := by
  cases slot with
  | head index =>
      simp only [Table.view, Prod.mk.injEq] at hview
      obtain ⟨rfl, rfl, rfl⟩ := hview
      refine ⟨_, rfl, Prod.ext ?_ rfl⟩
      funext slot
      cases slot with
      | head other =>
          by_cases hother : other = index
          · simp [hother, Table.view, Table.next]
          · simp [Table.view, Table.next, hother]
      | next address => rfl
  | next address =>
      obtain ⟨old, _, hold, hyields⟩ := Table.yields_modify hview
        (hlive address rfl)
        (show ∀ record : Record η α δ,
          ({ record with leNext := pointer } : Record η α δ).datum =
            record.datum from fun _ => rfl)
      have hself : Function.update previous address (some old.lePrev) =
          previous := Function.update_eq_self_iff.mpr hold.symm
      rwa [hself] at hyields

theorem Table.yields_setPrev
    (hview : table.view = (next, previous, contents)) {behind : Option α}
    (hlive : ∀ address ∈ behind, (contents address).isSome)
    (slot : Slot η α) :
    Yields Table.view (table.setPrev slot behind)
      (next, setPrevious previous slot behind, contents) := by
  cases behind with
  | none => exact ⟨table, rfl, hview⟩
  | some address =>
      obtain ⟨old, hold, _, hyields⟩ := Table.yields_modify hview
        (hlive address rfl)
        (show ∀ record : Record η α δ,
          ({ record with lePrev := slot } : Record η α δ).datum =
            record.datum from fun _ => rfl)
      have hself : Function.update next (.next address) (some old.leNext) =
          next := Function.update_eq_self_iff.mpr hold.symm
      rwa [hself] at hyields

end Assignments

/-! ## What the macros do to the lists -/

section Macros

variable {table : Table η α δ} {lists : η → List α} {index : η}
  {before behind : List α} {elm listelm : α}

omit [DecidableEq η] [DecidableEq α] in
theorem heads_injective : Function.Injective (Slot.head : η → Slot η α) :=
  fun _ _ hequal => by simpa using hequal

omit [DecidableEq η] [DecidableEq α] in
theorem slot_ne_head (index : η) (record : α) :
    (layout η α).slot record ≠ .head index := by
  simp

omit [DecidableEq η] [DecidableEq α] in
theorem Table.represents_of_yields
    {result : Except Fault (Table η α δ)}
    {next : Slot η α → Option (Option α)} {previous : α → Option (Slot η α)}
    (hyields : Yields Table.view result (next, previous, table.contents))
    (hfamily : Family (layout η α) .head none next previous lists) :
    ∃ table', result = .ok table' ∧ table'.Represents lists ∧
      table'.contents = table.contents := by
  obtain ⟨table', hresult, hview⟩ := hyields
  simp only [Table.view, Prod.mk.injEq] at hview
  obtain ⟨rfl, rfl, hcontents⟩ := hview
  exact ⟨table', hresult, hfamily, hcontents⟩

omit [DecidableEq η] [DecidableEq α] in
theorem Table.Represents.live_endSlot
    (hrepresents : table.Represents lists)
    (hlist : lists index = before ++ behind) :
    ∀ address, endSlot (layout η α) (.head index) before = .next address →
      (table.contents address).isSome := by
  intro address hlast
  have hmem : endSlot (layout η α) (.head index) before ∈
      Slot.head index :: before.map Slot.next := endSlot_mem
  rw [hlast] at hmem
  have hbefore : address ∈ before := by simpa using hmem
  exact hrepresents.live (show address ∈ lists index by simp [hlist, hbefore])

theorem Table.Represents.insertHead
    (hrepresents : table.Represents lists)
    (hunlisted : Unlisted table.contents lists elm) (index : η) :
    ∃ table', table.insertHead index elm = .ok table' ∧
      table'.Represents (Function.update lists index (elm :: lists index)) ∧
      table'.contents = table.contents := by
  have hlink := Family.link hrepresents heads_injective slot_ne_head
    (show lists index = [] ++ lists index from rfl) hunlisted.2
  rw [entry_layout] at hlink
  refine Table.represents_of_yields ?_ hlink
  have hfirst : table.lhFirst index = (lists index).head? := by
    have hentry := (hrepresents.linked index).forward.entry_eq
    rw [entry_layout] at hentry
    exact Option.some.inj hentry
  have hlive : ∀ address, Slot.next elm = (.next address : Slot η α) →
      (table.contents address).isSome := by
    rintro address ⟨⟩
    exact hunlisted.1
  have hbehind : ∀ address ∈ (lists index).head?,
      (table.contents address).isSome := by
    intro address hhead
    exact hrepresents.live (List.mem_of_mem_head? hhead)
  rw [Table.insertHead, hfirst]
  apply (Table.yields_store rfl hlive (lists index).head?).bind
  intro table₁ hview₁
  have hfirst₁ : table₁.lhFirst index = (lists index).head? := by
    have hhead := congrArg (fun view => view.1 (Slot.head index)) hview₁
    simpa [Table.view, Table.next, hfirst] using hhead
  rw [hfirst₁]
  apply (Table.yields_setPrev hview₁ hbehind (.next elm)).bind
  intro table₂ hview₂
  apply (Table.yields_store hview₂ (by simp) (some elm)).bind
  intro table₃ hview₃
  apply Table.yields_setPrev hview₃
  rintro address ⟨⟩
  exact hunlisted.1

theorem Table.Represents.insertAfter
    (hrepresents : table.Represents lists)
    (hlist : lists index = before ++ listelm :: behind)
    (hunlisted : Unlisted table.contents lists elm) :
    ∃ table', table.insertAfter listelm elm = .ok table' ∧
      table'.Represents
        (Function.update lists index (before ++ listelm :: elm :: behind)) ∧
      table'.contents = table.contents := by
  have hlink := Family.link hrepresents heads_injective slot_ne_head
    (show lists index = (before ++ [listelm]) ++ behind by simp [hlist])
    hunlisted.2
  rw [entry_layout, List.append_assoc, endSlot_append] at hlink
  refine Table.represents_of_yields ?_ hlink
  have hlinked := hrepresents.linked index
  rw [hlist] at hlinked
  obtain ⟨hprevious, _, hnext⟩ := hlinked.at_record
  rw [entry_layout] at hnext
  obtain ⟨datum, hload⟩ := Table.load_of_links hprevious hnext
  have hlive : ∀ address, Slot.next elm = (.next address : Slot η α) →
      (table.contents address).isSome := by
    rintro address ⟨⟩
    exact hunlisted.1
  have hlive' : ∀ address, Slot.next listelm = (.next address : Slot η α) →
      (table.contents address).isSome := by
    rintro address ⟨⟩
    exact hrepresents.live
      (show listelm ∈ lists index by simp [hlist])
  have hbehind : ∀ address ∈ behind.head?,
      (table.contents address).isSome := by
    intro address hhead
    exact hrepresents.live (show address ∈ lists index by
      simp [hlist, List.mem_of_mem_head? hhead])
  have hne : listelm ≠ elm := by
    rintro rfl
    exact hunlisted.2 index (by simp [hlist])
  rw [Table.insertAfter, hload]
  apply (Table.yields_store rfl hlive behind.head?).bind
  intro table₁ hview₁
  simp only [Table.view, Prod.mk.injEq] at hview₁
  have hnext₁ : table₁.next (.next listelm) = some behind.head? := by
    rw [hview₁.1, Function.update_of_ne (by simpa using hne)]
    exact hnext
  have hprevious₁ : table₁.previous listelm =
      some (endSlot (layout η α) (.head index) before) := by
    rw [hview₁.2.1]
    exact hprevious
  obtain ⟨datum₁, hload₁⟩ := Table.load_of_links hprevious₁ hnext₁
  rw [hload₁]
  apply (Table.yields_setPrev (by simpa [Table.view] using hview₁) hbehind
    (.next elm)).bind
  intro table₂ hview₂
  apply (Table.yields_store hview₂ hlive' (some elm)).bind
  intro table₃ hview₃
  apply Table.yields_setPrev hview₃
  rintro address ⟨⟩
  exact hunlisted.1

theorem Table.Represents.insertBefore
    (hrepresents : table.Represents lists)
    (hlist : lists index = before ++ listelm :: behind)
    (hunlisted : Unlisted table.contents lists elm) :
    ∃ table', table.insertBefore listelm elm = .ok table' ∧
      table'.Represents
        (Function.update lists index (before ++ elm :: listelm :: behind)) ∧
      table'.contents = table.contents := by
  have hlink := Family.link hrepresents heads_injective slot_ne_head hlist
    hunlisted.2
  rw [entry_layout] at hlink
  have hlinked := hrepresents.linked index
  rw [hlist] at hlinked
  obtain ⟨hprevious, _, hnext⟩ := hlinked.at_record
  rw [entry_layout] at hnext
  obtain ⟨datum, hload⟩ := Table.load_of_links hprevious hnext
  have hlive : ∀ address ∈ some elm, (table.contents address).isSome := by
    rintro address ⟨⟩
    exact hunlisted.1
  have hlive' : ∀ address ∈ some listelm,
      (table.contents address).isSome := by
    rintro address ⟨⟩
    exact hrepresents.live
      (show listelm ∈ lists index by simp [hlist])
  have hne : listelm ≠ elm := by
    rintro rfl
    exact hunlisted.2 index (by simp [hlist])
  have hcomm := Function.update_comm hne
    (some (Slot.next elm : Slot η α))
    (some (endSlot (layout η α) (.head index) before)) table.previous
  refine Table.represents_of_yields ?_ hlink
  rw [Table.insertBefore, hload]
  apply (Table.yields_setPrev rfl hlive _).bind
  intro table₁ hview₁
  apply (Table.yields_store hview₁ (fun address hslot => hlive address
    (by simpa using hslot)) (some listelm)).bind
  intro table₂ hview₂
  simp only [Table.view, Prod.mk.injEq] at hview₂
  have hnext₂ : table₂.next (.next listelm) = some behind.head? := by
    rw [hview₂.1, Function.update_of_ne (by simpa using hne)]
    exact hnext
  have hprevious₂ : table₂.previous listelm =
      some (endSlot (layout η α) (.head index) before) := by
    rw [hview₂.2.1, setPrevious_of_ne _ _ (by simpa using hne.symm)]
    exact hprevious
  obtain ⟨datum₂, hload₂⟩ := Table.load_of_links hprevious₂ hnext₂
  rw [hload₂]
  apply (Table.yields_store (by simpa [Table.view] using hview₂)
    (hrepresents.live_endSlot hlist) (some elm)).bind
  intro table₃ hview₃
  have hlast := Table.yields_setPrev hview₃ hlive' (.next elm)
  simp only [setPrevious] at hlast
  rw [← hcomm] at hlast
  exact hlast

theorem Table.Represents.remove
    (hrepresents : table.Represents lists)
    (hlist : lists index = before ++ elm :: behind) :
    ∃ table', table.remove elm = .ok table' ∧
      table'.Represents (Function.update lists index (before ++ behind)) ∧
      table'.contents = table.contents := by
  have hunlink := Family.unlink hrepresents heads_injective slot_ne_head
    (show lists index = before ++ ([elm] ++ behind) from hlist)
  rw [entry_layout] at hunlink
  have hlinked := hrepresents.linked index
  rw [hlist] at hlinked
  obtain ⟨hprevious, _, hnext⟩ := hlinked.at_record
  rw [entry_layout] at hnext
  obtain ⟨datum, hload⟩ := Table.load_of_links hprevious hnext
  have hbehind : ∀ address ∈ behind.head?,
      (table.contents address).isSome := by
    intro address hhead
    exact hrepresents.live (show address ∈ lists index by
      simp [hlist, List.mem_of_mem_head? hhead])
  have hnot : elm ∉ behind.head? := by
    intro hhead
    have hnodup := hlinked.separate.2.of_append_right
    exact (List.nodup_cons.mp hnodup).1 (List.mem_of_mem_head? hhead)
  refine Table.represents_of_yields ?_ hunlink
  rw [Table.remove, hload]
  apply (Table.yields_setPrev rfl hbehind _).bind
  intro table₁ hview₁
  simp only [Table.view, Prod.mk.injEq] at hview₁
  have hnext₁ : table₁.next (.next elm) = some behind.head? := by
    rw [hview₁.1]
    exact hnext
  have hprevious₁ : table₁.previous elm =
      some (endSlot (layout η α) (.head index) before) := by
    rw [hview₁.2.1, setPrevious_of_ne _ _ hnot]
    exact hprevious
  obtain ⟨datum₁, hload₁⟩ := Table.load_of_links hprevious₁ hnext₁
  rw [hload₁]
  exact Table.yields_store (by simpa [Table.view] using hview₁)
    (hrepresents.live_endSlot hlist) behind.head?

/-! ## Every run follows the lists -/

omit [DecidableEq η] [DecidableEq α] in
theorem Table.Represents.only_list
    (hrepresents : table.Represents lists) (helm : elm ∈ lists index)
    {other : η} (hne : other ≠ index) : elm ∉ lists other :=
  fun hmem => hrepresents.apart hne hmem helm

omit [DecidableEq η] in
theorem insertAfter_of_notMem {records : List α} (hnot : listelm ∉ records) :
    ListCommands.insertAfter listelm elm records = records := by
  induction records with
  | nil => rfl
  | cons record rest ih =>
      simp only [List.mem_cons, not_or] at hnot
      simp [ListCommands.insertAfter, Ne.symm hnot.1, ih hnot.2]

omit [DecidableEq η] in
theorem insertBefore_of_notMem {records : List α} (hnot : listelm ∉ records) :
    ListCommands.insertBefore listelm elm records = records := by
  induction records with
  | nil => rfl
  | cons record rest ih =>
      simp only [List.mem_cons, not_or] at hnot
      simp [ListCommands.insertBefore, Ne.symm hnot.1, ih hnot.2]

omit [DecidableEq α] in
/-- A change of every list that does nothing to the lists without the record
is a change of the one list that has it. -/
theorem Table.Represents.update_eq
    (hrepresents : table.Represents lists) (helm : elm ∈ lists index)
    {change : List α → List α} {records : List α}
    (hchange : change (lists index) = records)
    (hother : ∀ records, elm ∉ records → change records = records) :
    (fun other => change (lists other)) =
      Function.update lists index records := by
  funext other
  by_cases hequal : other = index
  · rw [hequal, Function.update_self, hchange]
  · rw [Function.update_of_ne hequal]
    exact hother _ (hrepresents.only_list helm hequal)

theorem Table.Represents.perform_step
    (hrepresents : table.Represents lists) {operation : Macro η α}
    (hallowed : operation.Allowed table.contents lists) :
    ∃ table', table.perform operation = .ok table' ∧
      table'.Represents (operation.apply lists) ∧
      table'.contents = table.contents := by
  cases operation with
  | insertHead index elm => exact hrepresents.insertHead hallowed index
  | insertAfter listelm elm =>
      obtain ⟨⟨index, hmem⟩, hunlisted⟩ :
          Listed lists listelm ∧ Unlisted table.contents lists elm := hallowed
      obtain ⟨before, behind, hlist, hnot⟩ := List.eq_append_cons_of_mem hmem
      have hchange : ListCommands.insertAfter listelm elm (lists index) =
          before ++ listelm :: elm :: behind := by
        rw [hlist, insertAfter_split hnot]
      have hupdate := hrepresents.update_eq hmem hchange
        (fun _ hnot => insertAfter_of_notMem hnot)
      rw [Macro.apply, hupdate]
      exact hrepresents.insertAfter hlist hunlisted
  | insertBefore listelm elm =>
      obtain ⟨⟨index, hmem⟩, hunlisted⟩ :
          Listed lists listelm ∧ Unlisted table.contents lists elm := hallowed
      obtain ⟨before, behind, hlist, hnot⟩ := List.eq_append_cons_of_mem hmem
      have hchange : ListCommands.insertBefore listelm elm (lists index) =
          before ++ elm :: listelm :: behind := by
        rw [hlist, insertBefore_split hnot]
      have hupdate := hrepresents.update_eq hmem hchange
        (fun _ hnot => insertBefore_of_notMem hnot)
      rw [Macro.apply, hupdate]
      exact hrepresents.insertBefore hlist hunlisted
  | remove elm =>
      obtain ⟨index, hmem⟩ : Listed lists elm := hallowed
      obtain ⟨before, behind, hlist, hnot⟩ := List.eq_append_cons_of_mem hmem
      have hchange : (lists index).erase elm = before ++ behind := by
        rw [hlist, erase_split hnot]
      have hupdate := hrepresents.update_eq hmem hchange
        (fun _ hnot => List.erase_of_not_mem hnot)
      rw [Macro.apply, hupdate]
      exact hrepresents.remove hlist

omit [DecidableEq η] [DecidableEq α] in
theorem Table.represents_init (table : Table η α δ) :
    table.init.Represents fun _ => [] where
  linked index := ⟨rfl, trivial, by simp, List.nodup_nil⟩
  apart _ := by simp [List.Disjoint]

omit [DecidableEq η] [DecidableEq α] in
theorem Table.Represents.foreach_eq
    (hrepresents : table.Represents lists) (index : η)
    {fuel : ℕ} (hfuel : (lists index).length ≤ fuel) :
    table.foreach fuel index = .ok (lists index) := by
  have hlinked := hrepresents.linked index
  have hfirst : table.lhFirst index =
      entry (layout η α) (lists index) none := by
    exact Option.some.inj hlinked.forward.entry_eq
  rw [Table.foreach, hfirst]
  apply traverse_eq _ _ rfl _ hfuel
  · intro record
    rfl
  · intro before record behind hlist
    rw [hlist] at hlinked
    obtain ⟨hprevious, _, hnext⟩ := hlinked.at_record
    obtain ⟨datum, hload⟩ := Table.load_of_links hprevious hnext
    rw [hload]
    rfl

end Macros

instance [Fintype η] (contents : α → Option δ) (lists : η → List α) (elm : α) :
    Decidable (Unlisted contents lists elm) :=
  inferInstanceAs (Decidable (_ ∧ _))

instance [Fintype η] (lists : η → List α) (elm : α) :
    Decidable (Listed lists elm) :=
  inferInstanceAs (Decidable (∃ _, _))

instance [Fintype η] (contents : α → Option δ) (lists : η → List α) :
    (operation : Macro η α) → Decidable (operation.Allowed contents lists)
  | .insertHead _ elm =>
      inferInstanceAs (Decidable (Unlisted contents lists elm))
  | .insertAfter _ _ => inferInstanceAs (Decidable (_ ∧ _))
  | .insertBefore _ _ => inferInstanceAs (Decidable (_ ∧ _))
  | .remove elm => inferInstanceAs (Decidable (Listed lists elm))

/-- Every macro is allowed at the point where it is taken. -/
def AllowedAll (contents : α → Option δ) (lists : η → List α)
    (macros : List (Macro η α)) : Prop :=
  Guarded (fun lists operation => operation.apply lists)
    (fun lists operation => operation.Allowed contents lists) lists macros

instance [Fintype η] (contents : α → Option δ) (lists : η → List α)
    (macros : List (Macro η α)) : Decidable (AllowedAll contents lists macros) :=
  inferInstanceAs (Decidable (Guarded _ _ _ _))

/-- The lists after a run that starts with empty ones. -/
def listsAfter (macros : List (Macro η α)) : η → List α :=
  macros.foldl (fun lists operation => operation.apply lists) fun _ => []

/-- Records move between the lists of a table in any order; no macro faults,
and every list is walked in the order of its own records. -/
theorem Table.foreach_run_dlist
    (table : Table η α δ) (macros : List (Macro η α))
    (hallowed : AllowedAll table.contents (fun _ => []) macros) :
    ∃ last, macros.foldlM Table.perform table.init = .ok last ∧
      last.contents = table.contents ∧
      (∀ index fuel, (listsAfter macros index).length ≤ fuel →
        last.foreach fuel index = .ok (listsAfter macros index)) ∧
      ∀ index other, index ≠ other →
        List.Disjoint (listsAfter macros index) (listsAfter macros other) := by
  have hstep : ∀ (current : Table η α δ) (lists : η → List α)
      (operation : Macro η α),
      current.Represents lists ∧ current.contents = table.contents →
      operation.Allowed table.contents lists →
      ∃ next, current.perform operation = .ok next ∧
        next.Represents (operation.apply lists) ∧
        next.contents = table.contents := by
    rintro current lists operation ⟨hcurrent, hsame⟩ hoperation
    obtain ⟨next, hperform, hnext, hkept⟩ :=
      hcurrent.perform_step (hsame ▸ hoperation)
    exact ⟨next, hperform, hnext, hkept.trans hsame⟩
  obtain ⟨last, hrun, hrepresents, hcontents⟩ := hallowed.refinement
    (fun (current : Table η α δ) lists =>
      current.Represents lists ∧ current.contents = table.contents)
    hstep ⟨table.represents_init, rfl⟩
  refine ⟨last, hrun, hcontents, ?_, ?_⟩
  · intro index fuel hfuel
    exact hrepresents.foreach_eq index hfuel
  · intro index other hne
    exact hrepresents.apart hne

/-- Two heads over four records whose links are not set up. -/
def twoHeads : Table Bool ℕ ℕ where
  lhFirst _ := some 6
  records address :=
    if address < 4 then some ⟨some 6, .next address, address⟩ else none

theorem foreach_run_twoHeads :
    ∃ last,
      [.insertHead true 0, .insertHead false 1, .insertAfter 0 2,
        .insertBefore 1 3, .remove 0, .insertAfter 1 0].foldlM Table.perform
          twoHeads.init = .ok last ∧
      last.contents = twoHeads.contents ∧
      (∀ index fuel, (bif index then [2] else [3, 1, 0]).length ≤ fuel →
        last.foreach fuel index = .ok (bif index then [2] else [3, 1, 0])) ∧
      ∀ index other, index ≠ other →
        List.Disjoint (bif index then [2] else [3, 1, 0])
          (bif other then [2] else [3, 1, 0]) := by
  have hlists : listsAfter
      [.insertHead true 0, .insertHead false 1, .insertAfter 0 2,
        .insertBefore 1 3, .remove 0, .insertAfter 1 0] =
      fun index => bif index then [2] else [3, 1, 0] := by
    funext index
    cases index <;> decide
  have hrun := Table.foreach_run_dlist twoHeads
    [.insertHead true 0, .insertHead false 1, .insertAfter 0 2,
      .insertBefore 1 3, .remove 0, .insertAfter 1 0] (by decide)
  rwa [hlists] at hrun

end LinuxKernelCode.DoublyLinked
