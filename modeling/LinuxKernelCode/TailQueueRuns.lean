import LinuxKernelCode.LinkedSlots
import LinuxKernelCode.ListCommands
import LinuxKernelCode.TailQueue

/-!
# Runs of tail queue macros

The remaining macros of the tail queue: insertion at the head and beside a
record, and the two directions of traversal.  The record before another one is
not stored anywhere.  `TAILQ_LAST` and `TAILQ_PREV` find it by reading a record
as if it were a queue head, which works because the two next-slots and the two
addresses behind them lie alike.

Over any run of the macros the queue follows the list of its records, and it
can be walked forwards and backwards at any time.
-/

namespace LinuxKernelCode.TailQueue

open LinuxKernelCode.LinkedSlots
open LinuxKernelCode.ListCommands

universe u

variable {α δ : Type u}

/-- `TAILQ_INIT` -/
def Heap.init (heap : Heap α δ) : Heap α δ :=
  { heap with tqhFirst := none, tqhLast := .head }

section Macros

variable [DecidableEq α]

/-- The branch on the record behind an insertion: it is told which slot is in
front of it, or, if there is none, the head learns its last slot. -/
def Heap.setBehind (heap : Heap α δ) (slot : Slot α) :
    Option α → Except Fault (Heap α δ)
  | some address =>
      heap.modify address fun record => { record with tqePrev := slot }
  | none => .ok { heap with tqhLast := slot }

def Heap.insertHead (heap : Heap α δ) (elm : α) :
    Except Fault (Heap α δ) := do
  let heap ← heap.modify elm fun record =>
    { record with tqeNext := heap.tqhFirst }
  let heap ← heap.setBehind (.next elm) heap.tqhFirst
  let heap ← heap.store .head (some elm)
  heap.modify elm fun record => { record with tqePrev := .head }

def Heap.insertAfter (heap : Heap α δ) (listelm elm : α) :
    Except Fault (Heap α δ) := do
  let other ← heap.load listelm
  let heap ← heap.modify elm fun record =>
    { record with tqeNext := other.tqeNext }
  let heap ← heap.setBehind (.next elm) other.tqeNext
  let heap ← heap.store (.next listelm) (some elm)
  heap.modify elm fun record => { record with tqePrev := .next listelm }

def Heap.insertBefore (heap : Heap α δ) (listelm elm : α) :
    Except Fault (Heap α δ) := do
  let other ← heap.load listelm
  let heap ← heap.modify elm fun record =>
    { record with tqePrev := other.tqePrev }
  let heap ← heap.store (.next elm) (some listelm)
  let other ← heap.load listelm
  let heap ← heap.store other.tqePrev (some elm)
  heap.modify listelm fun record => { record with tqePrev := .next elm }

end Macros

/-- Reading through the address of a next-slot. -/
def Heap.fetch (heap : Heap α δ) : Slot α → Except Fault (Option α)
  | .head => .ok heap.tqhFirst
  | .next address => do
      let record ← heap.load address
      .ok record.tqeNext

/-- The word behind a next-slot: the head's `tqh_last`, or the `tqe_prev` of
a record that is read as a head. -/
def Heap.wordBehind (heap : Heap α δ) : Slot α → Except Fault (Slot α)
  | .head => .ok heap.tqhLast
  | .next address => do
      let record ← heap.load address
      .ok record.tqePrev

def Heap.last (heap : Heap α δ) : Except Fault (Option α) := do
  let slot ← heap.wordBehind heap.tqhLast
  heap.fetch slot

def Heap.prev (heap : Heap α δ) (elm : α) : Except Fault (Option α) := do
  let record ← heap.load elm
  let slot ← heap.wordBehind record.tqePrev
  heap.fetch slot

def Heap.next (heap : Heap α δ) (elm : α) : Except Fault (Option α) := do
  let record ← heap.load elm
  .ok record.tqeNext

def Heap.foreach (fuel : ℕ) (heap : Heap α δ) : Except Fault (List α) :=
  traverse .endless id heap.next fuel heap.tqhFirst

def Heap.foreachReverse (fuel : ℕ) (heap : Heap α δ) :
    Except Fault (List α) := do
  let last ← heap.last
  traverse .endless id heap.prev fuel last

/-- The macros that change a queue. -/
inductive Macro (α : Type u) where
  | insertHead (elm : α)
  | insertTail (elm : α)
  | insertAfter (listelm elm : α)
  | insertBefore (listelm elm : α)
  | remove (elm : α)
  deriving DecidableEq, Repr

def Macro.command : Macro α → Command α
  | .insertHead elm => .insertHead elm
  | .insertTail elm => .insertTail elm
  | .insertAfter listelm elm => .insertAfter listelm elm
  | .insertBefore listelm elm => .insertBefore listelm elm
  | .remove elm => .remove elm

def Heap.perform [DecidableEq α] (heap : Heap α δ) :
    Macro α → Except Fault (Heap α δ)
  | .insertHead elm => heap.insertHead elm
  | .insertTail elm => heap.insertTail elm
  | .insertAfter listelm elm => heap.insertAfter listelm elm
  | .insertBefore listelm elm => heap.insertBefore listelm elm
  | .remove elm => heap.remove elm

/-! ## The links of a queue -/

def layout (α : Type u) : Layout α (Slot α) (Option α) where
  slot := .next
  pointer := some
  slot_injective := fun _ _ hequal => by simpa using hequal

def Heap.links (heap : Heap α δ) : Links α (Slot α) (Option α) where
  next
    | .head => some heap.tqhFirst
    | .next address => (heap.records address).map Record.tqeNext
  previous address := (heap.records address).map Record.tqePrev
  last := heap.tqhLast

def Heap.contents (heap : Heap α δ) (address : α) : Option δ :=
  (heap.records address).map Record.datum

def Heap.view (heap : Heap α δ) :
    Links α (Slot α) (Option α) × (α → Option δ) :=
  (heap.links, heap.contents)

def Heap.Represents (heap : Heap α δ) (records : List α) : Prop :=
  heap.links.Represents (layout α) .head none records

@[simp] theorem layout_slot (address : α) :
    (layout α).slot address = .next address := rfl

@[simp] theorem entry_layout (records : List α) :
    entry (layout α) records none = records.head? := by
  cases records <;> rfl

/-! ## What the single assignments do to the links -/

theorem Heap.contents_isSome_of_previous
    {heap : Heap α δ} {address : α} {slot : Slot α}
    (hprevious : heap.links.previous address = some slot) :
    (heap.contents address).isSome := by
  obtain ⟨record, hrecord, _⟩ := Option.map_eq_some_iff.mp hprevious
  simp [Heap.contents, hrecord]

theorem Heap.load_of_links
    {heap : Heap α δ} {address : α} {slot : Slot α} {pointer : Option α}
    (hprevious : heap.links.previous address = some slot)
    (hnext : heap.links.next (.next address) = some pointer) :
    ∃ datum, heap.load address = .ok ⟨pointer, slot, datum⟩ := by
  obtain ⟨record, hrecord, rfl⟩ := Option.map_eq_some_iff.mp hprevious
  obtain rfl : record.tqeNext = pointer := by
    simpa [Heap.links, hrecord] using hnext
  exact ⟨record.datum, Heap.load_eq hrecord⟩

theorem Heap.fetch_of_links
    {heap : Heap α δ} {slot : Slot α} {pointer : Option α}
    (hnext : heap.links.next slot = some pointer) :
    heap.fetch slot = .ok pointer := by
  cases slot with
  | head => simpa [Heap.links, Heap.fetch] using hnext
  | next address =>
      obtain ⟨record, hrecord, rfl⟩ := Option.map_eq_some_iff.mp hnext
      simp [Heap.fetch, Heap.load_eq hrecord, bind, Except.bind]

variable [DecidableEq α]

theorem Heap.write_links
    (heap : Heap α δ) (address : α) (record : Record α δ) :
    (heap.write address record).links =
      { heap.links with
        next := Function.update heap.links.next (.next address)
          (some record.tqeNext)
        previous := Function.update heap.links.previous address
          (some record.tqePrev) } := by
  have hnext : (heap.write address record).links.next =
      Function.update heap.links.next (.next address)
        (some record.tqeNext) := by
    funext slot
    cases slot with
    | head => rfl
    | next other =>
        by_cases hother : other = address
        · simp [hother, Heap.links]
        · simp [Heap.links, Heap.write, hother]
  have hprevious : (heap.write address record).links.previous =
      Function.update heap.links.previous address (some record.tqePrev) :=
    Function.comp_update (Option.map Record.tqePrev) heap.records address _
  rw [← hnext, ← hprevious]
  rfl

/-- What a write of the links of a record changes in the view. -/
theorem Heap.write_view
    {heap : Heap α δ} {address : α} {old : Record α δ}
    (hold : heap.records address = some old) (record : Record α δ)
    (hdatum : record.datum = old.datum) :
    (heap.write address record).view =
      ({ heap.links with
          next := Function.update heap.links.next (.next address)
            (some record.tqeNext)
          previous := Function.update heap.links.previous address
            (some record.tqePrev) }, heap.contents) := by
  have hcontents : (heap.write address record).contents =
      Function.update heap.contents address (some record.datum) :=
    Function.comp_update (Option.map Record.datum) heap.records address _
  have hself : Function.update heap.contents address (some record.datum) =
      heap.contents := by
    rw [Function.update_eq_self_iff, Heap.contents, hold, hdatum]
    rfl
  rw [Heap.view, hcontents, hself, Heap.write_links]

section Assignments

variable {heap : Heap α δ} {links : Links α (Slot α) (Option α)}
  {contents : α → Option δ}

omit [DecidableEq α] in
theorem Heap.exists_record
    (hview : heap.view = (links, contents)) {address : α}
    (hlive : (contents address).isSome) :
    ∃ record, heap.records address = some record := by
  obtain ⟨rfl, rfl⟩ := Prod.ext_iff.mp hview
  simpa [Heap.view, Heap.contents, Option.isSome_iff_exists] using hlive

theorem Heap.yields_setNext
    (hview : heap.view = (links, contents)) {address : α}
    (hlive : (contents address).isSome) (pointer : Option α) :
    Yields Heap.view
      (heap.modify address fun record => { record with tqeNext := pointer })
      ({ links with
          next := Function.update links.next (.next address) (some pointer) },
        contents) := by
  obtain ⟨record, hrecord⟩ := Heap.exists_record hview hlive
  obtain ⟨rfl, rfl⟩ := Prod.ext_iff.mp hview
  have hwrite := Heap.write_view hrecord { record with tqeNext := pointer } rfl
  have hprevious : Function.update heap.links.previous address
      (some record.tqePrev) = heap.links.previous := by
    rw [Function.update_eq_self_iff]
    simp [Heap.links, hrecord]
  rw [hprevious] at hwrite
  exact ⟨_, Heap.modify_eq hrecord _, hwrite⟩

theorem Heap.yields_setPrev
    (hview : heap.view = (links, contents)) {address : α}
    (hlive : (contents address).isSome) (slot : Slot α) :
    Yields Heap.view
      (heap.modify address fun record => { record with tqePrev := slot })
      ({ links with
          previous := Function.update links.previous address (some slot) },
        contents) := by
  obtain ⟨record, hrecord⟩ := Heap.exists_record hview hlive
  obtain ⟨rfl, rfl⟩ := Prod.ext_iff.mp hview
  have hwrite := Heap.write_view hrecord { record with tqePrev := slot } rfl
  have hnext : Function.update heap.links.next (.next address)
      (some record.tqeNext) = heap.links.next := by
    rw [Function.update_eq_self_iff]
    simp [Heap.links, hrecord]
  rw [hnext] at hwrite
  exact ⟨_, Heap.modify_eq hrecord _, hwrite⟩

theorem Heap.yields_store
    (hview : heap.view = (links, contents)) {slot : Slot α}
    (hlive : ∀ address, slot = .next address → (contents address).isSome)
    (pointer : Option α) :
    Yields Heap.view (heap.store slot pointer)
      ({ links with next := Function.update links.next slot (some pointer) },
        contents) := by
  cases slot with
  | head =>
      obtain ⟨rfl, rfl⟩ := Prod.ext_iff.mp hview
      have hnext : ({ heap with tqhFirst := pointer } : Heap α δ).links.next =
          Function.update heap.links.next .head (some pointer) := by
        funext slot
        cases slot <;> rfl
      refine ⟨_, rfl, ?_⟩
      simp only [Heap.view]
      rw [← hnext]
      rfl
  | next address => exact Heap.yields_setNext hview (hlive address rfl) pointer

theorem Heap.yields_setBehind
    (hview : heap.view = (links, contents)) {behind : Option α}
    (hlive : ∀ address ∈ behind, (contents address).isSome)
    (slot : Slot α) :
    Yields Heap.view (heap.setBehind slot behind)
      (links.setBehind slot behind, contents) := by
  cases behind with
  | some address => exact Heap.yields_setPrev hview (hlive address rfl) slot
  | none =>
      obtain ⟨rfl, rfl⟩ := Prod.ext_iff.mp hview
      exact ⟨_, rfl, rfl⟩

end Assignments

/-! ## What the macros do to the links -/

section Macros

variable {heap : Heap α δ} {before behind records : List α} {elm listelm : α}

omit [DecidableEq α] in
theorem Heap.Represents.live
    (hrepresents : heap.Represents records)
    {address : α} (hmem : address ∈ records) :
    (heap.contents address).isSome := by
  obtain ⟨before, behind, rfl⟩ := List.append_of_mem hmem
  exact Heap.contents_isSome_of_previous hrepresents.at_record.1

omit [DecidableEq α] in
theorem Heap.Represents.live_endSlot
    (hrepresents : heap.Represents (before ++ behind)) :
    ∀ address, endSlot (layout α) .head before = .next address →
      (heap.contents address).isSome := by
  intro address hlast
  have hmem : endSlot (layout α) .head before ∈
      Slot.head :: before.map Slot.next := endSlot_mem
  apply hrepresents.live
  rw [hlast] at hmem
  have hbefore : address ∈ before := by simpa using hmem
  simp [hbefore]

omit [DecidableEq α] in
theorem Heap.Represents.tqhFirst_eq (hrepresents : heap.Represents records) :
    heap.tqhFirst = records.head? := by
  have hentry := hrepresents.forward.entry_eq
  rw [entry_layout] at hentry
  exact Option.some.inj hentry

theorem Heap.yields_insertHead
    (hrepresents : heap.Represents records)
    (hloose : Loose heap.contents records elm) :
    Yields Heap.view (heap.insertHead elm)
      (heap.links.link (layout α) .head elm records.head? records.head?,
        heap.contents) := by
  have hfirst := hrepresents.tqhFirst_eq
  have hlive : ∀ address ∈ records.head?, (heap.contents address).isSome :=
    fun address hhead => hrepresents.live (List.mem_of_mem_head? hhead)
  rw [Heap.insertHead, hfirst]
  apply (Heap.yields_setNext rfl hloose.1 records.head?).bind
  intro heap₁ hview₁
  have hfirst₁ : heap₁.tqhFirst = records.head? := by
    have hhead := congrArg (fun view => view.1.next Slot.head) hview₁
    simpa [Heap.view, Heap.links, hfirst] using hhead
  rw [hfirst₁]
  apply (Heap.yields_setBehind hview₁ hlive (.next elm)).bind
  intro heap₂ hview₂
  apply (Heap.yields_store hview₂ (by simp) (some elm)).bind
  intro heap₃ hview₃
  exact Heap.yields_setPrev hview₃ hloose.1 .head

theorem Heap.yields_insertAfter
    (hrepresents : heap.Represents (before ++ listelm :: behind))
    (hloose : Loose heap.contents (before ++ listelm :: behind) elm) :
    Yields Heap.view (heap.insertAfter listelm elm)
      (heap.links.link (layout α) (.next listelm) elm behind.head?
        behind.head?, heap.contents) := by
  obtain ⟨hprevious, _, hnext⟩ := hrepresents.at_record
  obtain ⟨datum, hload⟩ := Heap.load_of_links hprevious hnext
  have hbehind : ∀ address ∈ behind.head?, (heap.contents address).isSome := by
    intro address hhead
    apply hrepresents.live
    simp [List.mem_of_mem_head? hhead]
  have hlive : (heap.contents listelm).isSome := hrepresents.live (by simp)
  rw [entry_layout] at hload
  rw [Heap.insertAfter, hload]
  apply (Heap.yields_setNext rfl hloose.1 behind.head?).bind
  intro heap₁ hview₁
  apply (Heap.yields_setBehind hview₁ hbehind (.next elm)).bind
  intro heap₂ hview₂
  apply (Heap.yields_setNext hview₂ hlive (some elm)).bind
  intro heap₃ hview₃
  exact Heap.yields_setPrev hview₃ hloose.1 (.next listelm)

theorem Heap.yields_insertBefore
    (hrepresents : heap.Represents (before ++ listelm :: behind))
    (hloose : Loose heap.contents (before ++ listelm :: behind) elm) :
    Yields Heap.view (heap.insertBefore listelm elm)
      (heap.links.link (layout α) (endSlot (layout α) .head before) elm
        (some listelm) (some listelm), heap.contents) := by
  obtain ⟨hprevious, _, hnext⟩ := hrepresents.at_record
  obtain ⟨datum, hload⟩ := Heap.load_of_links hprevious hnext
  have hlive : (heap.contents listelm).isSome := hrepresents.live (by simp)
  have hne : listelm ≠ elm := by
    rintro rfl
    exact hloose.2 (by simp)
  rw [Heap.insertBefore, hload]
  apply (Heap.yields_setPrev rfl hloose.1 _).bind
  intro heap₁ hview₁
  apply (Heap.yields_setNext hview₁ hloose.1 (some listelm)).bind
  intro heap₂ hview₂
  have hprevious₂ : heap₂.links.previous listelm =
      some (endSlot (layout α) .head before) := by
    have hlinks := (Prod.ext_iff.mp hview₂).1
    simp only [Heap.view] at hlinks
    rw [hlinks]
    simpa [Function.update_of_ne hne] using hprevious
  have hnext₂ : heap₂.links.next (.next listelm) = some behind.head? := by
    have hlinks := (Prod.ext_iff.mp hview₂).1
    simp only [Heap.view] at hlinks
    rw [hlinks]
    simpa [Function.update_apply, hne] using hnext
  obtain ⟨datum₂, hload₂⟩ := Heap.load_of_links hprevious₂ hnext₂
  rw [hload₂]
  apply (Heap.yields_store hview₂ hrepresents.live_endSlot (some elm)).bind
  intro heap₃ hview₃
  have hlast := Heap.yields_setPrev hview₃ hlive (.next elm)
  rw [Function.update_comm hne.symm] at hlast
  exact hlast

theorem Heap.yields_insertTail
    (hrepresents : heap.Represents records)
    (hloose : Loose heap.contents records elm) :
    Yields Heap.view (heap.insertTail elm)
      (heap.links.link (layout α) (endSlot (layout α) .head records) elm none
        none, heap.contents) := by
  have hlast : heap.tqhLast = endSlot (layout α) .head records :=
    hrepresents.last
  rw [Heap.insertTail]
  apply (Heap.yields_setNext rfl hloose.1 none).bind
  intro heap₁ hview₁
  have hlast₁ : heap₁.tqhLast = heap.tqhLast :=
    congrArg (fun view => view.1.last) hview₁
  rw [hlast₁, hlast]
  apply (Heap.yields_setPrev hview₁ hloose.1 _).bind
  intro heap₂ hview₂
  have hlast₂ : heap₂.tqhLast = heap.tqhLast :=
    congrArg (fun view => view.1.last) hview₂
  rw [hlast₂, hlast]
  rw [← List.append_nil records] at hrepresents
  apply (Heap.yields_store hview₂ hrepresents.live_endSlot (some elm)).bind
  intro heap₃ hview₃
  have hnone : ∀ address ∈ (none : Option α),
      (heap.contents address).isSome := by simp
  exact Heap.yields_setBehind hview₃ hnone (.next elm)

theorem Heap.remove_eq (heap : Heap α δ) (elm : α) :
    heap.remove elm = (do
      let record ← heap.load elm
      let heap ← heap.setBehind record.tqePrev record.tqeNext
      let record ← heap.load elm
      heap.store record.tqePrev record.tqeNext) := by
  unfold Heap.remove
  cases heap.load elm with
  | error fault => rfl
  | ok record =>
      cases hnext : record.tqeNext <;>
        simp [bind, Except.bind, Heap.setBehind, hnext]

theorem Heap.yields_remove
    (hrepresents : heap.Represents (before ++ elm :: behind)) :
    Yields Heap.view (heap.remove elm)
      (heap.links.unlink (endSlot (layout α) .head before) behind.head?
        behind.head?, heap.contents) := by
  obtain ⟨hprevious, _, hnext⟩ := hrepresents.at_record
  obtain ⟨datum, hload⟩ := Heap.load_of_links hprevious hnext
  have hbehind : ∀ address ∈ behind.head?, (heap.contents address).isSome := by
    intro address hhead
    apply hrepresents.live
    simp [List.mem_of_mem_head? hhead]
  have hnot : elm ∉ behind.head? := by
    intro hhead
    have hnodup := hrepresents.separate.2.of_append_right
    exact (List.nodup_cons.mp hnodup).1 (List.mem_of_mem_head? hhead)
  rw [entry_layout] at hnext hload
  rw [Heap.remove_eq, hload]
  apply (Heap.yields_setBehind rfl hbehind _).bind
  intro heap₁ hview₁
  have hlinks₁ : heap₁.links = heap.links.setBehind
      (endSlot (layout α) .head before) behind.head? :=
    (Prod.ext_iff.mp hview₁).1
  have hprevious₁ : heap₁.links.previous elm =
      some (endSlot (layout α) .head before) := by
    rw [hlinks₁]
    exact (setPrevious_of_ne _ _ hnot).trans hprevious
  have hnext₁ : heap₁.links.next (.next elm) = some behind.head? := by
    rw [hlinks₁]
    exact hnext
  obtain ⟨datum₁, hload₁⟩ := Heap.load_of_links hprevious₁ hnext₁
  rw [hload₁]
  exact Heap.yields_store hview₁ hrepresents.live_endSlot behind.head?

/-! ## Every run follows the list -/

omit [DecidableEq α] in
theorem Heap.represents_of_yields
    {result : Except Fault (Heap α δ)} {links : Links α (Slot α) (Option α)}
    (hyields : Yields Heap.view result (links, heap.contents))
    (hlinks : links.Represents (layout α) .head none records) :
    ∃ heap', result = .ok heap' ∧ heap'.Represents records ∧
      heap'.contents = heap.contents := by
  obtain ⟨heap', hresult, hview⟩ := hyields
  obtain ⟨rfl, hcontents⟩ := Prod.ext_iff.mp hview
  exact ⟨heap', hresult, hlinks, hcontents⟩

theorem Heap.Represents.link
    (before behind : List α)
    (hrepresents : heap.Represents (before ++ behind))
    (hloose : Loose heap.contents (before ++ behind) elm) :
    (heap.links.link (layout α) (endSlot (layout α) .head before) elm
      behind.head? behind.head?).Represents (layout α) .head none
        (before ++ elm :: behind) := by
  have hlink := Links.Represents.link hrepresents hloose.2 (by simp)
  rwa [entry_layout] at hlink

theorem Heap.perform_refines (capacity : ℕ) :
    Refines (Heap.perform (α := α) (δ := δ)) Macro.command Heap.Represents
      Heap.contents capacity := by
  constructor
  intro heap records operation hrepresents _ hallowed
  cases operation with
  | insertHead elm =>
      have hloose : Loose heap.contents records elm := hallowed
      exact Heap.represents_of_yields
        (Heap.yields_insertHead hrepresents hloose)
        (hrepresents.link [] records hloose)
  | insertTail elm =>
      have hloose : Loose heap.contents records elm := hallowed
      have hyields := Heap.yields_insertTail hrepresents hloose
      rw [← List.append_nil records] at hrepresents hloose
      exact Heap.represents_of_yields hyields
        (hrepresents.link records [] hloose)
  | insertAfter listelm elm =>
      obtain ⟨hmem, hloose⟩ :
          listelm ∈ records ∧ Loose heap.contents records elm := hallowed
      obtain ⟨before, behind, rfl, hnot⟩ := List.eq_append_cons_of_mem hmem
      have hyields := Heap.yields_insertAfter hrepresents hloose
      simp only [Macro.command, Command.apply, insertAfter_split hnot]
      rw [← List.singleton_append, ← List.append_assoc] at hrepresents hloose
      have hlink := hrepresents.link (before ++ [listelm]) behind hloose
      rw [endSlot_append, List.append_assoc] at hlink
      exact Heap.represents_of_yields hyields hlink
  | insertBefore listelm elm =>
      obtain ⟨hmem, hloose⟩ :
          listelm ∈ records ∧ Loose heap.contents records elm := hallowed
      obtain ⟨before, behind, rfl, hnot⟩ := List.eq_append_cons_of_mem hmem
      simp only [Macro.command, Command.apply, insertBefore_split hnot]
      exact Heap.represents_of_yields
        (Heap.yields_insertBefore hrepresents hloose)
        (hrepresents.link before (listelm :: behind) hloose)
  | remove elm =>
      obtain ⟨before, behind, rfl, hnot⟩ :=
        List.eq_append_cons_of_mem (show elm ∈ records from hallowed)
      have hunlink := Links.Represents.unlink
        (show heap.links.Represents (layout α) .head none
          (before ++ ([elm] ++ behind)) from hrepresents)
      rw [entry_layout] at hunlink
      simp only [Macro.command, Command.apply, erase_split hnot]
      exact Heap.represents_of_yields (Heap.yields_remove hrepresents) hunlink

end Macros

/-! ## Both directions of traversal -/

omit [DecidableEq α] in
theorem Heap.Represents.next_eq
    {heap : Heap α δ} {before behind : List α} {elm : α}
    (hrepresents : heap.Represents (before ++ elm :: behind)) :
    heap.next elm = .ok behind.head? := by
  obtain ⟨hprevious, _, hnext⟩ := hrepresents.at_record
  obtain ⟨datum, hload⟩ := Heap.load_of_links hprevious hnext
  rw [entry_layout] at hload
  rw [Heap.next, hload]
  rfl

omit [DecidableEq α] in
/-- Behind the end of the front part of a queue stands the slot that points to
its last record; behind the head's own slot stands the last slot of all, and
that one holds no record. -/
theorem Heap.Represents.fetch_wordBehind
    {heap : Heap α δ} {before behind : List α}
    (hrepresents : heap.Represents (before ++ behind)) :
    (do
      let slot ← heap.wordBehind (endSlot (layout α) .head before)
      heap.fetch slot) = .ok before.getLast? := by
  rcases List.eq_nil_or_concat before with rfl | ⟨front, elm, rfl⟩
  · exact Heap.fetch_of_links hrepresents.at_last
  · rw [List.concat_eq_append] at hrepresents ⊢
    rw [List.append_assoc] at hrepresents
    obtain ⟨hprevious, hpointer, hnext⟩ := hrepresents.at_record
    obtain ⟨datum, hload⟩ := Heap.load_of_links hprevious hnext
    have hfetch := Heap.fetch_of_links hpointer
    simp only [endSlot_append, endSlot_cons, endSlot_nil, layout_slot,
      Heap.wordBehind, hload, List.getLast?_concat]
    exact hfetch

omit [DecidableEq α] in
theorem Heap.Represents.last_eq
    {heap : Heap α δ} {records : List α}
    (hrepresents : heap.Represents records) :
    heap.last = .ok records.getLast? := by
  have hlast : heap.tqhLast = endSlot (layout α) .head records :=
    hrepresents.last
  rw [← List.append_nil records] at hrepresents
  rw [Heap.last, hlast]
  exact hrepresents.fetch_wordBehind

omit [DecidableEq α] in
theorem Heap.Represents.prev_eq
    {heap : Heap α δ} {before behind : List α} {elm : α}
    (hrepresents : heap.Represents (before ++ elm :: behind)) :
    heap.prev elm = .ok before.getLast? := by
  obtain ⟨hprevious, _, hnext⟩ := hrepresents.at_record
  obtain ⟨datum, hload⟩ := Heap.load_of_links hprevious hnext
  rw [Heap.prev, hload]
  exact hrepresents.fetch_wordBehind

omit [DecidableEq α] in
theorem Heap.Represents.foreach_eq
    {heap : Heap α δ} {records : List α}
    (hrepresents : heap.Represents records)
    {fuel : ℕ} (hfuel : records.length ≤ fuel) :
    heap.foreach fuel = .ok records := by
  rw [Heap.foreach, hrepresents.tqhFirst_eq, ← entry_layout]
  apply traverse_eq _ _ rfl _ hfuel
  · intro record
    rfl
  · rintro before record behind rfl
    rw [entry_layout]
    exact hrepresents.next_eq

omit [DecidableEq α] in
theorem Heap.Represents.foreachReverse_eq
    {heap : Heap α δ} {records : List α}
    (hrepresents : heap.Represents records)
    {fuel : ℕ} (hfuel : records.length ≤ fuel) :
    heap.foreachReverse fuel = .ok records.reverse := by
  rw [Heap.foreachReverse, hrepresents.last_eq, ← List.head?_reverse,
    ← entry_layout]
  apply traverse_eq _ _ rfl
  · intro before record behind hsplit
    have hrecords : records = behind.reverse ++ record :: before.reverse := by
      rw [← List.reverse_reverse records, hsplit]
      simp
    subst hrecords
    rw [entry_layout, hrepresents.prev_eq, List.getLast?_reverse]
  · simpa using hfuel
  · intro record
    rfl

omit [DecidableEq α] in
theorem Heap.represents_init (heap : Heap α δ) : heap.init.Represents [] :=
  ⟨⟨rfl, trivial, ⟨by simp, List.nodup_nil⟩⟩, rfl⟩

/-- Whatever is in memory when the head is initialised, a run of macros that
puts in loose records and refers to queued ones never faults; the queue is then
walked in the order of the list, and backwards in its reverse. -/
theorem Heap.foreach_run
    (heap : Heap α δ) (macros : List (Macro α))
    (hallowed : AllowedAll Macro.command heap.contents [] macros)
    {fuel : ℕ} (hfuel : macros.length ≤ fuel) :
    ∃ last, macros.foldlM Heap.perform heap.init = .ok last ∧
      last.foreach fuel = .ok (applyAll Macro.command [] macros) ∧
      last.foreachReverse fuel =
        .ok (applyAll Macro.command [] macros).reverse ∧
      last.contents = heap.contents := by
  obtain ⟨last, hrun, hrepresents, hcontents⟩ :=
    (Heap.perform_refines fuel).run heap.represents_init hallowed (by simpa)
  have hlength := length_applyAll_nil_le Macro.command hfuel
  exact ⟨last, hrun, hrepresents.foreach_eq hlength,
    hrepresents.foreachReverse_eq hlength, hcontents⟩

/-- Four records whose links are not set up. -/
def fourLoose : Heap ℕ ℕ where
  tqhFirst := some 8
  tqhLast := .next 8
  records address :=
    if address < 4 then some ⟨some 8, .next address, 10 * address⟩ else none

theorem foreach_run_fourLoose :
    ∃ last,
      [.insertTail 1, .insertHead 2, .insertAfter 2 3, .insertBefore 2 0,
        .remove 2, .insertTail 2].foldlM Heap.perform fourLoose.init =
          .ok last ∧
      last.foreach 6 = .ok [0, 3, 1, 2] ∧
      last.foreachReverse 6 = .ok [2, 1, 3, 0] ∧
      last.contents = fourLoose.contents :=
  Heap.foreach_run fourLoose
    [.insertTail 1, .insertHead 2, .insertAfter 2 3, .insertBefore 2 0,
      .remove 2, .insertTail 2] (by decide) (by decide)

/-! ## Draining a queue that was built by a run -/

omit [DecidableEq α] in
theorem lastSlot_eq_endSlot (slot : Slot α) (entries : List (α × δ)) :
    TailQueue.lastSlot slot entries =
      endSlot (layout α) slot (entries.map Prod.fst) := by
  induction entries generalizing slot with
  | nil => rfl
  | cons entry rest ih => exact ih (.next entry.1)

omit [DecidableEq α] in
theorem first_eq_head? (entries : List (α × δ)) :
    first entries = (entries.map Prod.fst).head? := by
  cases entries <;> rfl

omit [DecidableEq α] in
theorem chained_of_links
    {heap : Heap α δ} {slot : Slot α} {entries : List (α × δ)}
    (hforward : Forward (layout α) heap.links.next slot
      (entries.map Prod.fst) none)
    (hbackward : Backward (layout α) heap.links.previous slot
      (entries.map Prod.fst))
    (hcontents : ∀ entry ∈ entries, heap.contents entry.1 = some entry.2) :
    Chained heap.records slot entries := by
  induction entries generalizing slot with
  | nil => trivial
  | cons entry rest ih =>
      have hnext := hforward.2.entry_eq
      have hdatum := hcontents entry (by simp)
      obtain ⟨record, hrecord, hprev⟩ := Option.map_eq_some_iff.mp hbackward.1
      refine ⟨?_, ih hforward.2 hbackward.2 fun other hother =>
        hcontents other (by simp [hother])⟩
      have hsuccessor : record.tqeNext = first rest := by
        simpa [Heap.links, hrecord, first_eq_head?] using hnext
      have hvalue : record.datum = entry.2 := by
        simpa [Heap.contents, hrecord] using hdatum
      rw [hrecord, ← hsuccessor, ← hprev, ← hvalue]

/-- The records of a list with what they hold. -/
def entriesOf (contents : α → Option δ) (records : List α) : List (α × δ) :=
  records.filterMap fun address => (contents address).map (address, ·)

omit [DecidableEq α] in
theorem map_fst_entriesOf
    {contents : α → Option δ} {records : List α}
    (hlive : ∀ address ∈ records, (contents address).isSome) :
    (entriesOf contents records).map Prod.fst = records := by
  induction records with
  | nil => rfl
  | cons address rest ih =>
      obtain ⟨datum, hdatum⟩ :=
        Option.isSome_iff_exists.mp (hlive address (by simp))
      have hrest := ih fun other hother => hlive other (by simp [hother])
      rw [entriesOf] at hrest
      simp [entriesOf, hdatum, hrest]

omit [DecidableEq α] in
theorem map_snd_entriesOf (contents : α → Option δ) (records : List α) :
    (entriesOf contents records).map Prod.snd = records.filterMap contents := by
  rw [entriesOf, List.map_filterMap]
  congr 1
  funext address
  cases contents address <;> rfl

omit [DecidableEq α] in
theorem Heap.Represents.wellFormed
    {heap : Heap α δ} {records : List α}
    (hrepresents : heap.Represents records) :
    heap.WellFormed (entriesOf heap.contents records) := by
  have hmap := map_fst_entriesOf fun _ => hrepresents.live
  constructor
  · rw [first_eq_head?, hmap]
    exact hrepresents.tqhFirst_eq
  · rw [lastSlot_eq_endSlot, hmap]
    exact hrepresents.last
  · apply chained_of_links
    · rw [hmap]
      exact hrepresents.forward
    · rw [hmap]
      exact hrepresents.backward
    · intro entry hentry
      obtain ⟨address, _, hvalue⟩ := List.mem_filterMap.mp hentry
      obtain ⟨datum, hdatum, rfl⟩ := Option.map_eq_some_iff.mp hvalue
      exact hdatum
  · rw [hmap]
    exact hrepresents.separate.2

/-- The removing loop after any run: it reads the records in the order of the
list, releases each of them and nothing else, and leaves the queue empty. -/
theorem Heap.drain_run
    (heap : Heap α δ) (macros : List (Macro α))
    (hallowed : AllowedAll Macro.command heap.contents [] macros)
    {fuel : ℕ} (hfuel : macros.length ≤ fuel) :
    ∃ last drained, macros.foldlM Heap.perform heap.init = .ok last ∧
      last.drain fuel = .ok
        ((applyAll Macro.command [] macros).filterMap heap.contents,
          drained) ∧
      drained.WellFormed [] ∧
      ∀ address, drained.contents address =
        if address ∈ applyAll Macro.command [] macros then none
        else heap.contents address := by
  obtain ⟨last, hrun, hrepresents, hcontents⟩ :=
    (Heap.perform_refines fuel).run heap.represents_init hallowed (by simpa)
  have hmap := map_fst_entriesOf fun _ => hrepresents.live
  have hlength :
      (entriesOf last.contents (applyAll Macro.command [] macros)).length ≤
        fuel := by
    rw [← List.length_map Prod.fst, hmap]
    exact length_applyAll_nil_le Macro.command hfuel
  obtain ⟨drained, hdrain, hempty, hreleased, hkept⟩ :=
    hrepresents.wellFormed.drain hlength
  refine ⟨last, drained, hrun, ?_, hempty, ?_⟩
  · rw [hdrain, map_snd_entriesOf, hcontents]
    rfl
  · intro address
    rw [hmap] at hreleased hkept
    by_cases hmem : address ∈ applyAll Macro.command [] macros
    · simp [hmem, Heap.contents, hreleased address hmem]
    · simp only [hmem, if_false]
      calc drained.contents address
          = last.contents address := by
            simp [Heap.contents, hkept address hmem]
        _ = heap.contents address := congrFun hcontents address

theorem drain_run_fourLoose :
    ∃ last drained,
      [.insertHead 1, .insertBefore 1 2, .insertTail 3].foldlM Heap.perform
        fourLoose.init = .ok last ∧
      last.drain 3 = .ok ([20, 10, 30], drained) ∧
      drained.WellFormed [] ∧
      ∀ address, drained.contents address =
        if address ∈ [2, 1, 3] then none else fourLoose.contents address :=
  Heap.drain_run fourLoose
    [.insertHead 1, .insertBefore 1 2, .insertTail 3] (by decide) (by decide)

end LinuxKernelCode.TailQueue
