import LinuxKernelCode.LinkedSlots
import LinuxKernelCode.ListCommands

/-!
# Circular queues

The circular queue of `queue.h`.  The head takes part in the ring as if it were
a record: the last record points to it, and the first one points back to it.
Where the other structures have a null pointer, here the address of the head
is compared with, and each macro decides by such a comparison whether a field
of the head or of a record is to be written.

The ring is a chain whose slots are the nodes themselves and which leaves with
the pointer to the head, so the rules for chains apply to it.
-/

namespace LinuxKernelCode.CircularQueue

open LinuxKernelCode.LinkedSlots
open LinuxKernelCode.ListCommands

universe u

variable {α δ : Type u}

/-- A pointer in the ring: to the head, or to a record. -/
inductive Node (α : Type u) where
  | head
  | record (address : α)
  deriving DecidableEq, Repr

structure Record (α δ : Type u) where
  cqeNext : Node α
  cqePrev : Node α
  datum : δ
  deriving DecidableEq, Repr

inductive Fault where
  | released
  | wild
  | endless
  deriving DecidableEq, Repr

structure Queue (α δ : Type u) where
  cqhFirst : Node α
  cqhLast : Node α
  records : α → Option (Record α δ)

def Queue.init (queue : Queue α δ) : Queue α δ :=
  { queue with cqhFirst := .head, cqhLast := .head }

/-- Access through a pointer that is taken to be one to a record. -/
def Queue.load (queue : Queue α δ) : Node α → Except Fault (Record α δ)
  | .head => .error .wild
  | .record address =>
      match queue.records address with
      | some record => .ok record
      | none => .error .released

section Macros

variable [DecidableEq α]

def Queue.modify
    (queue : Queue α δ) (pointer : Node α)
    (change : Record α δ → Record α δ) : Except Fault (Queue α δ) :=
  match pointer with
  | .head => .error .wild
  | .record address =>
      match queue.records address with
      | some record =>
          .ok { queue with
            records :=
              Function.update queue.records address (some (change record)) }
      | none => .error .released

def Queue.setNext (queue : Queue α δ) (pointer value : Node α) :
    Except Fault (Queue α δ) :=
  queue.modify pointer fun record => { record with cqeNext := value }

def Queue.setPrev (queue : Queue α δ) (pointer value : Node α) :
    Except Fault (Queue α δ) :=
  queue.modify pointer fun record => { record with cqePrev := value }

/-- `if (tested == head) CIRCLEQ_LAST(head) = value;
else CIRCLEQ_PREV(pointer) = value` -/
def Queue.setLastOrPrev (queue : Queue α δ) (tested pointer value : Node α) :
    Except Fault (Queue α δ) :=
  if tested = .head then .ok { queue with cqhLast := value }
  else queue.setPrev pointer value

/-- `if (tested == head) CIRCLEQ_FIRST(head) = value;
else CIRCLEQ_NEXT(pointer) = value` -/
def Queue.setFirstOrNext (queue : Queue α δ) (tested pointer value : Node α) :
    Except Fault (Queue α δ) :=
  if tested = .head then .ok { queue with cqhFirst := value }
  else queue.setNext pointer value

def Queue.insertAfter (queue : Queue α δ) (listelm elm : α) :
    Except Fault (Queue α δ) := do
  let other ← queue.load (.record listelm)
  let queue ← queue.setNext (.record elm) other.cqeNext
  let queue ← queue.setPrev (.record elm) (.record listelm)
  let other ← queue.load (.record listelm)
  let queue ← queue.setLastOrPrev other.cqeNext other.cqeNext (.record elm)
  queue.setNext (.record listelm) (.record elm)

def Queue.insertBefore (queue : Queue α δ) (listelm elm : α) :
    Except Fault (Queue α δ) := do
  let queue ← queue.setNext (.record elm) (.record listelm)
  let other ← queue.load (.record listelm)
  let queue ← queue.setPrev (.record elm) other.cqePrev
  let other ← queue.load (.record listelm)
  let queue ← queue.setFirstOrNext other.cqePrev other.cqePrev (.record elm)
  queue.setPrev (.record listelm) (.record elm)

def Queue.insertHead (queue : Queue α δ) (elm : α) :
    Except Fault (Queue α δ) := do
  let queue ← queue.setNext (.record elm) queue.cqhFirst
  let queue ← queue.setPrev (.record elm) .head
  let queue ← queue.setLastOrPrev queue.cqhLast queue.cqhFirst (.record elm)
  .ok { queue with cqhFirst := .record elm }

def Queue.insertTail (queue : Queue α δ) (elm : α) :
    Except Fault (Queue α δ) := do
  let queue ← queue.setNext (.record elm) .head
  let queue ← queue.setPrev (.record elm) queue.cqhLast
  let queue ← queue.setFirstOrNext queue.cqhFirst queue.cqhLast (.record elm)
  .ok { queue with cqhLast := .record elm }

def Queue.remove (queue : Queue α δ) (elm : α) :
    Except Fault (Queue α δ) := do
  let record ← queue.load (.record elm)
  let queue ← queue.setLastOrPrev record.cqeNext record.cqeNext record.cqePrev
  let record ← queue.load (.record elm)
  queue.setFirstOrNext record.cqePrev record.cqePrev record.cqeNext

/-- The macros that change a queue. -/
inductive Macro (α : Type u) where
  | insertHead (elm : α)
  | insertTail (elm : α)
  | insertAfter (listelm elm : α)
  | insertBefore (listelm elm : α)
  | remove (elm : α)
  deriving DecidableEq, Repr

def Macro.command : Macro α → Command α
  | .insertHead elm => .insertHead elm
  | .insertTail elm => .insertTail elm
  | .insertAfter listelm elm => .insertAfter listelm elm
  | .insertBefore listelm elm => .insertBefore listelm elm
  | .remove elm => .remove elm

def Queue.perform (queue : Queue α δ) : Macro α → Except Fault (Queue α δ)
  | .insertHead elm => queue.insertHead elm
  | .insertTail elm => queue.insertTail elm
  | .insertAfter listelm elm => queue.insertAfter listelm elm
  | .insertBefore listelm elm => queue.insertBefore listelm elm
  | .remove elm => queue.remove elm

end Macros

/-- The loops stop where the variable is the head. -/
def Node.toRecord : Node α → Option α
  | .head => none
  | .record address => some address

def Queue.foreach (fuel : ℕ) (queue : Queue α δ) : Except Fault (List α) :=
  traverse .endless Node.toRecord
    (fun var => do
      let record ← queue.load (.record var)
      .ok record.cqeNext)
    fuel queue.cqhFirst

def Queue.foreachReverse (fuel : ℕ) (queue : Queue α δ) :
    Except Fault (List α) :=
  traverse .endless Node.toRecord
    (fun var => do
      let record ← queue.load (.record var)
      .ok record.cqePrev)
    fuel queue.cqhLast

/-! ## The ring as a chain -/

def layout (α : Type u) : Layout α (Node α) (Node α) where
  slot := .record
  pointer := .record
  slot_injective := fun _ _ hequal => by simpa using hequal

@[simp] theorem layout_slot (address : α) :
    (layout α).slot address = .record address := rfl

/-- In a ring the node before a record is found like the node after it, in the
reversed list. -/
theorem endSlot_eq_entry (records : List α) :
    endSlot (layout α) .head records =
      entry (layout α) records.reverse .head := by
  rcases List.eq_nil_or_concat records with rfl | ⟨front, record, rfl⟩
  · rfl
  · rw [List.concat_eq_append, endSlot_append, List.reverse_append]
    rfl

theorem entry_eq_head_iff (records : List α) :
    entry (layout α) records .head = .head ↔ records = [] := by
  cases records <;> simp [layout]

theorem endSlot_eq_head_iff (records : List α) :
    endSlot (layout α) .head records = .head ↔ records = [] := by
  rw [endSlot_eq_entry, entry_eq_head_iff, List.reverse_eq_nil_iff]

def Queue.links (queue : Queue α δ) : Links α (Node α) (Node α) where
  next
    | .head => some queue.cqhFirst
    | .record address => (queue.records address).map Record.cqeNext
  previous address := (queue.records address).map Record.cqePrev
  last := queue.cqhLast

def Queue.contents (queue : Queue α δ) (address : α) : Option δ :=
  (queue.records address).map Record.datum

def Queue.view (queue : Queue α δ) :
    Links α (Node α) (Node α) × (α → Option δ) :=
  (queue.links, queue.contents)

def Queue.Represents (queue : Queue α δ) (records : List α) : Prop :=
  queue.links.Represents (layout α) .head .head records

theorem Queue.load_of_links
    {queue : Queue α δ} {address : α} {slot pointer : Node α}
    (hprevious : queue.links.previous address = some slot)
    (hnext : queue.links.next (.record address) = some pointer) :
    ∃ datum, queue.load (.record address) = .ok ⟨pointer, slot, datum⟩ := by
  obtain ⟨record, hrecord, rfl⟩ := Option.map_eq_some_iff.mp hprevious
  obtain rfl : record.cqeNext = pointer := by
    simpa [Queue.links, hrecord] using hnext
  exact ⟨record.datum, by simp [Queue.load, hrecord]⟩

section Traversal

variable {queue : Queue α δ} {records before behind : List α} {elm : α}

theorem Queue.Represents.live
    (hrepresents : queue.Represents records)
    {address : α} (hmem : address ∈ records) :
    (queue.contents address).isSome := by
  obtain ⟨before, behind, rfl⟩ := List.append_of_mem hmem
  obtain ⟨record, hrecord, _⟩ :=
    Option.map_eq_some_iff.mp hrepresents.toLinked.at_record.1
  simp [Queue.contents, hrecord]

theorem Queue.Represents.load_eq
    (hrepresents : queue.Represents (before ++ elm :: behind)) :
    ∃ datum, queue.load (.record elm) =
      .ok ⟨entry (layout α) behind .head,
        endSlot (layout α) .head before, datum⟩ := by
  obtain ⟨hprevious, _, hnext⟩ := hrepresents.toLinked.at_record
  exact Queue.load_of_links hprevious hnext

theorem Queue.Represents.cqhFirst_eq (hrepresents : queue.Represents records) :
    queue.cqhFirst = entry (layout α) records .head :=
  Option.some.inj hrepresents.forward.entry_eq

theorem Queue.Represents.foreach_eq
    (hrepresents : queue.Represents records)
    {fuel : ℕ} (hfuel : records.length ≤ fuel) :
    queue.foreach fuel = .ok records := by
  rw [Queue.foreach, hrepresents.cqhFirst_eq]
  apply traverse_eq _ _ rfl _ hfuel
  · intro record
    rfl
  · rintro before record behind rfl
    obtain ⟨datum, hload⟩ := hrepresents.load_eq
    rw [hload]
    rfl

theorem Queue.Represents.foreachReverse_eq
    (hrepresents : queue.Represents records)
    {fuel : ℕ} (hfuel : records.length ≤ fuel) :
    queue.foreachReverse fuel = .ok records.reverse := by
  have hlast : queue.cqhLast = entry (layout α) records.reverse .head := by
    rw [← endSlot_eq_entry]
    exact hrepresents.last
  rw [Queue.foreachReverse, hlast]
  apply traverse_eq _ _ rfl
  · intro before record behind hsplit
    have hrecords : records = behind.reverse ++ record :: before.reverse := by
      rw [← List.reverse_reverse records, hsplit]
      simp
    subst hrecords
    obtain ⟨datum, hload⟩ := hrepresents.load_eq
    rw [endSlot_eq_entry, List.reverse_reverse] at hload
    rw [hload]
    rfl
  · simpa using hfuel
  · intro record
    rfl

end Traversal

/-! ## What the single assignments do to the links -/

variable [DecidableEq α]

section Assignments

variable {queue : Queue α δ} {links : Links α (Node α) (Node α)}
  {contents : α → Option δ}

/-- A write of the links of a live record. -/
theorem Queue.yields_modify
    (hview : queue.view = (links, contents)) {address : α}
    (hlive : (contents address).isSome)
    {change : Record α δ → Record α δ}
    (hdatum : ∀ record, (change record).datum = record.datum) :
    ∃ old, links.next (.record address) = some old.cqeNext ∧
      links.previous address = some old.cqePrev ∧
      Yields Queue.view (queue.modify (.record address) change)
        ({ links with
            next := Function.update links.next (.record address)
              (some (change old).cqeNext)
            previous := Function.update links.previous address
              (some (change old).cqePrev) }, contents) := by
  obtain ⟨rfl, rfl⟩ := Prod.ext_iff.mp hview
  obtain ⟨old, hold⟩ : ∃ old, queue.records address = some old := by
    simpa [Queue.view, Queue.contents, Option.isSome_iff_exists] using hlive
  have hnext : ({ queue with
      records := Function.update queue.records address
        (some (change old)) } : Queue α δ).links.next =
      Function.update queue.links.next (.record address)
        (some (change old).cqeNext) := by
    funext slot
    cases slot with
    | head => rfl
    | record other =>
        by_cases hother : other = address
        · simp [hother, Queue.links]
        · simp [Queue.links, hother]
  have hprevious : ({ queue with
      records := Function.update queue.records address
        (some (change old)) } : Queue α δ).links.previous =
      Function.update queue.links.previous address
        (some (change old).cqePrev) :=
    Function.comp_update (Option.map Record.cqePrev) queue.records address _
  have hcontents : ({ queue with
      records := Function.update queue.records address
        (some (change old)) } : Queue α δ).contents = queue.contents := by
    funext other
    by_cases hother : other = address
    · simp [hother, Queue.contents, hold, hdatum]
    · simp [Queue.contents, hother]
  refine ⟨old, by simp [Queue.view, Queue.links, hold],
    by simp [Queue.view, Queue.links, hold], _,
    by simp [Queue.modify, hold]; rfl, ?_⟩
  refine Prod.ext ?_ hcontents
  simp only [Queue.view]
  rw [← hnext, ← hprevious]
  rfl

theorem Queue.yields_setNext
    (hview : queue.view = (links, contents)) {address : α}
    (hlive : (contents address).isSome) (value : Node α) :
    Yields Queue.view (queue.setNext (.record address) value)
      ({ links with
          next := Function.update links.next (.record address)
            (some value) }, contents) := by
  obtain ⟨old, _, hold, hyields⟩ := Queue.yields_modify hview hlive
    (show ∀ record : Record α δ,
      ({ record with cqeNext := value } : Record α δ).datum = record.datum
        from fun _ => rfl)
  have hself : Function.update links.previous address (some old.cqePrev) =
      links.previous := Function.update_eq_self_iff.mpr hold.symm
  rwa [hself] at hyields

theorem Queue.yields_setPrev
    (hview : queue.view = (links, contents)) {address : α}
    (hlive : (contents address).isSome) (value : Node α) :
    Yields Queue.view (queue.setPrev (.record address) value)
      ({ links with
          previous := Function.update links.previous address
            (some value) }, contents) := by
  obtain ⟨old, hold, _, hyields⟩ := Queue.yields_modify hview hlive
    (show ∀ record : Record α δ,
      ({ record with cqePrev := value } : Record α δ).datum = record.datum
        from fun _ => rfl)
  have hself : Function.update links.next (.record address)
      (some old.cqeNext) = links.next :=
    Function.update_eq_self_iff.mpr hold.symm
  rwa [hself] at hyields

theorem Queue.yields_setLastOrPrev
    (hview : queue.view = (links, contents)) {behind : List α}
    (hlive : ∀ address ∈ behind.head?, (contents address).isSome)
    {tested : Node α} (htested : tested = .head ↔ behind = [])
    (value : Node α) :
    Yields Queue.view
      (queue.setLastOrPrev tested (entry (layout α) behind .head) value)
      (links.setBehind value behind.head?, contents) := by
  cases behind with
  | nil =>
      obtain ⟨rfl, rfl⟩ := Prod.ext_iff.mp hview
      rw [Queue.setLastOrPrev, if_pos (htested.mpr rfl)]
      exact ⟨_, rfl, rfl⟩
  | cons address rest =>
      rw [Queue.setLastOrPrev, if_neg (by simpa using htested)]
      exact Queue.yields_setPrev hview (hlive address rfl) value

theorem Queue.yields_setFirst
    (hview : queue.view = (links, contents)) (value : Node α) :
    Yields Queue.view
      (.ok { queue with cqhFirst := value } : Except Fault (Queue α δ))
      ({ links with next := Function.update links.next .head (some value) },
        contents) := by
  obtain ⟨rfl, rfl⟩ := Prod.ext_iff.mp hview
  have hnext : ({ queue with cqhFirst := value } : Queue α δ).links.next =
      Function.update queue.links.next .head (some value) := by
    funext slot
    cases slot <;> rfl
  refine ⟨_, rfl, ?_⟩
  simp only [Queue.view]
  rw [← hnext]
  rfl

theorem Queue.yields_setFirstOrNext
    (hview : queue.view = (links, contents)) {slot : Node α}
    (hlive : ∀ address, slot = .record address → (contents address).isSome)
    {tested : Node α} (htested : tested = .head ↔ slot = .head)
    (value : Node α) :
    Yields Queue.view (queue.setFirstOrNext tested slot value)
      ({ links with next := Function.update links.next slot (some value) },
        contents) := by
  cases slot with
  | head =>
      rw [Queue.setFirstOrNext, if_pos (htested.mpr rfl)]
      exact Queue.yields_setFirst hview value
  | record address =>
      rw [Queue.setFirstOrNext, if_neg (by simpa using htested)]
      exact Queue.yields_setNext hview (hlive address rfl) value

end Assignments

/-! ## What the macros do to the ring -/

section Macros

variable {queue : Queue α δ} {before behind records : List α}
  {elm listelm : α}

omit [DecidableEq α] in
theorem Queue.represents_of_yields
    {result : Except Fault (Queue α δ)} {links : Links α (Node α) (Node α)}
    (hyields : Yields Queue.view result (links, queue.contents))
    (hlinks : links.Represents (layout α) .head .head records) :
    ∃ queue', result = .ok queue' ∧ queue'.Represents records ∧
      queue'.contents = queue.contents := by
  obtain ⟨queue', hresult, hview⟩ := hyields
  obtain ⟨rfl, hcontents⟩ := Prod.ext_iff.mp hview
  exact ⟨queue', hresult, hlinks, hcontents⟩

omit [DecidableEq α] in
theorem Queue.Represents.live_head
    (before behind : List α)
    (hrepresents : queue.Represents (before ++ behind)) :
    ∀ address ∈ behind.head?, (queue.contents address).isSome := by
  intro address hhead
  apply hrepresents.live
  simp [List.mem_of_mem_head? hhead]

omit [DecidableEq α] in
theorem Queue.Represents.live_endSlot
    (hrepresents : queue.Represents (before ++ behind)) :
    ∀ address, endSlot (layout α) .head before = .record address →
      (queue.contents address).isSome := by
  intro address hlast
  have hmem : endSlot (layout α) .head before ∈
      Node.head :: before.map Node.record := endSlot_mem
  apply hrepresents.live
  rw [hlast] at hmem
  have hbefore : address ∈ before := by simpa using hmem
  simp [hbefore]

/-- The new record is linked into the ring: its own two pointers are set first,
then the pointer back to it, then the pointer to it. -/
theorem Queue.Represents.linked
    (before behind : List α)
    (hrepresents : queue.Represents (before ++ behind))
    (hloose : Loose queue.contents (before ++ behind) elm)
    {result : Except Fault (Queue α δ)}
    (hyields : Yields Queue.view result
      ({ queue.links with
          next := Function.update
            (Function.update queue.links.next (.record elm)
              (some (entry (layout α) behind .head)))
            (endSlot (layout α) .head before) (some (.record elm))
          previous := setPrevious
            (Function.update queue.links.previous elm
              (some (endSlot (layout α) .head before)))
            (.record elm) behind.head?
          last := lastBehind (.record elm) queue.cqhLast behind.head? },
        queue.contents)) :
    ∃ queue', result = .ok queue' ∧
      queue'.Represents (before ++ elm :: behind) ∧
      queue'.contents = queue.contents := by
  have hnot : elm ∉ behind.head? := by
    intro hhead
    apply hloose.2
    simp [List.mem_of_mem_head? hhead]
  rw [setPrevious_update _ _ hnot] at hyields
  exact Queue.represents_of_yields hyields
    (Links.Represents.link hrepresents hloose.2 (by simp))

theorem Queue.Represents.insertHead
    (hrepresents : queue.Represents records)
    (hloose : Loose queue.contents records elm) :
    ∃ queue', queue.insertHead elm = .ok queue' ∧
      queue'.Represents (elm :: records) ∧
      queue'.contents = queue.contents := by
  have hlast : queue.cqhLast = endSlot (layout α) .head records :=
    hrepresents.last
  have hfirst := hrepresents.cqhFirst_eq
  apply Queue.Represents.linked [] records hrepresents hloose
  rw [Queue.insertHead, hfirst]
  apply (Queue.yields_setNext rfl hloose.1 _).bind
  intro queue₁ hview₁
  apply (Queue.yields_setPrev hview₁ hloose.1 .head).bind
  intro queue₂ hview₂
  have hlast₂ : queue₂.cqhLast = queue.cqhLast :=
    congrArg (fun view => view.1.last) hview₂
  have hfirst₂ : queue₂.cqhFirst = entry (layout α) records .head := by
    have hhead := congrArg (fun view => view.1.next Node.head) hview₂
    simpa [Queue.view, Queue.links, hfirst] using hhead
  have htested : queue₂.cqhLast = .head ↔ records = [] := by
    rw [hlast₂, hlast, endSlot_eq_head_iff]
  rw [hfirst₂]
  apply (Queue.yields_setLastOrPrev hview₂
    (Queue.Represents.live_head [] records hrepresents) htested
    (.record elm)).bind
  intro queue₃ hview₃
  exact Queue.yields_setFirst hview₃ (.record elm)

theorem Queue.Represents.insertTail
    (hrepresents : queue.Represents records)
    (hloose : Loose queue.contents records elm) :
    ∃ queue', queue.insertTail elm = .ok queue' ∧
      queue'.Represents (records ++ [elm]) ∧
      queue'.contents = queue.contents := by
  have hlast : queue.cqhLast = endSlot (layout α) .head records :=
    hrepresents.last
  have hfirst := hrepresents.cqhFirst_eq
  have htested : queue.cqhFirst = .head ↔
      endSlot (layout α) .head records = .head := by
    rw [hfirst, entry_eq_head_iff, endSlot_eq_head_iff]
  rw [← List.append_nil records] at hrepresents hloose
  apply hrepresents.linked records [] hloose
  rw [Queue.insertTail]
  apply (Queue.yields_setNext rfl hloose.1 .head).bind
  intro queue₁ hview₁
  have hlast₁ : queue₁.cqhLast = queue.cqhLast :=
    congrArg (fun view => view.1.last) hview₁
  rw [hlast₁, hlast]
  apply (Queue.yields_setPrev hview₁ hloose.1 _).bind
  intro queue₂ hview₂
  have hlast₂ : queue₂.cqhLast = queue.cqhLast :=
    congrArg (fun view => view.1.last) hview₂
  have hfirst₂ : queue₂.cqhFirst = queue.cqhFirst := by
    have hhead := congrArg (fun view => view.1.next Node.head) hview₂
    simpa [Queue.view, Queue.links] using hhead
  rw [hlast₂, hlast, hfirst₂]
  apply (Queue.yields_setFirstOrNext hview₂ hrepresents.live_endSlot htested
    (.record elm)).bind
  intro queue₃ hview₃
  obtain ⟨hlinks₃, hcontents₃⟩ := Prod.ext_iff.mp hview₃
  refine ⟨_, rfl, Prod.ext ?_ hcontents₃⟩
  exact congrArg (fun links => { links with last := Node.record elm }) hlinks₃

theorem Queue.Represents.insertAfter
    (hrepresents : queue.Represents (before ++ listelm :: behind))
    (hloose : Loose queue.contents (before ++ listelm :: behind) elm) :
    ∃ queue', queue.insertAfter listelm elm = .ok queue' ∧
      queue'.Represents (before ++ listelm :: elm :: behind) ∧
      queue'.contents = queue.contents := by
  obtain ⟨hprevious, _, hnext⟩ := hrepresents.toLinked.at_record
  obtain ⟨datum, hload⟩ := Queue.load_of_links hprevious hnext
  have hlive : (queue.contents listelm).isSome := hrepresents.live (by simp)
  have hne : listelm ≠ elm := by
    rintro rfl
    exact hloose.2 (by simp)
  have hsplit : before ++ listelm :: behind =
      before ++ [listelm] ++ behind := by simp
  have hsplit' : before ++ listelm :: elm :: behind =
      before ++ [listelm] ++ elm :: behind := by simp
  rw [hsplit] at hrepresents hloose
  rw [hsplit']
  apply hrepresents.linked (before ++ [listelm]) behind hloose
  rw [Queue.insertAfter, hload]
  apply (Queue.yields_setNext rfl hloose.1 _).bind
  intro queue₁ hview₁
  apply (Queue.yields_setPrev hview₁ hloose.1 (.record listelm)).bind
  intro queue₂ hview₂
  have hlinks₂ := (Prod.ext_iff.mp hview₂).1
  simp only [Queue.view] at hlinks₂
  have hprevious₂ : queue₂.links.previous listelm =
      some (endSlot (layout α) .head before) := by
    rw [hlinks₂]
    simpa [Function.update_of_ne hne] using hprevious
  have hnext₂ : queue₂.links.next (.record listelm) =
      some (entry (layout α) behind .head) := by
    rw [hlinks₂]
    simpa [Function.update_apply, hne] using hnext
  obtain ⟨datum₂, hload₂⟩ := Queue.load_of_links hprevious₂ hnext₂
  rw [hload₂]
  apply (Queue.yields_setLastOrPrev hview₂
    (hrepresents.live_head (before ++ [listelm]) behind)
    (entry_eq_head_iff behind) (.record elm)).bind
  intro queue₃ hview₃
  rw [endSlot_append]
  exact Queue.yields_setNext hview₃ hlive (.record elm)

theorem Queue.Represents.insertBefore
    (hrepresents : queue.Represents (before ++ listelm :: behind))
    (hloose : Loose queue.contents (before ++ listelm :: behind) elm) :
    ∃ queue', queue.insertBefore listelm elm = .ok queue' ∧
      queue'.Represents (before ++ elm :: listelm :: behind) ∧
      queue'.contents = queue.contents := by
  obtain ⟨hprevious, _, hnext⟩ := hrepresents.toLinked.at_record
  have hlive : (queue.contents listelm).isSome := hrepresents.live (by simp)
  have hne : listelm ≠ elm := by
    rintro rfl
    exact hloose.2 (by simp)
  apply hrepresents.linked before (listelm :: behind) hloose
  rw [Queue.insertBefore]
  apply (Queue.yields_setNext rfl hloose.1 (.record listelm)).bind
  intro queue₁ hview₁
  have hlinks₁ := (Prod.ext_iff.mp hview₁).1
  simp only [Queue.view] at hlinks₁
  have hprevious₁ : queue₁.links.previous listelm =
      some (endSlot (layout α) .head before) := by
    rw [hlinks₁]
    exact hprevious
  have hnext₁ : queue₁.links.next (.record listelm) =
      some (entry (layout α) behind .head) := by
    rw [hlinks₁]
    simpa [Function.update_apply, hne] using hnext
  obtain ⟨datum₁, hload₁⟩ := Queue.load_of_links hprevious₁ hnext₁
  rw [hload₁]
  apply (Queue.yields_setPrev hview₁ hloose.1 _).bind
  intro queue₂ hview₂
  have hlinks₂ := (Prod.ext_iff.mp hview₂).1
  simp only [Queue.view] at hlinks₂
  have hprevious₂ : queue₂.links.previous listelm =
      some (endSlot (layout α) .head before) := by
    rw [hlinks₂]
    simpa [Function.update_of_ne hne] using hprevious
  have hnext₂ : queue₂.links.next (.record listelm) =
      some (entry (layout α) behind .head) := by
    rw [hlinks₂]
    simpa [Function.update_apply, hne] using hnext
  obtain ⟨datum₂, hload₂⟩ := Queue.load_of_links hprevious₂ hnext₂
  rw [hload₂]
  apply (Queue.yields_setFirstOrNext hview₂ hrepresents.live_endSlot Iff.rfl
    (.record elm)).bind
  intro queue₃ hview₃
  exact Queue.yields_setPrev hview₃ hlive (.record elm)

theorem Queue.Represents.remove
    (hrepresents : queue.Represents (before ++ elm :: behind)) :
    ∃ queue', queue.remove elm = .ok queue' ∧
      queue'.Represents (before ++ behind) ∧
      queue'.contents = queue.contents := by
  have hunlink := Links.Represents.unlink
    (show queue.links.Represents (layout α) .head .head
      (before ++ ([elm] ++ behind)) from hrepresents)
  obtain ⟨hprevious, _, hnext⟩ := hrepresents.toLinked.at_record
  obtain ⟨datum, hload⟩ := Queue.load_of_links hprevious hnext
  have hbehind : ∀ address ∈ behind.head?,
      (queue.contents address).isSome := by
    intro address hhead
    apply hrepresents.live
    simp [List.mem_of_mem_head? hhead]
  have hnot : elm ∉ behind.head? := by
    intro hhead
    have hnodup := hrepresents.separate.2.of_append_right
    exact (List.nodup_cons.mp hnodup).1 (List.mem_of_mem_head? hhead)
  refine Queue.represents_of_yields ?_ hunlink
  rw [Queue.remove, hload]
  apply (Queue.yields_setLastOrPrev rfl hbehind (entry_eq_head_iff behind)
    _).bind
  intro queue₁ hview₁
  have hlinks₁ := (Prod.ext_iff.mp hview₁).1
  simp only [Queue.view] at hlinks₁
  have hprevious₁ : queue₁.links.previous elm =
      some (endSlot (layout α) .head before) := by
    rw [hlinks₁]
    exact (setPrevious_of_ne _ _ hnot).trans hprevious
  have hnext₁ : queue₁.links.next (.record elm) =
      some (entry (layout α) behind .head) := by
    rw [hlinks₁]
    exact hnext
  obtain ⟨datum₁, hload₁⟩ := Queue.load_of_links hprevious₁ hnext₁
  rw [hload₁]
  exact Queue.yields_setFirstOrNext hview₁ hrepresents.live_endSlot Iff.rfl _

theorem Queue.perform_refines (capacity : ℕ) :
    Refines (Queue.perform (α := α) (δ := δ)) Macro.command Queue.Represents
      Queue.contents capacity := by
  constructor
  intro queue records operation hrepresents _ hallowed
  cases operation with
  | insertHead elm => exact hrepresents.insertHead hallowed
  | insertTail elm => exact hrepresents.insertTail hallowed
  | insertAfter listelm elm =>
      obtain ⟨hmem, hloose⟩ :
          listelm ∈ records ∧ Loose queue.contents records elm := hallowed
      obtain ⟨before, behind, rfl, hnot⟩ := List.eq_append_cons_of_mem hmem
      simp only [Macro.command, Command.apply, insertAfter_split hnot]
      exact hrepresents.insertAfter hloose
  | insertBefore listelm elm =>
      obtain ⟨hmem, hloose⟩ :
          listelm ∈ records ∧ Loose queue.contents records elm := hallowed
      obtain ⟨before, behind, rfl, hnot⟩ := List.eq_append_cons_of_mem hmem
      simp only [Macro.command, Command.apply, insertBefore_split hnot]
      exact hrepresents.insertBefore hloose
  | remove elm =>
      obtain ⟨before, behind, rfl, hnot⟩ :=
        List.eq_append_cons_of_mem (show elm ∈ records from hallowed)
      simp only [Macro.command, Command.apply, erase_split hnot]
      exact hrepresents.remove

end Macros

omit [DecidableEq α] in
theorem Queue.represents_init (queue : Queue α δ) :
    queue.init.Represents [] :=
  ⟨⟨rfl, trivial, by simp, List.nodup_nil⟩, rfl⟩

/-- Over any run of the macros the ring is walked from the head in the order of
the list, backwards in its reverse, and both walks come back to the head. -/
theorem Queue.foreach_run_circleq
    (queue : Queue α δ) (macros : List (Macro α))
    (hallowed : AllowedAll Macro.command queue.contents [] macros)
    {fuel : ℕ} (hfuel : macros.length ≤ fuel) :
    ∃ last, macros.foldlM Queue.perform queue.init = .ok last ∧
      last.foreach fuel = .ok (applyAll Macro.command [] macros) ∧
      last.foreachReverse fuel =
        .ok (applyAll Macro.command [] macros).reverse ∧
      last.contents = queue.contents := by
  obtain ⟨last, hrun, hrepresents, hcontents⟩ :=
    (Queue.perform_refines fuel).run queue.represents_init hallowed (by simpa)
  have hlength := length_applyAll_nil_le Macro.command hfuel
  exact ⟨last, hrun, hrepresents.foreach_eq hlength,
    hrepresents.foreachReverse_eq hlength, hcontents⟩

/-- Three records outside the ring. -/
def outside : Queue ℕ ℕ where
  cqhFirst := .record 4
  cqhLast := .record 4
  records address :=
    if address < 3 then some ⟨.record 4, .head, 100 + address⟩ else none

theorem foreach_run_outside :
    ∃ last,
      [.insertTail 2, .insertHead 0, .insertBefore 2 1, .remove 0,
        .insertAfter 1 0].foldlM Queue.perform outside.init = .ok last ∧
      last.foreach 5 = .ok [1, 0, 2] ∧
      last.foreachReverse 5 = .ok [2, 0, 1] ∧
      last.contents = outside.contents :=
  Queue.foreach_run_circleq outside
    [.insertTail 2, .insertHead 0, .insertBefore 2 1, .remove 0,
      .insertAfter 1 0] (by decide) (by decide)

end LinuxKernelCode.CircularQueue
