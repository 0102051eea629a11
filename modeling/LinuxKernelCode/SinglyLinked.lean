import LinuxKernelCode.TailQueueRuns

/-!
# Singly linked lists and tail queues

The two singly linked structures of `queue.h`.  A record holds the pointer to
the next one and nothing that leads back, so to take out a record that is not
the first, the macro walks from the head until it finds the record in front of
it.  The walk does not look for the end of the list: if the record is not in
it, the null pointer behind the last record is followed.

The tail queue also keeps the address of its last next-slot, which every macro
that changes the end has to carry along.
-/

namespace LinuxKernelCode.SinglyLinked

open LinuxKernelCode.LinkedSlots
open LinuxKernelCode.ListCommands
open LinuxKernelCode.TailQueue (Slot layout layout_slot entry_layout)

universe u

variable {α δ : Type u}

structure Record (α δ : Type u) where
  next : Option α
  datum : δ
  deriving DecidableEq, Repr

inductive Fault where
  | null
  | released
  | wild
  | endless
  deriving DecidableEq, Repr

/-- The contents of the live addresses. -/
abbrev Records (α δ : Type u) : Type u := α → Option (Record α δ)

/-- The next pointer of the record that is pointed to. -/
def Records.next (records : Records α δ) : Option α → Except Fault (Option α)
  | none => .error .null
  | some address =>
      match records address with
      | some record => .ok record.next
      | none => .error .released

section Macros

variable [DecidableEq α]

def Records.setNext (records : Records α δ) (address : α) (next : Option α) :
    Except Fault (Records α δ) :=
  match records address with
  | some record =>
      .ok (Function.update records address (some { record with next := next }))
  | none => .error .released

/-- The loop of the two removal macros: `curelm` goes on until its next pointer
is the record that is to be removed. -/
def Records.findBefore (records : Records α δ) (elm : α) :
    ℕ → Option α → Except Fault α
  | 0, _ => .error .endless
  | _ + 1, none => .error .null
  | fuel + 1, some curelm => do
      let next ← records.next (some curelm)
      if next = some elm then .ok curelm
      else Records.findBefore records elm fuel next

/-! ## The list -/

structure SList (α δ : Type u) where
  slhFirst : Option α
  records : Records α δ

def SList.init (list : SList α δ) : SList α δ := { list with slhFirst := none }

def SList.setNext (list : SList α δ) (address : α) (next : Option α) :
    Except Fault (SList α δ) := do
  let records ← list.records.setNext address next
  .ok { list with records := records }

def SList.insertAfter (list : SList α δ) (slistelm elm : α) :
    Except Fault (SList α δ) := do
  let next ← list.records.next (some slistelm)
  let list ← list.setNext elm next
  list.setNext slistelm (some elm)

def SList.insertHead (list : SList α δ) (elm : α) :
    Except Fault (SList α δ) := do
  let list ← list.setNext elm list.slhFirst
  .ok { list with slhFirst := some elm }

def SList.removeHead (list : SList α δ) : Except Fault (SList α δ) := do
  let next ← list.records.next list.slhFirst
  .ok { list with slhFirst := next }

def SList.remove (fuel : ℕ) (list : SList α δ) (elm : α) :
    Except Fault (SList α δ) :=
  if list.slhFirst = some elm then list.removeHead
  else do
    let curelm ← list.records.findBefore elm fuel list.slhFirst
    let next ← list.records.next (some curelm)
    let next ← list.records.next next
    list.setNext curelm next

def SList.foreach (fuel : ℕ) (list : SList α δ) : Except Fault (List α) :=
  traverse .endless id (fun var => list.records.next (some var)) fuel
    list.slhFirst

/-! ## The tail queue -/

structure STailQ (α δ : Type u) where
  stqhFirst : Option α
  stqhLast : Slot α
  records : Records α δ

def STailQ.init (queue : STailQ α δ) : STailQ α δ :=
  { queue with stqhFirst := none, stqhLast := .head }

/-- The assignment to `stqh_last` that follows when a pointer that was just
stored is null. -/
def STailQ.setLast (queue : STailQ α δ) (slot : Slot α) :
    Option α → STailQ α δ
  | none => { queue with stqhLast := slot }
  | some _ => queue

def STailQ.store (queue : STailQ α δ) (slot : Slot α) (pointer : Option α) :
    Except Fault (STailQ α δ) :=
  match slot with
  | .head => .ok { queue with stqhFirst := pointer }
  | .next address => do
      let records ← queue.records.setNext address pointer
      .ok { queue with records := records }

def STailQ.insertAfter (queue : STailQ α δ) (tqelm elm : α) :
    Except Fault (STailQ α δ) := do
  let next ← queue.records.next (some tqelm)
  let queue ← queue.store (.next elm) next
  let queue := queue.setLast (.next elm) next
  queue.store (.next tqelm) (some elm)

def STailQ.insertHead (queue : STailQ α δ) (elm : α) :
    Except Fault (STailQ α δ) := do
  let first := queue.stqhFirst
  let queue ← queue.store (.next elm) first
  let queue := queue.setLast (.next elm) first
  queue.store .head (some elm)

def STailQ.insertTail (queue : STailQ α δ) (elm : α) :
    Except Fault (STailQ α δ) := do
  let queue ← queue.store (.next elm) none
  let queue ← queue.store queue.stqhLast (some elm)
  .ok { queue with stqhLast := .next elm }

def STailQ.removeHead (queue : STailQ α δ) : Except Fault (STailQ α δ) := do
  let next ← queue.records.next queue.stqhFirst
  let queue ← queue.store .head next
  .ok (queue.setLast .head next)

def STailQ.removeHeadUntil (queue : STailQ α δ) (elm : α) :
    Except Fault (STailQ α δ) := do
  let next ← queue.records.next (some elm)
  let queue ← queue.store .head next
  .ok (queue.setLast .head next)

def STailQ.remove (fuel : ℕ) (queue : STailQ α δ) (elm : α) :
    Except Fault (STailQ α δ) :=
  if queue.stqhFirst = some elm then queue.removeHead
  else do
    let curelm ← queue.records.findBefore elm fuel queue.stqhFirst
    let next ← queue.records.next (some curelm)
    let next ← queue.records.next next
    let queue ← queue.store (.next curelm) next
    .ok (queue.setLast (.next curelm) next)

/-- The record around the last next-slot; the head's own slot is in none. -/
def STailQ.last (queue : STailQ α δ) : Except Fault (Option α) :=
  match queue.stqhFirst with
  | none => .ok none
  | some _ =>
      match queue.stqhLast with
      | .next address => .ok (some address)
      | .head => .error .wild

def STailQ.foreach (fuel : ℕ) (queue : STailQ α δ) : Except Fault (List α) :=
  traverse .endless id (fun var => queue.records.next (some var)) fuel
    queue.stqhFirst

end Macros

/-! ## What the single assignments do to the links -/

def Records.contents (records : Records α δ) (address : α) : Option δ :=
  (records address).map Record.datum

/-- The pointers in the slots of a head with the given first record. -/
def Records.slots (records : Records α δ) (first : Option α) :
    Slot α → Option (Option α)
  | .head => some first
  | .next address => (records address).map Record.next

theorem Records.next_of_slots
    {records : Records α δ} {first pointer : Option α} {address : α}
    (hslot : records.slots first (.next address) = some pointer) :
    records.next (some address) = .ok pointer := by
  obtain ⟨record, hrecord, rfl⟩ := Option.map_eq_some_iff.mp hslot
  simp [Records.next, hrecord]

variable [DecidableEq α]

theorem Records.slots_head_update
    (records : Records α δ) (first pointer : Option α) :
    Function.update (records.slots first) .head (some pointer) =
      records.slots pointer := by
  funext slot
  cases slot <;> rfl

theorem Records.setNext_eq
    {records : Records α δ} {address : α}
    (hlive : (records.contents address).isSome) (first next : Option α) :
    ∃ records', records.setNext address next = .ok records' ∧
      records'.slots first =
        Function.update (records.slots first) (.next address) (some next) ∧
      records'.contents = records.contents := by
  obtain ⟨record, hrecord⟩ : ∃ record, records address = some record := by
    simpa [Records.contents, Option.isSome_iff_exists] using hlive
  refine ⟨Function.update records address (some { record with next := next }),
    by simp [Records.setNext, hrecord], ?_, ?_⟩
  · funext slot
    cases slot with
    | head => rfl
    | next other =>
        by_cases hother : other = address
        · simp [hother, Records.slots]
        · simp [Records.slots, hother]
  · funext other
    by_cases hother : other = address
    · simp [hother, Records.contents, hrecord]
    · simp [Records.contents, hother]

/-! ## The walk to the record in front -/

section Walk

variable {records : Records α δ} {first : Option α} {slot : Slot α} {elm : α}

theorem Records.findBefore_step
    {curelm : α} {next : Option α}
    (hnext : records.next (some curelm) = .ok next)
    (hne : next ≠ some elm) (fuel : ℕ) :
    records.findBefore elm (fuel + 1) (some curelm) =
      records.findBefore elm fuel next := by
  simp [Records.findBefore, hnext, bind, Except.bind, hne]

theorem Records.findBefore_eq
    {front behind : List α} {previous : α}
    (hforward : Forward (layout α) (records.slots first) slot
      (front ++ previous :: elm :: behind) none)
    (hnot : elm ∉ front ++ [previous]) {fuel : ℕ}
    (hfuel : front.length < fuel) :
    records.findBefore elm fuel (front ++ [previous]).head? =
      .ok previous := by
  induction front generalizing slot fuel with
  | nil =>
      obtain ⟨fuel, rfl⟩ :=
        Nat.exists_eq_add_one_of_ne_zero (Nat.ne_zero_of_lt hfuel)
      have hnext := Records.next_of_slots hforward.2.entry_eq
      simp [Records.findBefore, hnext, bind, Except.bind, layout]
  | cons record rest ih =>
      simp only [List.length_cons] at hfuel
      obtain ⟨fuel, rfl⟩ :=
        Nat.exists_eq_add_one_of_ne_zero (Nat.ne_zero_of_lt hfuel)
      have hnext := Records.next_of_slots hforward.2.entry_eq
      have hhead : (rest ++ previous :: elm :: behind).head? =
          (rest ++ [previous]).head? := by
        cases rest <;> rfl
      rw [entry_layout] at hnext
      replace hnext := hnext.trans (congrArg Except.ok hhead)
      have hne : (rest ++ [previous]).head? ≠ some elm := by
        intro hequal
        exact hnot (List.mem_cons_of_mem _ (List.mem_of_mem_head? hequal))
      have hrest := ih hforward.2
        (fun hmem => hnot (List.mem_cons_of_mem _ hmem))
        (Nat.lt_of_succ_lt_succ hfuel)
      exact (Records.findBefore_step hnext hne fuel).trans hrest

/-- The walk for a record that is not in the list follows the null pointer
behind the last one. -/
theorem Records.findBefore_of_notMem
    {list : List α}
    (hforward : Forward (layout α) (records.slots first) slot list none)
    (hnot : elm ∉ list) {fuel : ℕ} (hfuel : list.length < fuel) :
    records.findBefore elm fuel list.head? = .error .null := by
  induction list generalizing slot fuel with
  | nil =>
      obtain ⟨fuel, rfl⟩ :=
        Nat.exists_eq_add_one_of_ne_zero (Nat.ne_zero_of_lt hfuel)
      rfl
  | cons record rest ih =>
      simp only [List.length_cons] at hfuel
      obtain ⟨fuel, rfl⟩ :=
        Nat.exists_eq_add_one_of_ne_zero (Nat.ne_zero_of_lt hfuel)
      have hnext := Records.next_of_slots hforward.2.entry_eq
      rw [entry_layout] at hnext
      have hne : rest.head? ≠ some elm := by
        intro hequal
        exact hnot (List.mem_cons_of_mem _ (List.mem_of_mem_head? hequal))
      have hrest := ih hforward.2
        (fun hmem => hnot (List.mem_cons_of_mem _ hmem))
        (Nat.lt_of_succ_lt_succ hfuel)
      exact (Records.findBefore_step hnext hne fuel).trans hrest

end Walk

/-! ## The list follows its records -/

def SList.contents (list : SList α δ) : α → Option δ := list.records.contents

structure SList.Represents (list : SList α δ) (records : List α) : Prop where
  forward : Forward (layout α) (list.records.slots list.slhFirst) .head
    records none
  nodup : records.Nodup

def SList.view (list : SList α δ) :
    (Slot α → Option (Option α)) × (α → Option δ) :=
  (list.records.slots list.slhFirst, list.contents)

section SList

variable {list : SList α δ} {records before behind : List α} {elm : α}

omit [DecidableEq α] in
theorem separate_of_nodup (hnodup : records.Nodup) :
    Separate (layout α) .head records :=
  ⟨by simp, hnodup⟩

omit [DecidableEq α] in
theorem SList.Represents.slhFirst_eq (hrepresents : list.Represents records) :
    list.slhFirst = records.head? := by
  have hentry := hrepresents.forward.entry_eq
  rw [entry_layout] at hentry
  exact Option.some.inj hentry

omit [DecidableEq α] in
theorem SList.Represents.next_eq
    (hrepresents : list.Represents (before ++ elm :: behind)) :
    list.records.next (some elm) = .ok behind.head? := by
  have hforward := (forward_append.mp hrepresents.forward).2
  have hnext := Records.next_of_slots hforward.2.entry_eq
  rwa [entry_layout] at hnext

omit [DecidableEq α] in
theorem SList.Represents.live
    (hrepresents : list.Represents records)
    {address : α} (hmem : address ∈ records) :
    (list.contents address).isSome := by
  obtain ⟨before, behind, rfl⟩ := List.append_of_mem hmem
  have hforward := (forward_append.mp hrepresents.forward).2
  obtain ⟨record, hrecord, _⟩ :=
    Option.map_eq_some_iff.mp hforward.2.entry_eq
  simp [SList.contents, Records.contents, hrecord]

theorem SList.yields_setNext
    {slots : Slot α → Option (Option α)} {contents : α → Option δ}
    (hview : list.view = (slots, contents)) {address : α}
    (hlive : (contents address).isSome) (next : Option α) :
    Yields SList.view (list.setNext address next)
      (Function.update slots (.next address) (some next), contents) := by
  obtain ⟨rfl, rfl⟩ := Prod.ext_iff.mp hview
  obtain ⟨records', hset, hslots, hcontents⟩ :=
    Records.setNext_eq hlive list.slhFirst next
  refine ⟨{ list with records := records' }, ?_, ?_⟩
  · rw [SList.setNext, hset]
    rfl
  · exact Prod.ext hslots hcontents

theorem SList.yields_setFirst
    {slots : Slot α → Option (Option α)} {contents : α → Option δ}
    (hview : list.view = (slots, contents)) (pointer : Option α) :
    Yields SList.view
      (.ok { list with slhFirst := pointer } : Except Fault (SList α δ))
      (Function.update slots .head (some pointer), contents) := by
  obtain ⟨rfl, rfl⟩ := Prod.ext_iff.mp hview
  exact ⟨_, rfl, Prod.ext (Records.slots_head_update ..).symm rfl⟩

omit [DecidableEq α] in
theorem SList.represents_of_yields
    {result : Except Fault (SList α δ)} {slots : Slot α → Option (Option α)}
    (hyields : Yields SList.view result (slots, list.contents))
    (hforward : Forward (layout α) slots .head records none)
    (hnodup : records.Nodup) :
    ∃ list', result = .ok list' ∧ list'.Represents records ∧
      list'.contents = list.contents := by
  obtain ⟨list', hresult, hview⟩ := hyields
  obtain ⟨rfl, hcontents⟩ := Prod.ext_iff.mp hview
  exact ⟨list', hresult, ⟨hforward, hnodup⟩, hcontents⟩

theorem SList.Represents.insertHead
    (hrepresents : list.Represents records)
    (hloose : Loose list.contents records elm) :
    ∃ list', list.insertHead elm = .ok list' ∧
      list'.Represents (elm :: records) ∧ list'.contents = list.contents := by
  have hseparate := separate_of_nodup hrepresents.nodup
  have hlink := Forward.link (show Forward _ _ _ ([] ++ records) _ from
    hrepresents.forward) hseparate hloose.2 (by simp)
  rw [entry_layout] at hlink
  refine SList.represents_of_yields ?_ hlink
    (List.nodup_cons.mpr ⟨hloose.2, hrepresents.nodup⟩)
  rw [SList.insertHead, hrepresents.slhFirst_eq]
  apply (SList.yields_setNext rfl hloose.1 records.head?).bind
  intro later hview
  have hfirst := SList.yields_setFirst hview (some elm)
  rw [hrepresents.slhFirst_eq] at hfirst
  exact hfirst

theorem SList.Represents.insertAfter
    {slistelm : α}
    (hrepresents : list.Represents (before ++ slistelm :: behind))
    (hloose : Loose list.contents (before ++ slistelm :: behind) elm) :
    ∃ list', list.insertAfter slistelm elm = .ok list' ∧
      list'.Represents (before ++ slistelm :: elm :: behind) ∧
      list'.contents = list.contents := by
  have hsplit : before ++ slistelm :: behind =
      before ++ [slistelm] ++ behind := by simp
  have hlive : (list.contents slistelm).isSome :=
    hrepresents.live (by simp)
  have hnext := hrepresents.next_eq
  rw [hsplit] at hrepresents hloose
  have hseparate := separate_of_nodup hrepresents.nodup
  have hlink := hrepresents.forward.link hseparate hloose.2 (by simp)
  have hnodup := (hseparate.insert hloose.2 (by simp)).2
  rw [entry_layout, endSlot_append, List.append_assoc] at hlink
  rw [List.append_assoc] at hnodup
  refine SList.represents_of_yields ?_ hlink hnodup
  rw [SList.insertAfter, hnext]
  apply (SList.yields_setNext rfl hloose.1 behind.head?).bind
  intro later hview
  exact SList.yields_setNext hview hlive (some elm)

theorem SList.Represents.removeHead
    {first : α} (hrepresents : list.Represents (first :: records)) :
    ∃ list', list.removeHead = .ok list' ∧ list'.Represents records ∧
      list'.contents = list.contents := by
  have hseparate := separate_of_nodup hrepresents.nodup
  have hunlink := Forward.unlink
    (show Forward _ _ _ ([] ++ ([first] ++ records)) _ from
      hrepresents.forward) hseparate
  rw [entry_layout] at hunlink
  refine SList.represents_of_yields ?_ hunlink
    (List.nodup_cons.mp hrepresents.nodup).2
  have hnext : list.records.next (some first) = .ok records.head? :=
    SList.Represents.next_eq (show list.Represents ([] ++ first :: records)
      from hrepresents)
  have hfirst : list.slhFirst = some first := hrepresents.slhFirst_eq
  have hresult : list.removeHead =
      .ok { list with slhFirst := records.head? } := by
    simp [SList.removeHead, hfirst, hnext, bind, Except.bind]
  rw [hresult]
  exact SList.yields_setFirst rfl records.head?

theorem SList.Represents.remove
    (hrepresents : list.Represents (before ++ elm :: behind))
    {fuel : ℕ} (hfuel : (before ++ elm :: behind).length ≤ fuel) :
    ∃ list', list.remove fuel elm = .ok list' ∧
      list'.Represents (before ++ behind) ∧
      list'.contents = list.contents := by
  have hfirst := hrepresents.slhFirst_eq
  have hnodup := hrepresents.nodup
  rcases List.eq_nil_or_concat before with rfl | ⟨front, previous, rfl⟩
  · rw [SList.remove, if_pos (by simpa using hfirst)]
    exact hrepresents.removeHead
  · rw [List.concat_eq_append] at *
    have hnot : elm ∉ front ++ [previous] := by
      intro hmem
      exact List.disjoint_of_nodup_append hnodup hmem (by simp)
    have hsplit : front ++ [previous] ++ elm :: behind =
        front ++ previous :: elm :: behind := by simp
    have hhead : (front ++ [previous] ++ elm :: behind).head? =
        (front ++ [previous]).head? := by
      cases front <;> rfl
    have hne : list.slhFirst ≠ some elm := by
      rw [hfirst, hhead]
      intro hequal
      exact hnot (List.mem_of_mem_head? hequal)
    have hseparate := separate_of_nodup hnodup
    have hlive : (list.contents previous).isSome :=
      hrepresents.live (by simp)
    have hunlink := Forward.unlink
      (show Forward _ _ _ (front ++ [previous] ++ ([elm] ++ behind)) _ from
        hrepresents.forward) hseparate
    rw [entry_layout, endSlot_append] at hunlink
    have hafter := hrepresents.next_eq
    rw [hsplit] at hrepresents
    have hfind := Records.findBefore_eq hrepresents.forward hnot
      (show front.length < fuel by simp at hfuel; omega)
    have hnext := hrepresents.next_eq
    have hresult : list.remove fuel elm =
        list.setNext previous behind.head? := by
      rw [SList.remove, if_neg hne, hfirst, hhead, hfind]
      simp only [bind, Except.bind, hnext, List.head?_cons, hafter]
    rw [hresult]
    apply SList.represents_of_yields _ hunlink
    · exact hnodup.sublist ((List.Sublist.refl _).append
        (List.sublist_cons_self _ _))
    · exact SList.yields_setNext rfl hlive behind.head?

theorem SList.Represents.remove_of_notMem
    (hrepresents : list.Represents records) (hnot : elm ∉ records)
    {fuel : ℕ} (hfuel : records.length < fuel) :
    list.remove fuel elm = .error .null := by
  have hfirst := hrepresents.slhFirst_eq
  have hne : list.slhFirst ≠ some elm := by
    rw [hfirst]
    intro hequal
    exact hnot (List.mem_of_mem_head? hequal)
  rw [SList.remove, if_neg hne, hfirst,
    Records.findBefore_of_notMem hrepresents.forward hnot hfuel]
  rfl

omit [DecidableEq α] in
theorem SList.Represents.foreach_eq
    (hrepresents : list.Represents records)
    {fuel : ℕ} (hfuel : records.length ≤ fuel) :
    list.foreach fuel = .ok records := by
  rw [SList.foreach, hrepresents.slhFirst_eq, ← entry_layout]
  apply traverse_eq _ _ rfl _ hfuel
  · intro record
    rfl
  · rintro before record behind rfl
    rw [entry_layout]
    exact hrepresents.next_eq

end SList

/-- The macros that change a list. -/
inductive SList.Macro (α : Type u) where
  | insertHead (elm : α)
  | insertAfter (slistelm elm : α)
  | removeHead
  | remove (elm : α)
  deriving DecidableEq, Repr

def SList.Macro.command : SList.Macro α → Command α
  | .insertHead elm => .insertHead elm
  | .insertAfter slistelm elm => .insertAfter slistelm elm
  | .removeHead => .removeHead
  | .remove elm => .remove elm

def SList.perform (fuel : ℕ) (list : SList α δ) :
    SList.Macro α → Except Fault (SList α δ)
  | .insertHead elm => list.insertHead elm
  | .insertAfter slistelm elm => list.insertAfter slistelm elm
  | .removeHead => list.removeHead
  | .remove elm => list.remove fuel elm

theorem SList.perform_refines (fuel : ℕ) :
    Refines (SList.perform (α := α) (δ := δ) fuel) SList.Macro.command
      SList.Represents SList.contents fuel := by
  constructor
  intro list records operation hrepresents hlength hallowed
  cases operation with
  | insertHead elm => exact hrepresents.insertHead hallowed
  | insertAfter slistelm elm =>
      obtain ⟨hmem, hloose⟩ :
          slistelm ∈ records ∧ Loose list.contents records elm := hallowed
      obtain ⟨before, behind, rfl, hnot⟩ := List.eq_append_cons_of_mem hmem
      simp only [SList.Macro.command, Command.apply, insertAfter_split hnot]
      exact hrepresents.insertAfter hloose
  | removeHead =>
      obtain ⟨first, rest, rfl⟩ := List.exists_cons_of_ne_nil
        (show records ≠ [] from hallowed)
      exact hrepresents.removeHead
  | remove elm =>
      obtain ⟨before, behind, rfl, hnot⟩ :=
        List.eq_append_cons_of_mem (show elm ∈ records from hallowed)
      simp only [SList.Macro.command, Command.apply, erase_split hnot]
      exact hrepresents.remove hlength

omit [DecidableEq α] in
theorem SList.represents_init (list : SList α δ) : list.init.Represents [] :=
  ⟨rfl, List.nodup_nil⟩

/-- Over any run of the macros the list is walked in the order of its records,
and the removal of a record that is not in it runs into the null pointer. -/
theorem SList.foreach_run_slist
    (list : SList α δ) (macros : List (SList.Macro α))
    (hallowed : AllowedAll SList.Macro.command list.contents [] macros)
    {fuel : ℕ} (hfuel : macros.length ≤ fuel) :
    ∃ last, macros.foldlM (SList.perform fuel) list.init = .ok last ∧
      last.foreach fuel = .ok (applyAll SList.Macro.command [] macros) ∧
      last.contents = list.contents ∧
      ∀ elm ∉ applyAll SList.Macro.command [] macros,
        last.remove (fuel + 1) elm = .error .null := by
  obtain ⟨last, hrun, hrepresents, hcontents⟩ :=
    (SList.perform_refines fuel).run list.represents_init hallowed (by simpa)
  have hlength := length_applyAll_nil_le SList.Macro.command hfuel
  refine ⟨last, hrun, hrepresents.foreach_eq hlength, hcontents, ?_⟩
  intro elm hnot
  exact hrepresents.remove_of_notMem hnot (Nat.lt_succ_of_le hlength)

/-- Three records whose pointers are not set up. -/
def threeLoose (address : ℕ) : Option (Record ℕ ℕ) :=
  if address < 3 then some ⟨some 7, 5 * address⟩ else none

theorem foreach_run_threeLoose :
    ∃ last,
      [.insertHead 0, .insertAfter 0 1, .insertAfter 0 2, .remove 1,
        .removeHead, .insertHead 1].foldlM (SList.perform 6)
          (SList.init ⟨none, threeLoose⟩) = .ok last ∧
      last.foreach 6 = .ok [1, 2] ∧
      last.contents = SList.contents ⟨none, threeLoose⟩ ∧
      ∀ elm ∉ [1, 2], last.remove 7 elm = .error .null :=
  SList.foreach_run_slist ⟨none, threeLoose⟩
    [.insertHead 0, .insertAfter 0 1, .insertAfter 0 2, .remove 1,
      .removeHead, .insertHead 1] (by decide) (by decide)

/-! ## The tail queue follows its records -/

def STailQ.contents (queue : STailQ α δ) : α → Option δ :=
  queue.records.contents

structure STailQ.Represents (queue : STailQ α δ) (records : List α) :
    Prop where
  forward : Forward (layout α) (queue.records.slots queue.stqhFirst) .head
    records none
  nodup : records.Nodup
  last : queue.stqhLast = endSlot (layout α) .head records

def STailQ.view (queue : STailQ α δ) :
    (Slot α → Option (Option α)) × Slot α × (α → Option δ) :=
  (queue.records.slots queue.stqhFirst, queue.stqhLast, queue.contents)

section STailQ

variable {queue : STailQ α δ} {records before behind : List α} {elm : α}
  {slots : Slot α → Option (Option α)} {last : Slot α}
  {contents : α → Option δ}

omit [DecidableEq α] in
theorem STailQ.Represents.stqhFirst_eq
    (hrepresents : queue.Represents records) :
    queue.stqhFirst = records.head? := by
  have hentry := hrepresents.forward.entry_eq
  rw [entry_layout] at hentry
  exact Option.some.inj hentry

omit [DecidableEq α] in
theorem STailQ.Represents.next_eq
    (hrepresents : queue.Represents (before ++ elm :: behind)) :
    queue.records.next (some elm) = .ok behind.head? := by
  have hforward := (forward_append.mp hrepresents.forward).2
  have hnext := Records.next_of_slots hforward.2.entry_eq
  rwa [entry_layout] at hnext

omit [DecidableEq α] in
theorem STailQ.Represents.live
    (hrepresents : queue.Represents records)
    {address : α} (hmem : address ∈ records) :
    (queue.contents address).isSome := by
  obtain ⟨before, behind, rfl⟩ := List.append_of_mem hmem
  have hforward := (forward_append.mp hrepresents.forward).2
  obtain ⟨record, hrecord, _⟩ :=
    Option.map_eq_some_iff.mp hforward.2.entry_eq
  simp [STailQ.contents, Records.contents, hrecord]

theorem STailQ.yields_store
    (hview : queue.view = (slots, last, contents)) {slot : Slot α}
    (hlive : ∀ address, slot = .next address → (contents address).isSome)
    (pointer : Option α) :
    Yields STailQ.view (queue.store slot pointer)
      (Function.update slots slot (some pointer), last, contents) := by
  simp only [STailQ.view, Prod.mk.injEq] at hview
  obtain ⟨rfl, rfl, rfl⟩ := hview
  cases slot with
  | head =>
      exact ⟨_, rfl, Prod.ext (Records.slots_head_update ..).symm rfl⟩
  | next address =>
      obtain ⟨records', hset, hslots, hcontents⟩ :=
        Records.setNext_eq (hlive address rfl) queue.stqhFirst pointer
      refine ⟨{ queue with records := records' }, ?_, ?_⟩
      · rw [STailQ.store, hset]
        rfl
      · exact Prod.ext hslots (Prod.ext rfl hcontents)

omit [DecidableEq α] in
theorem STailQ.view_setLast
    (hview : queue.view = (slots, last, contents)) (slot : Slot α)
    (pointer : Option α) :
    (queue.setLast slot pointer).view =
      (slots, lastBehind slot last pointer, contents) := by
  simp only [STailQ.view, Prod.mk.injEq] at hview
  obtain ⟨rfl, rfl, rfl⟩ := hview
  cases pointer <;> rfl

omit [DecidableEq α] in
theorem STailQ.represents_of_yields
    {result : Except Fault (STailQ α δ)}
    (hyields : Yields STailQ.view result (slots, last, queue.contents))
    (hforward : Forward (layout α) slots .head records none)
    (hnodup : records.Nodup)
    (hlast : last = endSlot (layout α) .head records) :
    ∃ queue', result = .ok queue' ∧ queue'.Represents records ∧
      queue'.contents = queue.contents := by
  obtain ⟨queue', hresult, hview⟩ := hyields
  simp only [STailQ.view, Prod.mk.injEq] at hview
  obtain ⟨rfl, rfl, hcontents⟩ := hview
  exact ⟨queue', hresult, ⟨hforward, hnodup, hlast⟩, hcontents⟩

/-- A record that is put in behind a slot: its own pointer is set first, then
the last slot if that pointer is null, then the slot in front. -/
theorem STailQ.Represents.link
    (before behind : List α)
    (hrepresents : queue.Represents (before ++ behind))
    (hloose : Loose queue.contents (before ++ behind) elm)
    {result : Except Fault (STailQ α δ)}
    (hyields : Yields STailQ.view result
      (Function.update
        (Function.update (queue.records.slots queue.stqhFirst) (.next elm)
          (some behind.head?))
        (endSlot (layout α) .head before) (some (some elm)),
        lastBehind (.next elm) queue.stqhLast behind.head?,
        queue.contents)) :
    ∃ queue', result = .ok queue' ∧
      queue'.Represents (before ++ elm :: behind) ∧
      queue'.contents = queue.contents := by
  have hseparate := separate_of_nodup hrepresents.nodup
  have hlink := hrepresents.forward.link hseparate hloose.2 (by simp)
  rw [entry_layout] at hlink
  apply STailQ.represents_of_yields hyields hlink
  · exact (hseparate.insert hloose.2 (by simp)).2
  · rw [lastBehind_eq hrepresents.last, endSlot_append, endSlot_cons,
      layout_slot]

theorem STailQ.Represents.unlink
    (before removed behind : List α)
    (hrepresents : queue.Represents (before ++ (removed ++ behind)))
    {result : Except Fault (STailQ α δ)}
    (hyields : Yields STailQ.view result
      (Function.update (queue.records.slots queue.stqhFirst)
        (endSlot (layout α) .head before) (some behind.head?),
        lastBehind (endSlot (layout α) .head before) queue.stqhLast
          behind.head?,
        queue.contents)) :
    ∃ queue', result = .ok queue' ∧
      queue'.Represents (before ++ behind) ∧
      queue'.contents = queue.contents := by
  have hseparate := separate_of_nodup hrepresents.nodup
  have hunlink := hrepresents.forward.unlink hseparate
  rw [entry_layout] at hunlink
  have hlast := hrepresents.last
  rw [← List.append_assoc] at hlast
  apply STailQ.represents_of_yields hyields hunlink
  · exact hseparate.drop_stretch.2
  · rw [lastBehind_eq hlast, endSlot_append]

theorem STailQ.Represents.insertHead
    (hrepresents : queue.Represents records)
    (hloose : Loose queue.contents records elm) :
    ∃ queue', queue.insertHead elm = .ok queue' ∧
      queue'.Represents (elm :: records) ∧
      queue'.contents = queue.contents := by
  apply STailQ.Represents.link [] records hrepresents hloose
  have hlive : ∀ address, Slot.next elm = .next address →
      (queue.contents address).isSome := by
    rintro address ⟨⟩
    exact hloose.1
  have hfirst := hrepresents.stqhFirst_eq
  rw [STailQ.insertHead, ← hfirst]
  apply (STailQ.yields_store rfl hlive queue.stqhFirst).bind
  intro queue₁ hview₁
  have hview₂ := STailQ.view_setLast hview₁ (.next elm) queue.stqhFirst
  exact STailQ.yields_store hview₂ (by simp) (some elm)

theorem STailQ.Represents.insertAfter
    {tqelm : α}
    (hrepresents : queue.Represents (before ++ tqelm :: behind))
    (hloose : Loose queue.contents (before ++ tqelm :: behind) elm) :
    ∃ queue', queue.insertAfter tqelm elm = .ok queue' ∧
      queue'.Represents (before ++ tqelm :: elm :: behind) ∧
      queue'.contents = queue.contents := by
  have hlive : ∀ address, Slot.next elm = .next address →
      (queue.contents address).isSome := by
    rintro address ⟨⟩
    exact hloose.1
  have hlive' : ∀ address, Slot.next tqelm = .next address →
      (queue.contents address).isSome := by
    rintro address ⟨⟩
    exact hrepresents.live (by simp)
  have hnext := hrepresents.next_eq
  have hsplit : before ++ tqelm :: behind =
      before ++ [tqelm] ++ behind := by simp
  have hsplit' : before ++ tqelm :: elm :: behind =
      before ++ [tqelm] ++ elm :: behind := by simp
  rw [hsplit] at hrepresents hloose
  rw [hsplit']
  apply hrepresents.link (before ++ [tqelm]) behind hloose
  rw [endSlot_append, STailQ.insertAfter, hnext]
  apply (STailQ.yields_store rfl hlive behind.head?).bind
  intro queue₁ hview₁
  have hview₂ := STailQ.view_setLast hview₁ (.next elm) behind.head?
  exact STailQ.yields_store hview₂ hlive' (some elm)

omit [DecidableEq α] in
theorem STailQ.Represents.live_endSlot
    (hrepresents : queue.Represents (before ++ behind)) :
    ∀ address, endSlot (layout α) .head before = .next address →
      (queue.contents address).isSome := by
  intro address hlast
  have hmem : endSlot (layout α) .head before ∈
      Slot.head :: before.map Slot.next := endSlot_mem
  apply hrepresents.live
  rw [hlast] at hmem
  have hbefore : address ∈ before := by simpa using hmem
  simp [hbefore]

theorem STailQ.Represents.insertTail
    (hrepresents : queue.Represents records)
    (hloose : Loose queue.contents records elm) :
    ∃ queue', queue.insertTail elm = .ok queue' ∧
      queue'.Represents (records ++ [elm]) ∧
      queue'.contents = queue.contents := by
  have hlive : ∀ address, Slot.next elm = .next address →
      (queue.contents address).isSome := by
    rintro address ⟨⟩
    exact hloose.1
  have hlast := hrepresents.last
  rw [← List.append_nil records] at hrepresents hloose
  apply hrepresents.link records [] hloose
  rw [STailQ.insertTail]
  apply (STailQ.yields_store rfl hlive none).bind
  intro queue₁ hview₁
  have hlast₁ : queue₁.stqhLast = queue.stqhLast :=
    congrArg (fun view => view.2.1) hview₁
  rw [hlast₁, hlast]
  apply (STailQ.yields_store hview₁ hrepresents.live_endSlot (some elm)).bind
  intro queue₂ hview₂
  have hview₃ := STailQ.view_setLast hview₂ (.next elm) none
  exact ⟨_, rfl, hview₃⟩

theorem STailQ.yields_setFirst (queue : STailQ α δ) (pointer : Option α) :
    Yields STailQ.view
      (do
        let queue ← queue.store .head pointer
        .ok (queue.setLast .head pointer))
      (Function.update (queue.records.slots queue.stqhFirst) .head
        (some pointer), lastBehind .head queue.stqhLast pointer,
        queue.contents) := by
  apply (STailQ.yields_store rfl (by simp) pointer).bind
  intro queue₁ hview₁
  exact ⟨_, rfl, STailQ.view_setLast hview₁ .head pointer⟩

theorem STailQ.Represents.removeHead
    {first : α} (hrepresents : queue.Represents (first :: records)) :
    ∃ queue', queue.removeHead = .ok queue' ∧ queue'.Represents records ∧
      queue'.contents = queue.contents := by
  apply STailQ.Represents.unlink [] [first] records hrepresents
  have hnext : queue.records.next (some first) = .ok records.head? :=
    STailQ.Represents.next_eq (show queue.Represents ([] ++ first :: records)
      from hrepresents)
  have hfirst : queue.stqhFirst = some first := hrepresents.stqhFirst_eq
  have hyields := STailQ.yields_setFirst queue records.head?
  have hresult : queue.removeHead = (do
      let queue ← queue.store .head records.head?
      .ok (queue.setLast .head records.head?)) := by
    rw [STailQ.removeHead, hfirst, hnext]
    rfl
  rw [hresult]
  exact hyields

theorem STailQ.Represents.removeHeadUntil
    (hrepresents : queue.Represents (before ++ elm :: behind)) :
    ∃ queue', queue.removeHeadUntil elm = .ok queue' ∧
      queue'.Represents behind ∧ queue'.contents = queue.contents := by
  have hnext := hrepresents.next_eq
  have hsplit : before ++ elm :: behind = (before ++ [elm]) ++ behind := by
    simp
  rw [hsplit] at hrepresents
  apply STailQ.Represents.unlink [] (before ++ [elm]) behind hrepresents
  rw [STailQ.removeHeadUntil, hnext]
  exact STailQ.yields_setFirst queue behind.head?

theorem STailQ.Represents.remove
    (hrepresents : queue.Represents (before ++ elm :: behind))
    {fuel : ℕ} (hfuel : (before ++ elm :: behind).length ≤ fuel) :
    ∃ queue', queue.remove fuel elm = .ok queue' ∧
      queue'.Represents (before ++ behind) ∧
      queue'.contents = queue.contents := by
  have hfirst := hrepresents.stqhFirst_eq
  have hnodup := hrepresents.nodup
  rcases List.eq_nil_or_concat before with rfl | ⟨front, previous, rfl⟩
  · rw [STailQ.remove, if_pos (by simpa using hfirst)]
    exact hrepresents.removeHead
  · rw [List.concat_eq_append] at *
    have hnot : elm ∉ front ++ [previous] := by
      intro hmem
      exact List.disjoint_of_nodup_append hnodup hmem (by simp)
    have hsplit : front ++ [previous] ++ elm :: behind =
        front ++ previous :: elm :: behind := by simp
    have hhead : (front ++ [previous] ++ elm :: behind).head? =
        (front ++ [previous]).head? := by
      cases front <;> rfl
    have hne : queue.stqhFirst ≠ some elm := by
      rw [hfirst, hhead]
      intro hequal
      exact hnot (List.mem_of_mem_head? hequal)
    have hlive : ∀ address, Slot.next previous = .next address →
        (queue.contents address).isSome := by
      rintro address ⟨⟩
      exact hrepresents.live (by simp)
    have hafter := hrepresents.next_eq
    have hforward := hrepresents.forward
    have hnext : queue.records.next (some previous) = .ok (some elm) := by
      rw [hsplit] at hrepresents
      exact hrepresents.next_eq
    rw [hsplit] at hforward
    have hfind := Records.findBefore_eq hforward hnot
      (show front.length < fuel by simp at hfuel; omega)
    have hresult : queue.remove fuel elm = (do
        let queue ← queue.store (.next previous) behind.head?
        .ok (queue.setLast (.next previous) behind.head?)) := by
      rw [STailQ.remove, if_neg hne, hfirst, hhead, hfind]
      simp only [bind, Except.bind, hnext, hafter]
    rw [hresult]
    apply hrepresents.unlink (front ++ [previous]) [elm] behind
    rw [endSlot_append]
    apply (STailQ.yields_store rfl hlive behind.head?).bind
    intro queue₁ hview₁
    exact ⟨_, rfl, STailQ.view_setLast hview₁ _ behind.head?⟩

theorem STailQ.Represents.remove_of_notMem
    (hrepresents : queue.Represents records) (hnot : elm ∉ records)
    {fuel : ℕ} (hfuel : records.length < fuel) :
    queue.remove fuel elm = .error .null := by
  have hfirst := hrepresents.stqhFirst_eq
  have hne : queue.stqhFirst ≠ some elm := by
    rw [hfirst]
    intro hequal
    exact hnot (List.mem_of_mem_head? hequal)
  rw [STailQ.remove, if_neg hne, hfirst,
    Records.findBefore_of_notMem hrepresents.forward hnot hfuel]
  rfl

omit [DecidableEq α] in
theorem STailQ.Represents.foreach_eq
    (hrepresents : queue.Represents records)
    {fuel : ℕ} (hfuel : records.length ≤ fuel) :
    queue.foreach fuel = .ok records := by
  rw [STailQ.foreach, hrepresents.stqhFirst_eq, ← entry_layout]
  apply traverse_eq _ _ rfl _ hfuel
  · intro record
    rfl
  · rintro before record behind rfl
    rw [entry_layout]
    exact hrepresents.next_eq

omit [DecidableEq α] in
theorem STailQ.Represents.last_eq (hrepresents : queue.Represents records) :
    queue.last = .ok records.getLast? := by
  have hfirst := hrepresents.stqhFirst_eq
  have hlast := hrepresents.last
  rcases List.eq_nil_or_concat records with rfl | ⟨front, record, rfl⟩
  · rw [STailQ.last, hfirst]
    rfl
  · rw [List.concat_eq_append] at *
    obtain ⟨first, hhead⟩ : ∃ first, (front ++ [record]).head? =
        some first := by
      cases front <;> simp
    rw [endSlot_append] at hlast
    rw [STailQ.last, hfirst, hhead, hlast, List.getLast?_concat]
    rfl

end STailQ

/-- The macros that change a tail queue. -/
inductive STailQ.Macro (α : Type u) where
  | insertHead (elm : α)
  | insertTail (elm : α)
  | insertAfter (tqelm elm : α)
  | removeHead
  | removeHeadUntil (elm : α)
  | remove (elm : α)
  deriving DecidableEq, Repr

def STailQ.Macro.command : STailQ.Macro α → Command α
  | .insertHead elm => .insertHead elm
  | .insertTail elm => .insertTail elm
  | .insertAfter tqelm elm => .insertAfter tqelm elm
  | .removeHead => .removeHead
  | .removeHeadUntil elm => .removeHeadUntil elm
  | .remove elm => .remove elm

def STailQ.perform (fuel : ℕ) (queue : STailQ α δ) :
    STailQ.Macro α → Except Fault (STailQ α δ)
  | .insertHead elm => queue.insertHead elm
  | .insertTail elm => queue.insertTail elm
  | .insertAfter tqelm elm => queue.insertAfter tqelm elm
  | .removeHead => queue.removeHead
  | .removeHeadUntil elm => queue.removeHeadUntil elm
  | .remove elm => queue.remove fuel elm

theorem STailQ.perform_refines (fuel : ℕ) :
    Refines (STailQ.perform (α := α) (δ := δ) fuel) STailQ.Macro.command
      STailQ.Represents STailQ.contents fuel := by
  constructor
  intro queue records operation hrepresents hlength hallowed
  cases operation with
  | insertHead elm => exact hrepresents.insertHead hallowed
  | insertTail elm => exact hrepresents.insertTail hallowed
  | insertAfter tqelm elm =>
      obtain ⟨hmem, hloose⟩ :
          tqelm ∈ records ∧ Loose queue.contents records elm := hallowed
      obtain ⟨before, behind, rfl, hnot⟩ := List.eq_append_cons_of_mem hmem
      simp only [STailQ.Macro.command, Command.apply, insertAfter_split hnot]
      exact hrepresents.insertAfter hloose
  | removeHead =>
      obtain ⟨first, rest, rfl⟩ := List.exists_cons_of_ne_nil
        (show records ≠ [] from hallowed)
      exact hrepresents.removeHead
  | removeHeadUntil elm =>
      obtain ⟨before, behind, rfl, hnot⟩ :=
        List.eq_append_cons_of_mem (show elm ∈ records from hallowed)
      simp only [STailQ.Macro.command, Command.apply, removeUntil_split hnot]
      exact hrepresents.removeHeadUntil
  | remove elm =>
      obtain ⟨before, behind, rfl, hnot⟩ :=
        List.eq_append_cons_of_mem (show elm ∈ records from hallowed)
      simp only [STailQ.Macro.command, Command.apply, erase_split hnot]
      exact hrepresents.remove hlength

omit [DecidableEq α] in
theorem STailQ.represents_init (queue : STailQ α δ) :
    queue.init.Represents [] :=
  ⟨rfl, List.nodup_nil, rfl⟩

/-- Over any run of the macros the tail queue is walked in the order of its
records, its last record is found without a walk, and the removal of a record
that is not in it runs into the null pointer. -/
theorem STailQ.foreach_run_stailq
    (queue : STailQ α δ) (macros : List (STailQ.Macro α))
    (hallowed : AllowedAll STailQ.Macro.command queue.contents [] macros)
    {fuel : ℕ} (hfuel : macros.length ≤ fuel) :
    ∃ last, macros.foldlM (STailQ.perform fuel) queue.init = .ok last ∧
      last.foreach fuel = .ok (applyAll STailQ.Macro.command [] macros) ∧
      last.last = .ok (applyAll STailQ.Macro.command [] macros).getLast? ∧
      last.contents = queue.contents ∧
      ∀ elm ∉ applyAll STailQ.Macro.command [] macros,
        last.remove (fuel + 1) elm = .error .null := by
  obtain ⟨last, hrun, hrepresents, hcontents⟩ :=
    (STailQ.perform_refines fuel).run queue.represents_init hallowed (by simpa)
  have hlength := length_applyAll_nil_le STailQ.Macro.command hfuel
  refine ⟨last, hrun, hrepresents.foreach_eq hlength, hrepresents.last_eq,
    hcontents, ?_⟩
  intro elm hnot
  exact hrepresents.remove_of_notMem hnot (Nat.lt_succ_of_le hlength)

theorem foreach_run_stailq_threeLoose :
    ∃ last,
      [.insertTail 0, .insertHead 1, .insertAfter 0 2, .removeHeadUntil 0,
        .insertTail 0, .remove 2].foldlM (STailQ.perform 6)
          (STailQ.init ⟨none, .next 2, threeLoose⟩) = .ok last ∧
      last.foreach 6 = .ok [0] ∧
      last.last = .ok (some 0) ∧
      last.contents = STailQ.contents ⟨none, .next 2, threeLoose⟩ ∧
      ∀ elm ∉ [0], last.remove 7 elm = .error .null :=
  STailQ.foreach_run_stailq ⟨none, .next 2, threeLoose⟩
    [.insertTail 0, .insertHead 1, .insertAfter 0 2, .removeHeadUntil 0,
      .insertTail 0, .remove 2] (by decide) (by decide)

end LinuxKernelCode.SinglyLinked
