import Mathlib.Data.List.Basic
import Mathlib.Data.List.Nodup
import Mathlib.Logic.Function.Basic

/-!
# Intrusive tail queues

The tail queue of `queue.h` at the level of its pointers.  A record is a heap
cell with a next pointer and the address of the next-slot that points to it;
the head holds the first record and the address of the last next-slot.  An
address is live between its allocation and its release, and every access to
an address that is not live is a fault, as is a loop which does not come to
its end.

The shape of a queue is described by the list of its records.  Insertion at
the tail appends to that list, and the removing loop releases its records from
the front, one after another, without touching a released one.
-/

namespace LinuxKernelCode.TailQueue

universe u

variable {α δ : Type u}

/-- The address of a next-slot: the head's own, or that of a record. -/
inductive Slot (α : Type u) where
  | head
  | next (address : α)
  deriving DecidableEq, Repr

structure Record (α δ : Type u) where
  tqeNext : Option α
  tqePrev : Slot α
  datum : δ
  deriving DecidableEq, Repr

inductive Fault where
  | released
  | endless
  deriving DecidableEq, Repr

/-- The queue head, and the contents of the live addresses. -/
structure Heap (α δ : Type u) where
  tqhFirst : Option α
  tqhLast : Slot α
  records : α → Option (Record α δ)

/-- `TAILQ_HEAD_INITIALIZER`, before any allocation. -/
def Heap.initializer : Heap α δ where
  tqhFirst := none
  tqhLast := .head
  records := fun _ => none

section Operations

variable [DecidableEq α]

def Heap.load (heap : Heap α δ) (address : α) : Except Fault (Record α δ) :=
  match heap.records address with
  | some record => .ok record
  | none => .error .released

def Heap.write (heap : Heap α δ) (address : α) (record : Record α δ) :
    Heap α δ :=
  { heap with records := Function.update heap.records address (some record) }

def Heap.modify
    (heap : Heap α δ) (address : α) (change : Record α δ → Record α δ) :
    Except Fault (Heap α δ) := do
  let record ← heap.load address
  .ok (heap.write address (change record))

/-- Assignment through the address of a next-slot. -/
def Heap.store (heap : Heap α δ) (slot : Slot α) (value : Option α) :
    Except Fault (Heap α δ) :=
  match slot with
  | .head => .ok { heap with tqhFirst := value }
  | .next address =>
      heap.modify address fun record => { record with tqeNext := value }

def Heap.kfree (heap : Heap α δ) (address : α) : Except Fault (Heap α δ) := do
  let _ ← heap.load address
  .ok { heap with records := Function.update heap.records address none }

def Heap.insertTail (heap : Heap α δ) (elm : α) :
    Except Fault (Heap α δ) := do
  let heap ← heap.modify elm fun record => { record with tqeNext := none }
  let heap ← heap.modify elm fun record =>
    { record with tqePrev := heap.tqhLast }
  let heap ← heap.store heap.tqhLast (some elm)
  .ok { heap with tqhLast := .next elm }

def Heap.remove (heap : Heap α δ) (elm : α) : Except Fault (Heap α δ) := do
  let record ← heap.load elm
  let heap ←
    match record.tqeNext with
    | some successor =>
        heap.modify successor fun other =>
          { other with tqePrev := record.tqePrev }
    | none => .ok { heap with tqhLast := record.tqePrev }
  let record ← heap.load elm
  heap.store record.tqePrev record.tqeNext

/-- The second variable of `TAILQ_FOREACH_SAFE`. -/
def Heap.prefetch (heap : Heap α δ) : Option α → Except Fault (Option α)
  | none => .ok none
  | some var => do
      let record ← heap.load var
      .ok record.tqeNext

/-- The body of `TAILQ_FOREACH_SAFE` in which every record is read, removed
and released.  The data read are collected in order. -/
def Heap.drainFrom :
    ℕ → Heap α δ → Option α → Option α → List δ →
      Except Fault (List δ × Heap α δ)
  | _, heap, none, _, printed => .ok (printed, heap)
  | 0, _, some _, _, _ => .error .endless
  | fuel + 1, heap, some var, next, printed => do
      let record ← heap.load var
      let heap ← heap.remove var
      let heap ← heap.kfree var
      let following ← heap.prefetch next
      drainFrom fuel heap next following (printed ++ [record.datum])

def Heap.drain (fuel : ℕ) (heap : Heap α δ) :
    Except Fault (List δ × Heap α δ) := do
  let next ← heap.prefetch heap.tqhFirst
  Heap.drainFrom fuel heap heap.tqhFirst next []

end Operations

/-! ## The shape of a queue -/

def first : List (α × δ) → Option α
  | [] => none
  | entry :: _ => some entry.1

@[simp] theorem first_nil : first ([] : List (α × δ)) = none := rfl

@[simp] theorem first_cons (entry : α × δ) (rest : List (α × δ)) :
    first (entry :: rest) = some entry.1 := rfl

def lastSlot : Slot α → List (α × δ) → Slot α
  | slot, [] => slot
  | _, entry :: rest => lastSlot (.next entry.1) rest

/-- Every record points to the next one and back to the slot before it. -/
def Chained (records : α → Option (Record α δ)) :
    Slot α → List (α × δ) → Prop
  | _, [] => True
  | slot, entry :: rest =>
      records entry.1 = some ⟨first rest, slot, entry.2⟩ ∧
        Chained records (.next entry.1) rest

/-- A well-formed tail queue of the given records. -/
structure Heap.WellFormed (heap : Heap α δ) (entries : List (α × δ)) :
    Prop where
  first_eq : heap.tqhFirst = first entries
  last_eq : heap.tqhLast = lastSlot .head entries
  chained : Chained heap.records .head entries
  distinct : (entries.map Prod.fst).Nodup

theorem Heap.wellFormed_initializer :
    (Heap.initializer : Heap α δ).WellFormed [] :=
  ⟨rfl, rfl, trivial, List.nodup_nil⟩

theorem Heap.WellFormed.tqhFirst_eq_none_iff
    {heap : Heap α δ} {entries : List (α × δ)}
    (hwell : heap.WellFormed entries) :
    heap.tqhFirst = none ↔ entries = [] := by
  rw [hwell.first_eq]
  cases entries <;> simp [first]

theorem Chained.live
    {records : α → Option (Record α δ)} {slot : Slot α}
    {entries : List (α × δ)} (hchained : Chained records slot entries)
    {address : α} (hmem : address ∈ entries.map Prod.fst) :
    (records address).isSome := by
  induction entries generalizing slot with
  | nil => simp at hmem
  | cons entry rest ih =>
      simp only [List.map_cons, List.mem_cons] at hmem
      rcases hmem with rfl | hrest
      · simp [hchained.1]
      · exact ih hchained.2 hrest

theorem Chained.congr
    {records other : α → Option (Record α δ)} {slot : Slot α}
    {entries : List (α × δ)} (hchained : Chained records slot entries)
    (hsame : ∀ address ∈ entries.map Prod.fst,
      other address = records address) :
    Chained other slot entries := by
  induction entries generalizing slot with
  | nil => trivial
  | cons entry rest ih =>
      refine ⟨(hsame entry.1 (by simp)).trans hchained.1, ?_⟩
      apply ih hchained.2
      intro address hmem
      exact hsame address (by simp [hmem])

theorem lastSlot_eq_or_mem (slot : Slot α) (entries : List (α × δ)) :
    lastSlot slot entries = slot ∧ entries = [] ∨
      ∃ address ∈ entries.map Prod.fst,
        lastSlot slot entries = .next address := by
  induction entries generalizing slot with
  | nil => exact Or.inl ⟨rfl, rfl⟩
  | cons entry rest ih =>
      right
      rcases ih (.next entry.1) with ⟨hlast, _⟩ | ⟨address, hmem, hlast⟩
      · exact ⟨entry.1, by simp, hlast⟩
      · exact ⟨address, by simp [hmem], hlast⟩

theorem lastSlot_append
    (slot : Slot α) (entries : List (α × δ)) (entry : α × δ) :
    lastSlot slot (entries ++ [entry]) = .next entry.1 := by
  induction entries generalizing slot with
  | nil => rfl
  | cons other rest ih => exact ih (.next other.1)

/-! ## Insertion at the tail -/

variable [DecidableEq α]

omit [DecidableEq α] in
theorem Heap.load_eq
    {heap : Heap α δ} {address : α} {record : Record α δ}
    (hlive : heap.records address = some record) :
    heap.load address = .ok record := by
  simp [Heap.load, hlive]

theorem Heap.modify_eq
    {heap : Heap α δ} {address : α} {record : Record α δ}
    (hlive : heap.records address = some record)
    (change : Record α δ → Record α δ) :
    heap.modify address change =
      .ok (heap.write address (change record)) := by
  simp [Heap.modify, Heap.load_eq hlive, bind, Except.bind]

omit [DecidableEq α] in
/-- Only the last record of the old queue changes, and only in its next
pointer. -/
theorem Chained.append
    {records other : α → Option (Record α δ)} {slot : Slot α}
    {entries : List (α × δ)} {elm : α} {datum : δ}
    (hchained : Chained records slot entries)
    (hdistinct : (entries.map Prod.fst).Nodup)
    (hnew : other elm = some ⟨none, lastSlot slot entries, datum⟩)
    (hlast : ∀ address ∈ entries.map Prod.fst,
      lastSlot slot entries = .next address →
      other address =
        (records address).map fun record => { record with tqeNext := some elm })
    (hsame : ∀ address ∈ entries.map Prod.fst,
      lastSlot slot entries ≠ .next address →
      other address = records address) :
    Chained other slot (entries ++ [(elm, datum)]) := by
  induction entries generalizing slot with
  | nil => exact ⟨hnew, trivial⟩
  | cons entry rest ih =>
      have hrest : Chained other (.next entry.1) (rest ++ [(elm, datum)]) := by
        apply ih hchained.2 (List.nodup_cons.mp hdistinct).2 hnew
        · intro address hmem hslot
          exact hlast address (by simp [hmem]) hslot
        · intro address hmem hslot
          exact hsame address (by simp [hmem]) hslot
      refine ⟨?_, hrest⟩
      rcases lastSlot_eq_or_mem (.next entry.1) rest with
        ⟨hslot, rfl⟩ | ⟨address, hmem, hslot⟩
      · rw [hlast entry.1 (by simp) hslot, hchained.1]
        rfl
      · have hne : entry.1 ≠ address := by
          rintro rfl
          exact (List.nodup_cons.mp hdistinct).1 hmem
        have hother : lastSlot slot (entry :: rest) ≠ .next entry.1 := by
          intro hequal
          have := hslot.symm.trans hequal
          simp only [Slot.next.injEq] at this
          exact hne this.symm
        rw [hsame entry.1 (by simp) hother, hchained.1]
        cases rest with
        | nil => simp at hmem
        | cons _ _ => rfl

@[simp] theorem Heap.write_records_self
    (heap : Heap α δ) (address : α) (record : Record α δ) :
    (heap.write address record).records address = some record := by
  simp [Heap.write]

theorem Heap.write_records_of_ne
    (heap : Heap α δ) {address other : α} (record : Record α δ)
    (hne : other ≠ address) :
    (heap.write address record).records other = heap.records other := by
  simp [Heap.write, hne]

@[simp] theorem Heap.write_tqhFirst
    (heap : Heap α δ) (address : α) (record : Record α δ) :
    (heap.write address record).tqhFirst = heap.tqhFirst := rfl

@[simp] theorem Heap.write_tqhLast
    (heap : Heap α δ) (address : α) (record : Record α δ) :
    (heap.write address record).tqhLast = heap.tqhLast := rfl

@[simp] theorem Heap.write_write
    (heap : Heap α δ) (address : α) (record later : Record α δ) :
    (heap.write address record).write address later =
      heap.write address later := by
  simp [Heap.write]

theorem Heap.write_live
    {heap : Heap α δ} {address : α} (record : Record α δ)
    (hlive : (heap.records address).isSome) (other : α) :
    ((heap.write address record).records other).isSome =
      (heap.records other).isSome := by
  by_cases hother : other = address
  · subst hother
    simp [hlive]
  · rw [Heap.write_records_of_ne heap record hother]

/-- After its first two assignments the new record points back to the last
slot; what is left is one store through that slot. -/
theorem Heap.insertTail_eq
    {heap : Heap α δ} {elm : α} {record : Record α δ}
    (hlive : heap.records elm = some record) :
    heap.insertTail elm =
      ((heap.write elm ⟨none, heap.tqhLast, record.datum⟩).store
        heap.tqhLast (some elm)).map
          fun stored => { stored with tqhLast := .next elm } := by
  unfold Heap.insertTail
  rw [Heap.modify_eq hlive]
  simp only [bind, Except.bind, Heap.write_tqhLast]
  rw [Heap.modify_eq (Heap.write_records_self ..)]
  simp only [Heap.write_write, Heap.write_tqhLast]
  cases (heap.write elm ⟨none, heap.tqhLast, record.datum⟩).store
    heap.tqhLast (some elm) <;> rfl

theorem Heap.WellFormed.insertTail
    {heap : Heap α δ} {entries : List (α × δ)}
    (hwell : heap.WellFormed entries) {elm : α} {record : Record α δ}
    (hlive : heap.records elm = some record)
    (hnew : elm ∉ entries.map Prod.fst) :
    ∃ heap', heap.insertTail elm = .ok heap' ∧
      heap'.WellFormed (entries ++ [(elm, record.datum)]) ∧
      ∀ address,
        (heap'.records address).isSome = (heap.records address).isSome := by
  have hdistinct : ((entries ++ [(elm, record.datum)]).map Prod.fst).Nodup := by
    rw [List.map_append, List.nodup_append]
    refine ⟨hwell.distinct, by simp, ?_⟩
    intro address hmem other hother hequal
    simp only [List.map_cons, List.map_nil, List.mem_singleton] at hother
    exact hnew (hother ▸ hequal ▸ hmem)
  have hlast := lastSlot_append Slot.head entries (elm, record.datum)
  rw [Heap.insertTail_eq hlive]
  rcases lastSlot_eq_or_mem Slot.head entries with
    ⟨hslot, rfl⟩ | ⟨tail, hmem, hslot⟩
  · rw [hwell.last_eq, hslot]
    refine ⟨_, rfl, ⟨rfl, hlast.symm, ?_, hdistinct⟩, ?_⟩
    · exact ⟨Heap.write_records_self .., trivial⟩
    · exact Heap.write_live _ (by simp [hlive])
  · obtain ⟨old, hold⟩ :=
      Option.isSome_iff_exists.mp (hwell.chained.live hmem)
    have hne : tail ≠ elm := fun hequal => hnew (hequal ▸ hmem)
    have htail := Heap.write_records_of_ne heap
      ⟨none, heap.tqhLast, record.datum⟩ hne
    rw [hwell.last_eq, hslot] at htail ⊢
    simp only [Heap.store]
    rw [Heap.modify_eq (htail.trans hold)]
    refine ⟨_, rfl, ⟨?_, hlast.symm, ?_, hdistinct⟩, ?_⟩
    · rw [Heap.write_tqhFirst, Heap.write_tqhFirst, hwell.first_eq]
      cases entries with
      | nil => simp at hmem
      | cons _ _ => rfl
    · apply hwell.chained.append hwell.distinct
      · rw [Heap.write_records_of_ne _ _ hne.symm, hslot]
        exact Heap.write_records_self ..
      · intro address _ hequal
        obtain rfl : tail = address := by simpa [hslot] using hequal
        rw [hold]
        exact Heap.write_records_self ..
      · intro address haddress hother
        have hnetail : address ≠ tail := by
          rintro rfl
          exact hother hslot
        have hneelm : address ≠ elm := fun hequal => hnew (hequal ▸ haddress)
        rw [Heap.write_records_of_ne _ _ hnetail,
          Heap.write_records_of_ne _ _ hneelm]
    · intro address
      rw [Heap.write_live _ (by simp [htail, hold]),
        Heap.write_live _ (by simp [hlive])]

/-! ## The removing loop -/

omit [DecidableEq α] in
theorem Chained.prefetch
    {heap : Heap α δ} {slot : Slot α} {entries : List (α × δ)}
    (hchained : Chained heap.records slot entries) :
    heap.prefetch (first entries) = .ok (first entries.tail) := by
  cases entries with
  | nil => rfl
  | cons entry rest =>
      simp [Heap.prefetch, Heap.load_eq hchained.1, bind, Except.bind]

theorem Heap.kfree_eq
    {heap : Heap α δ} {address : α} {record : Record α δ}
    (hlive : heap.records address = some record) :
    heap.kfree address =
      .ok { heap with records := Function.update heap.records address none } := by
  simp [Heap.kfree, Heap.load_eq hlive, bind, Except.bind]

omit [DecidableEq α] in
theorem Chained.relink
    {records other : α → Option (Record α δ)} {slot old : Slot α}
    {entry : α × δ} {rest : List (α × δ)}
    (hchained : Chained records old (entry :: rest))
    (hdistinct : ((entry :: rest).map Prod.fst).Nodup)
    (hfirst : other entry.1 = some ⟨first rest, slot, entry.2⟩)
    (hsame : ∀ address ∈ rest.map Prod.fst,
      address ≠ entry.1 → other address = records address) :
    Chained other slot (entry :: rest) := by
  refine ⟨hfirst, hchained.2.congr ?_⟩
  intro address hmem
  apply hsame address hmem
  rintro rfl
  exact (List.nodup_cons.mp hdistinct).1 hmem

/-- Unlinking and releasing the first record leaves the queue of the others. -/
theorem Heap.WellFormed.remove_first
    {heap : Heap α δ} {entry : α × δ} {rest : List (α × δ)}
    (hwell : heap.WellFormed (entry :: rest)) :
    ∃ unlinked released,
      heap.remove entry.1 = .ok unlinked ∧
      unlinked.kfree entry.1 = .ok released ∧
      released.WellFormed rest ∧
      released.records entry.1 = none ∧
      ∀ address ∉ (entry :: rest).map Prod.fst,
        released.records address = heap.records address := by
  have hentry := hwell.chained.1
  have hdistinct := List.nodup_cons.mp hwell.distinct
  unfold Heap.remove
  rw [Heap.load_eq hentry]
  cases rest with
  | nil =>
      have hkept : ({ heap with tqhLast := .head } : Heap α δ).records entry.1 =
          some ⟨none, .head, entry.2⟩ := hentry
      simp only [bind, Except.bind, first_nil]
      rw [Heap.load_eq hkept]
      refine ⟨_, _, rfl, Heap.kfree_eq hkept, ⟨rfl, rfl, trivial, by simp⟩,
        by simp, ?_⟩
      intro address hout
      exact Function.update_of_ne (by simpa using hout) ..
  | cons successor more =>
      have hsuccessor := hwell.chained.2.1
      have hne : entry.1 ≠ successor.1 := by
        intro hequal
        exact hdistinct.1 (by simp [hequal])
      simp only [bind, Except.bind, first_cons]
      rw [Heap.modify_eq hsuccessor]
      have hkept := (Heap.write_records_of_ne heap
        ⟨first more, .head, successor.2⟩ hne).trans hentry
      simp only
      rw [Heap.load_eq hkept]
      refine ⟨_, _, rfl, Heap.kfree_eq hkept, ⟨rfl, hwell.last_eq, ?_,
        hdistinct.2⟩, by simp, ?_⟩
      · apply hwell.chained.2.relink hdistinct.2
        · simp only [Function.update_of_ne hne.symm]
          exact Heap.write_records_self ..
        · intro address hmem hother
          have hleft : address ≠ entry.1 := by
            rintro rfl
            exact hdistinct.1 (by simp [hmem])
          simp only [Function.update_of_ne hleft]
          exact Heap.write_records_of_ne _ _ hother
      · intro address hout
        simp only [List.map_cons, List.mem_cons, not_or] at hout
        simp only [Function.update_of_ne hout.1]
        exact Heap.write_records_of_ne _ _ hout.2.1

/-- Induction over the queue: the loop finds a well-formed queue with its
first record in hand and the next one prefetched. -/
theorem Heap.WellFormed.drainFrom
    {heap : Heap α δ} {entries : List (α × δ)}
    (hwell : heap.WellFormed entries) {fuel : ℕ}
    (hfuel : entries.length ≤ fuel) (printed : List δ) :
    ∃ drained,
      Heap.drainFrom fuel heap (first entries) (first entries.tail) printed =
        .ok (printed ++ entries.map Prod.snd, drained) ∧
      drained.WellFormed [] ∧
      (∀ address ∈ entries.map Prod.fst, drained.records address = none) ∧
      ∀ address ∉ entries.map Prod.fst,
        drained.records address = heap.records address := by
  induction entries generalizing heap fuel printed with
  | nil =>
      refine ⟨heap, ?_, hwell, by simp, by simp⟩
      cases fuel <;> simp [Heap.drainFrom, first]
  | cons entry rest ih =>
      have hpositive : fuel ≠ 0 := by
        simp only [List.length_cons] at hfuel
        omega
      obtain ⟨fuel, rfl⟩ := Nat.exists_eq_add_one_of_ne_zero hpositive
      obtain ⟨unlinked, released, hremove, hkfree, hrest, hgone, hkept⟩ :=
        hwell.remove_first
      obtain ⟨drained, hloop, hempty, hfreed, hframe⟩ :=
        ih hrest (by simpa using hfuel) (printed ++ [entry.2])
      have hfirst := (List.nodup_cons.mp hwell.distinct).1
      refine ⟨drained, ?_, hempty, ?_, ?_⟩
      · simp only [first_cons, List.tail_cons, Heap.drainFrom,
          Heap.load_eq hwell.chained.1, bind, Except.bind, hremove, hkfree]
        rw [Chained.prefetch hrest.chained]
        simp [hloop]
      · intro address hmem
        simp only [List.map_cons, List.mem_cons] at hmem
        rcases hmem with rfl | hmem
        · rw [hframe entry.1 hfirst, hgone]
        · exact hfreed address hmem
      · intro address hout
        rw [hframe address fun hmem => hout (by simp [hmem]), hkept address hout]

theorem Heap.WellFormed.drain
    {heap : Heap α δ} {entries : List (α × δ)}
    (hwell : heap.WellFormed entries) {fuel : ℕ}
    (hfuel : entries.length ≤ fuel) :
    ∃ drained,
      heap.drain fuel = .ok (entries.map Prod.snd, drained) ∧
      drained.WellFormed [] ∧
      (∀ address ∈ entries.map Prod.fst, drained.records address = none) ∧
      ∀ address ∉ entries.map Prod.fst,
        drained.records address = heap.records address := by
  obtain ⟨drained, hloop, hrest⟩ := hwell.drainFrom hfuel []
  refine ⟨drained, ?_, hrest⟩
  simp only [Heap.drain, hwell.first_eq, bind, Except.bind]
  rw [Chained.prefetch hwell.chained]
  exact hloop

end LinuxKernelCode.TailQueue
