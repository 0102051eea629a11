import Mathlib.Data.List.Basic
import Mathlib.Data.List.Nodup
import Mathlib.Logic.Function.Basic

/-!
# Linked records

Records that are linked through slots.  Every record owns a slot which holds a
pointer to the record after it, and may keep the address of the slot that
points to it.  A chain starts at a slot, runs through the records of a list and
leaves with a pointer that is not one of its records.

The layout says where the slot of a record is and what a pointer to it looks
like, so null-terminated lists, tail queues and rings are chains of different
layouts.  One rule describes every change of a chain: a stretch of it is
replaced by another one, and only the slot in front of the stretch, the new
records and the first record behind it may be written.
-/

namespace LinuxKernelCode.LinkedSlots

universe u v w

variable {α β : Type u} {σ : Type v}

structure Layout (α : Type u) (σ : Type v) (β : Type u) where
  slot : α → σ
  pointer : α → β
  slot_injective : Function.Injective slot

variable (layout : Layout α σ β)

/-- The slot at which the chain of the given records ends. -/
def endSlot : σ → List α → σ
  | start, [] => start
  | _, record :: rest => endSlot (layout.slot record) rest

/-- The pointer to the first record, or the one behind an empty stretch. -/
def entry : List α → β → β
  | [], behind => behind
  | record :: _, _ => layout.pointer record

def Forward (next : σ → Option β) : σ → List α → β → Prop
  | start, [], behind => next start = some behind
  | start, record :: rest, behind =>
      next start = some (layout.pointer record) ∧
        Forward next (layout.slot record) rest behind

def Backward (previous : α → Option σ) : σ → List α → Prop
  | _, [] => True
  | start, record :: rest =>
      previous record = some start ∧
        Backward previous (layout.slot record) rest

/-- The slots of the chain are pairwise different, its first one included. -/
def Separate (start : σ) (records : List α) : Prop :=
  start ∉ records.map layout.slot ∧ records.Nodup

variable {layout} {next next' : σ → Option β} {previous previous' : α → Option σ}
  {start : σ} {before replaced behind records : List α} {exit : β}

@[simp] theorem endSlot_nil : endSlot layout start [] = start := rfl

@[simp] theorem endSlot_cons (record : α) (rest : List α) :
    endSlot layout start (record :: rest) =
      endSlot layout (layout.slot record) rest := rfl

@[simp] theorem entry_nil : entry layout [] exit = exit := rfl

@[simp] theorem entry_cons (record : α) (rest : List α) :
    entry layout (record :: rest) exit = layout.pointer record := rfl

@[simp] theorem endSlot_append (before behind : List α) :
    endSlot layout start (before ++ behind) =
      endSlot layout (endSlot layout start before) behind := by
  induction before generalizing start with
  | nil => rfl
  | cons record rest ih => exact ih

theorem entry_append (before behind : List α) :
    entry layout (before ++ behind) exit =
      entry layout before (entry layout behind exit) := by
  cases before <;> rfl

theorem endSlot_mem :
    endSlot layout start records ∈ start :: records.map layout.slot := by
  induction records generalizing start with
  | nil => simp
  | cons record rest ih =>
      have hrest : endSlot layout (layout.slot record) rest ∈
          layout.slot record :: rest.map layout.slot := ih
      simp only [List.map_cons, List.mem_cons] at hrest ⊢
      exact Or.inr hrest

theorem forward_append :
    Forward layout next start (before ++ behind) exit ↔
      Forward layout next start before (entry layout behind exit) ∧
        Forward layout next (endSlot layout start before) behind exit := by
  induction before generalizing start with
  | nil =>
      cases behind with
      | nil => simp [Forward]
      | cons record rest =>
          simp only [List.nil_append, Forward, entry_cons, endSlot_nil]
          tauto
  | cons record rest ih =>
      simp only [List.cons_append, Forward, endSlot_cons, ih, and_assoc]

theorem backward_append :
    Backward layout previous start (before ++ behind) ↔
      Backward layout previous start before ∧
        Backward layout previous (endSlot layout start before) behind := by
  induction before generalizing start with
  | nil => simp [Backward]
  | cons record rest ih =>
      simp only [List.cons_append, Backward, endSlot_cons, ih, and_assoc]

theorem Forward.entry_eq
    (hforward : Forward layout next start records exit) :
    next start = some (entry layout records exit) := by
  cases records with
  | nil => exact hforward
  | cons _ _ => exact hforward.1

theorem Forward.exit_eq
    (hforward : Forward layout next start records exit) :
    next (endSlot layout start records) = some exit := by
  induction records generalizing start with
  | nil => exact hforward
  | cons _ _ ih => exact ih hforward.2

/-- The chain behind a slot does not depend on which slot that is. -/
theorem Forward.rebase
    {other : σ} (hforward : Forward layout next start records exit)
    (hentry : next' other = some (entry layout records exit))
    (hsame : ∀ record ∈ records,
      next' (layout.slot record) = next (layout.slot record)) :
    Forward layout next' other records exit := by
  induction records generalizing start other with
  | nil => exact hentry
  | cons record rest ih =>
      refine ⟨hentry, ih hforward.2 ?_ ?_⟩
      · rw [hsame record (by simp)]
        exact hforward.2.entry_eq
      · intro later hlater
        exact hsame later (by simp [hlater])

theorem Forward.redirect
    {other : β} (hforward : Forward layout next start records exit)
    (hseparate : Separate layout start records)
    (hlast : next' (endSlot layout start records) = some other)
    (hsame : ∀ slot ∈ start :: records.map layout.slot,
      slot ≠ endSlot layout start records → next' slot = next slot) :
    Forward layout next' start records other := by
  induction records generalizing start with
  | nil => exact hlast
  | cons record rest ih =>
      obtain ⟨hfresh, hnodup⟩ := hseparate
      have hrecord : layout.slot record ∉ rest.map layout.slot := by
        intro hmem
        obtain ⟨later, hlater, hequal⟩ := List.mem_map.mp hmem
        rw [layout.slot_injective hequal] at hlater
        exact (List.nodup_cons.mp hnodup).1 hlater
      refine ⟨?_, ih hforward.2 ⟨hrecord, (List.nodup_cons.mp hnodup).2⟩
        hlast ?_⟩
      · rw [hsame start (by simp) ?_]
        · exact hforward.1
        · intro hequal
          apply hfresh
          rw [hequal]
          exact endSlot_mem
      · intro slot hslot hne
        exact hsame slot (List.mem_cons_of_mem _ hslot) hne

theorem Backward.congr
    (hbackward : Backward layout previous start records)
    (hsame : ∀ record ∈ records, previous' record = previous record) :
    Backward layout previous' start records := by
  induction records generalizing start with
  | nil => trivial
  | cons record rest ih =>
      refine ⟨(hsame record (by simp)).trans hbackward.1, ih hbackward.2 ?_⟩
      intro later hlater
      exact hsame later (by simp [hlater])

theorem Backward.rebase
    {other : σ} (hbackward : Backward layout previous start records)
    (hfirst : ∀ record ∈ records.head?, previous' record = some other)
    (hsame : ∀ record ∈ records.tail, previous' record = previous record) :
    Backward layout previous' other records := by
  cases records with
  | nil => trivial
  | cons record rest =>
      exact ⟨hfirst record rfl, hbackward.2.congr hsame⟩

theorem Separate.append_left
    (hseparate : Separate layout start (before ++ behind)) :
    Separate layout start before := by
  obtain ⟨hfresh, hnodup⟩ := hseparate
  refine ⟨fun hmem => hfresh ?_, hnodup.of_append_left⟩
  rw [List.map_append]
  exact List.mem_append_left _ hmem

theorem Separate.drop_stretch
    (hseparate : Separate layout start (before ++ (replaced ++ behind))) :
    Separate layout start (before ++ behind) := by
  have hsublist : (before ++ behind).Sublist (before ++ (replaced ++ behind)) :=
    (List.Sublist.refl before).append (List.sublist_append_right _ _)
  refine ⟨fun hmem => hseparate.1 ?_, hseparate.2.sublist hsublist⟩
  exact (hsublist.map layout.slot).subset hmem

/-- The last slot of the front of a chain is no slot behind it. -/
theorem Separate.endSlot_ne
    (hseparate : Separate layout start (before ++ behind))
    {record : α} (hrecord : record ∈ behind) :
    layout.slot record ≠ endSlot layout start before := by
  intro hequal
  have hmem : endSlot layout start before ∈
      start :: before.map layout.slot := endSlot_mem
  rw [← hequal, List.mem_cons] at hmem
  rcases hmem with hstart | hbefore
  · apply hseparate.1
    rw [← hstart, List.map_append]
    exact List.mem_append_right _ (List.mem_map_of_mem hrecord)
  · obtain ⟨earlier, hearlier, hslot⟩ := List.mem_map.mp hbefore
    rw [layout.slot_injective hslot] at hearlier
    exact (List.disjoint_of_nodup_append hseparate.2) hearlier hrecord

/-! ## Replacing a stretch of a chain -/

theorem Forward.splice
    (replaced stretch : List α)
    (hforward : Forward layout next start (before ++ (replaced ++ behind)) exit)
    (hseparate : Separate layout start (before ++ behind))
    (hstretch : Forward layout next' (endSlot layout start before) stretch
      (entry layout behind exit))
    (hsame : ∀ slot ∈ start :: (before ++ behind).map layout.slot,
      slot ≠ endSlot layout start before → next' slot = next slot) :
    Forward layout next' start (before ++ (stretch ++ behind)) exit := by
  obtain ⟨hbefore, hrest⟩ := forward_append.mp hforward
  have hbehind := (forward_append.mp hrest).2
  refine forward_append.mpr ⟨?_, forward_append.mpr ⟨hstretch, ?_⟩⟩
  · apply hbefore.redirect hseparate.append_left
    · rw [entry_append]
      exact hstretch.entry_eq
    · intro slot hslot hne
      refine hsame slot ?_ hne
      rw [List.map_append]
      simp only [List.mem_cons, List.mem_append] at hslot ⊢
      tauto
  · apply hbehind.rebase hstretch.exit_eq
    intro record hrecord
    refine hsame _ ?_ (hseparate.endSlot_ne hrecord)
    simp only [List.map_append, List.mem_cons, List.mem_append, List.mem_map]
    exact Or.inr (Or.inr ⟨record, hrecord, rfl⟩)

theorem Backward.splice
    (replaced stretch : List α)
    (hbackward : Backward layout previous start
      (before ++ (replaced ++ behind)))
    (hstretch : Backward layout previous' (endSlot layout start before) stretch)
    (hfirst : ∀ record ∈ behind.head?, previous' record =
      some (endSlot layout (endSlot layout start before) stretch))
    (hsame : ∀ record ∈ before ++ behind.tail,
      previous' record = previous record) :
    Backward layout previous' start (before ++ (stretch ++ behind)) := by
  obtain ⟨hbefore, hrest⟩ := backward_append.mp hbackward
  have hbehind := (backward_append.mp hrest).2
  refine backward_append.mpr ⟨?_, backward_append.mpr ⟨hstretch, ?_⟩⟩
  · apply hbefore.congr
    intro record hrecord
    exact hsame record (by simp [hrecord])
  · apply hbehind.rebase hfirst
    intro record hrecord
    exact hsame record (by simp [hrecord])

/-! ## Putting a record in and taking records out -/

theorem Separate.insert
    (hseparate : Separate layout start (before ++ behind))
    {record : α} (hrecord : record ∉ before ++ behind)
    (hslot : layout.slot record ≠ start) :
    Separate layout start (before ++ record :: behind) := by
  constructor
  · intro hmem
    simp only [List.map_append, List.map_cons, List.mem_append,
      List.mem_cons] at hmem
    rcases hmem with hbefore | hequal | hbehind
    · exact hseparate.1 (by simp [hbefore])
    · exact hslot hequal.symm
    · exact hseparate.1 (by simp [hbehind])
  · exact List.nodup_middle.mpr (List.nodup_cons.mpr ⟨hrecord, hseparate.2⟩)

theorem Forward.link
    [DecidableEq σ]
    (hforward : Forward layout next start (before ++ behind) exit)
    (hseparate : Separate layout start (before ++ behind))
    {record : α} (hrecord : record ∉ before ++ behind)
    (hslot : layout.slot record ≠ start) :
    Forward layout
      (Function.update
        (Function.update next (layout.slot record)
          (some (entry layout behind exit)))
        (endSlot layout start before) (some (layout.pointer record)))
      start (before ++ record :: behind) exit := by
  have hne : layout.slot record ≠ endSlot layout start before :=
    (hseparate.insert hrecord hslot).endSlot_ne (by simp)
  have hslots : ∀ slot ∈ start :: (before ++ behind).map layout.slot,
      slot ≠ layout.slot record := by
    intro slot hmem hequal
    rcases List.mem_cons.mp hmem with hstart | hmem
    · exact hslot (hequal.symm.trans hstart)
    · obtain ⟨other, hmember, hsame⟩ := List.mem_map.mp hmem
      rw [layout.slot_injective (hsame.trans hequal)] at hmember
      exact hrecord hmember
  apply hforward.splice [] [record] hseparate
  · constructor
    · exact Function.update_self ..
    · simp [Forward, Function.update_of_ne hne]
  · intro slot hmem hlast
    simp [Function.update_of_ne hlast,
      Function.update_of_ne (hslots slot hmem)]

theorem Forward.unlink
    [DecidableEq σ]
    (hforward : Forward layout next start (before ++ (replaced ++ behind)) exit)
    (hseparate : Separate layout start (before ++ (replaced ++ behind))) :
    Forward layout
      (Function.update next (endSlot layout start before)
        (some (entry layout behind exit)))
      start (before ++ behind) exit := by
  apply hforward.splice replaced [] hseparate.drop_stretch
  · exact Function.update_self ..
  · intro slot _ hlast
    exact Function.update_of_ne hlast ..

/-- A chain that can be followed in both directions. -/
structure Linked
    (layout : Layout α σ β) (next : σ → Option β) (previous : α → Option σ)
    (start : σ) (exit : β) (records : List α) : Prop where
  forward : Forward layout next start records exit
  backward : Backward layout previous start records
  separate : Separate layout start records

theorem Linked.at_record
    {record : α}
    (hlinked : Linked layout next previous start exit
      (before ++ record :: behind)) :
    previous record = some (endSlot layout start before) ∧
      next (endSlot layout start before) = some (layout.pointer record) ∧
      next (layout.slot record) = some (entry layout behind exit) := by
  have hforward := (forward_append.mp hlinked.forward).2
  have hbackward := (backward_append.mp hlinked.backward).2
  exact ⟨hbackward.1, hforward.1, hforward.2.entry_eq⟩

theorem Linked.congr
    (hlinked : Linked layout next previous start exit records)
    (hnext : ∀ slot ∈ start :: records.map layout.slot,
      next' slot = next slot)
    (hprevious : ∀ record ∈ records, previous' record = previous record) :
    Linked layout next' previous' start exit records := by
  refine ⟨hlinked.forward.rebase ?_ ?_, hlinked.backward.congr hprevious,
    hlinked.separate⟩
  · rw [hnext start (by simp)]
    exact hlinked.forward.entry_eq
  · intro record hrecord
    exact hnext _ (List.mem_cons_of_mem _ (List.mem_map_of_mem hrecord))

section Previous

variable [DecidableEq α]

/-- The record behind a gap learns which slot is in front of it. -/
def setPrevious (previous : α → Option σ) (slot : σ) :
    Option α → α → Option σ
  | some record => Function.update previous record (some slot)
  | none => previous

theorem setPrevious_of_ne
    (previous : α → Option σ) (slot : σ) {behind : Option α} {record : α}
    (hne : record ∉ behind) :
    setPrevious previous slot behind record = previous record := by
  cases behind with
  | none => rfl
  | some other =>
      have hother : record ≠ other := by
        rintro rfl
        exact hne rfl
      exact Function.update_of_ne hother ..

theorem setPrevious_head
    (previous : α → Option σ) (slot : σ) {behind : Option α} {record : α}
    (hhead : record ∈ behind) :
    setPrevious previous slot behind record = some slot := by
  cases behind with
  | none => simp at hhead
  | some other =>
      obtain rfl : other = record := by simpa using hhead
      exact Function.update_self ..

theorem setPrevious_update
    (previous : α → Option σ) (slot : σ) {behind : Option α} {record : α}
    (hne : record ∉ behind) (value : Option σ) :
    setPrevious (Function.update previous record value) slot behind =
      Function.update (setPrevious previous slot behind) record value := by
  cases behind with
  | none => rfl
  | some other =>
      have hother : other ≠ record := by
        rintro rfl
        exact hne rfl
      exact Function.update_comm hother _ _ _ |>.symm

omit [DecidableEq α] in
theorem not_mem_head?_of_mem
    (hnodup : (before ++ behind).Nodup) {record : α}
    (hrecord : record ∈ before ++ behind.tail) :
    record ∉ behind.head? := by
  cases behind with
  | nil => simp
  | cons first rest =>
      intro hhead
      obtain rfl : first = record := by simpa using hhead
      rcases List.mem_append.mp hrecord with hbefore | hrest
      · exact List.disjoint_of_nodup_append hnodup hbefore (by simp)
      · exact (List.nodup_cons.mp hnodup.of_append_right).1 hrest

variable [DecidableEq σ]

theorem Linked.link
    (hlinked : Linked layout next previous start exit (before ++ behind))
    {record : α} (hrecord : record ∉ before ++ behind)
    (hslot : layout.slot record ≠ start) :
    Linked layout
      (Function.update
        (Function.update next (layout.slot record)
          (some (entry layout behind exit)))
        (endSlot layout start before) (some (layout.pointer record)))
      (Function.update
        (setPrevious previous (layout.slot record) behind.head?)
        record (some (endSlot layout start before)))
      start exit (before ++ record :: behind) := by
  have hother : ∀ other ∈ before ++ behind, other ≠ record := by
    rintro other hother rfl
    exact hrecord hother
  constructor
  · exact hlinked.forward.link hlinked.separate hrecord hslot
  · apply hlinked.backward.splice [] [record]
    · simp [Backward]
    · intro first hfirst
      have hmem : first ∈ before ++ behind := by
        simp [List.mem_of_mem_head? hfirst]
      rw [Function.update_of_ne (hother first hmem)]
      exact setPrevious_head _ _ hfirst
    · intro other hmem
      have hmember : other ∈ before ++ behind := by
        rcases List.mem_append.mp hmem with hbefore | htail
        · simp [hbefore]
        · simp [List.mem_of_mem_tail htail]
      rw [Function.update_of_ne (hother other hmember)]
      apply setPrevious_of_ne
      exact not_mem_head?_of_mem hlinked.separate.2 hmem
  · exact hlinked.separate.insert hrecord hslot

theorem Linked.unlink
    (hlinked : Linked layout next previous start exit
      (before ++ (replaced ++ behind))) :
    Linked layout
      (Function.update next (endSlot layout start before)
        (some (entry layout behind exit)))
      (setPrevious previous (endSlot layout start before) behind.head?)
      start exit (before ++ behind) := by
  have hseparate := hlinked.separate.drop_stretch
  constructor
  · exact hlinked.forward.unlink hlinked.separate
  · apply hlinked.backward.splice replaced []
    · trivial
    · intro first hfirst
      exact setPrevious_head _ _ hfirst
    · intro other hmem
      apply setPrevious_of_ne
      exact not_mem_head?_of_mem hseparate.2 hmem
  · exact hseparate

end Previous

/-! ## Chains that know their end -/

/-- The last slot after a change in front of what is behind: only if there is
nothing behind, it is the slot in front. -/
def lastBehind (slot last : σ) : Option α → σ
  | none => slot
  | some _ => last

theorem lastBehind_eq
    {last : σ} (hlast : last = endSlot layout start (before ++ behind))
    (slot : σ) :
    lastBehind slot last behind.head? = endSlot layout slot behind := by
  cases behind with
  | nil => rfl
  | cons record rest =>
      rw [endSlot_append] at hlast
      exact hlast

/-- The links of all records, and the slot at which the chain ends. -/
structure Links (α : Type u) (σ : Type v) (β : Type u) where
  next : σ → Option β
  previous : α → Option σ
  last : σ

structure Links.Represents
    (links : Links α σ β) (layout : Layout α σ β) (start : σ) (exit : β)
    (records : List α) : Prop extends
    Linked layout links.next links.previous start exit records where
  last : links.last = endSlot layout start records

variable {links : Links α σ β}

theorem Links.Represents.at_last
    (hrepresents : links.Represents layout start exit records) :
    links.next links.last = some exit := by
  rw [hrepresents.last]
  exact hrepresents.forward.exit_eq

section Changes

variable [DecidableEq α] [DecidableEq σ]

/-- What is behind a gap learns which slot is in front of it: a record keeps
the slot, and if there is none it is the last slot. -/
def Links.setBehind (links : Links α σ β) (slot : σ) (behind : Option α) :
    Links α σ β :=
  { links with
    previous := setPrevious links.previous slot behind
    last := lastBehind slot links.last behind }

variable (layout) in
/-- A record is put in behind a slot, in front of what the slot pointed to. -/
def Links.link
    (links : Links α σ β) (slot : σ) (record : α) (pointer : β)
    (behind : Option α) : Links α σ β :=
  let links :=
    { links with
      next := Function.update links.next (layout.slot record) (some pointer) }
  let links := links.setBehind (layout.slot record) behind
  { links with
    next := Function.update links.next slot (some (layout.pointer record))
    previous := Function.update links.previous record (some slot) }

/-- The slot is made to point past the records behind it. -/
def Links.unlink
    (links : Links α σ β) (slot : σ) (pointer : β) (behind : Option α) :
    Links α σ β :=
  let links := links.setBehind slot behind
  { links with next := Function.update links.next slot (some pointer) }

theorem Links.Represents.link
    (hrepresents :
      links.Represents layout start exit (before ++ behind))
    {record : α} (hrecord : record ∉ before ++ behind)
    (hslot : layout.slot record ≠ start) :
    (links.link layout (endSlot layout start before) record
      (entry layout behind exit) behind.head?).Represents layout start exit
        (before ++ record :: behind) where
  toLinked := hrepresents.toLinked.link hrecord hslot
  last := by
    rw [endSlot_append]
    exact lastBehind_eq hrepresents.last (layout.slot record)

theorem Links.Represents.unlink
    (hrepresents :
      links.Represents layout start exit (before ++ (replaced ++ behind))) :
    (links.unlink (endSlot layout start before) (entry layout behind exit)
      behind.head?).Represents layout start exit (before ++ behind) where
  toLinked := hrepresents.toLinked.unlink
  last := by
    have hlast := hrepresents.last
    rw [← List.append_assoc] at hlast
    rw [endSlot_append]
    exact lastBehind_eq hlast (endSlot layout start before)

end Changes

/-! ## Several chains in one memory -/

/-- Chains that start at different slots and share no record. -/
structure Family {ι : Type w}
    (layout : Layout α σ β) (starts : ι → σ) (exit : β)
    (next : σ → Option β) (previous : α → Option σ) (lists : ι → List α) :
    Prop where
  linked : ∀ index, Linked layout next previous (starts index) exit
    (lists index)
  apart : ∀ {index other}, index ≠ other →
    List.Disjoint (lists index) (lists other)

section Families

variable {ι : Type w} {starts : ι → σ} {lists : ι → List α}

/-- The slots of one chain are none of another chain's. -/
theorem Family.slots_apart
    (hfamily : Family layout starts exit next previous lists)
    (hstarts : Function.Injective starts)
    (hapart : ∀ index record, layout.slot record ≠ starts index)
    {index other : ι} (hne : index ≠ other) {slot : σ}
    (hslot : slot ∈ starts index :: (lists index).map layout.slot) :
    slot ∉ starts other :: (lists other).map layout.slot := by
  intro hmem
  rcases List.mem_cons.mp hslot with rfl | hslot
  · rcases List.mem_cons.mp hmem with hequal | hmem
    · exact hne (hstarts hequal)
    · obtain ⟨record, _, hrecord⟩ := List.mem_map.mp hmem
      exact hapart index record hrecord
  · obtain ⟨record, hrecord, rfl⟩ := List.mem_map.mp hslot
    rcases List.mem_cons.mp hmem with hequal | hmem
    · exact hapart other record hequal
    · obtain ⟨later, hlater, hequal⟩ := List.mem_map.mp hmem
      rw [layout.slot_injective hequal] at hlater
      exact hfamily.apart hne hrecord hlater

variable [DecidableEq ι]

/-- A change of one chain that writes only to its own slots and records, and to
those of a record that is in no chain, leaves the others as they are. -/
theorem Family.update
    (hfamily : Family layout starts exit next previous lists)
    (hstarts : Function.Injective starts)
    (hapart : ∀ index record, layout.slot record ≠ starts index)
    {index : ι} {records : List α}
    (hlinked : Linked layout next' previous' (starts index) exit records)
    (hfresh : ∀ record ∈ records, record ∉ lists index →
      ∀ other, record ∉ lists other)
    (hnext : ∀ slot ∉ starts index :: (lists index).map layout.slot,
      (∀ record ∈ records, slot ≠ layout.slot record) →
      next' slot = next slot)
    (hprevious : ∀ record ∉ lists index, record ∉ records →
      previous' record = previous record) :
    Family layout starts exit next' previous'
      (Function.update lists index records) := by
  have hdisjoint : ∀ other, other ≠ index →
      List.Disjoint records (lists other) := by
    intro other hne record hrecord hmem
    by_cases hold : record ∈ lists index
    · exact hfamily.apart hne.symm hold hmem
    · exact hfresh record hrecord hold other hmem
  constructor
  · intro other
    by_cases hother : other = index
    · subst hother
      rwa [Function.update_self]
    · rw [Function.update_of_ne hother]
      apply (hfamily.linked other).congr
      · intro slot hslot
        apply hnext slot (hfamily.slots_apart hstarts hapart hother hslot)
        rintro record hrecord rfl
        rcases List.mem_cons.mp hslot with hequal | hmem
        · exact hapart other record hequal
        · obtain ⟨later, hlater, hequal⟩ := List.mem_map.mp hmem
          rw [layout.slot_injective hequal] at hlater
          exact hdisjoint other hother hrecord hlater
      · intro record hrecord
        apply hprevious record
        · intro hmem
          exact hfamily.apart hother hrecord hmem
        · intro hmem
          exact hdisjoint other hother hmem hrecord
  · intro first second hne
    by_cases hfirst : first = index
    · subst hfirst
      rw [Function.update_self, Function.update_of_ne hne.symm]
      exact hdisjoint second hne.symm
    · rw [Function.update_of_ne hfirst]
      by_cases hsecond : second = index
      · subst hsecond
        rw [Function.update_self]
        intro record hrecord hmem
        exact hdisjoint first hfirst hmem hrecord
      · rw [Function.update_of_ne hsecond]
        exact hfamily.apart hne

variable [DecidableEq α] [DecidableEq σ]

theorem Family.link
    (hfamily : Family layout starts exit next previous lists)
    (hstarts : Function.Injective starts)
    (hapart : ∀ index record, layout.slot record ≠ starts index)
    {index : ι} (hlist : lists index = before ++ behind)
    {record : α} (hrecord : ∀ other, record ∉ lists other) :
    Family layout starts exit
      (Function.update
        (Function.update next (layout.slot record)
          (some (entry layout behind exit)))
        (endSlot layout (starts index) before)
        (some (layout.pointer record)))
      (Function.update
        (setPrevious previous (layout.slot record) behind.head?)
        record (some (endSlot layout (starts index) before)))
      (Function.update lists index (before ++ record :: behind)) := by
  have hlinked := hfamily.linked index
  rw [hlist] at hlinked
  have hnot : record ∉ before ++ behind := hlist ▸ hrecord index
  apply hfamily.update hstarts hapart (hlinked.link hnot (hapart index record))
  · intro other hmem hnew
    obtain rfl : other = record := by
      rw [hlist] at hnew
      simp only [List.mem_append, List.mem_cons] at hmem hnew
      tauto
    exact hrecord
  · intro slot hslot hnew
    rw [Function.update_of_ne, Function.update_of_ne]
    · exact hnew record (by simp)
    · rintro rfl
      apply hslot
      rw [hlist, List.map_append, ← List.cons_append]
      exact List.mem_append_left _ endSlot_mem
  · intro other hold hnew
    rw [Function.update_of_ne, setPrevious_of_ne]
    · intro hhead
      apply hold
      rw [hlist]
      exact List.mem_append_right _ (List.mem_of_mem_head? hhead)
    · rintro rfl
      exact hnew (by simp)

theorem Family.unlink
    (hfamily : Family layout starts exit next previous lists)
    (hstarts : Function.Injective starts)
    (hapart : ∀ index record, layout.slot record ≠ starts index)
    {index : ι} (hlist : lists index = before ++ (replaced ++ behind)) :
    Family layout starts exit
      (Function.update next (endSlot layout (starts index) before)
        (some (entry layout behind exit)))
      (setPrevious previous (endSlot layout (starts index) before)
        behind.head?)
      (Function.update lists index (before ++ behind)) := by
  have hlinked := hfamily.linked index
  rw [hlist] at hlinked
  apply hfamily.update hstarts hapart hlinked.unlink
  · intro other hmem hold
    rw [hlist] at hold
    simp only [List.mem_append] at hmem hold
    tauto
  · intro slot hslot _
    rw [Function.update_of_ne]
    rintro rfl
    apply hslot
    rw [hlist, List.map_append, ← List.cons_append]
    exact List.mem_append_left _ endSlot_mem
  · intro other hold _
    apply setPrevious_of_ne
    intro hhead
    apply hold
    rw [hlist]
    simp [List.mem_of_mem_head? hhead]

end Families

/-! ## Following a chain -/

/-- The loop over a chain: it stops at a pointer that is no record, and the
records it visits are collected in order. -/
def traverse {ε : Type w} (endless : ε) (record? : β → Option α)
    (follow : α → Except ε β) : ℕ → β → Except ε (List α)
  | 0, pointer =>
      match record? pointer with
      | none => .ok []
      | some _ => .error endless
  | fuel + 1, pointer =>
      match record? pointer with
      | none => .ok []
      | some record => do
          let pointer ← follow record
          let rest ← traverse endless record? follow fuel pointer
          .ok (record :: rest)

theorem traverse_eq
    {ε : Type w} (endless : ε) {record? : β → Option α}
    {follow : α → Except ε β}
    (hrecord : ∀ record, record? (layout.pointer record) = some record)
    (hexit : record? exit = none)
    (hfollow : ∀ before record behind, records = before ++ record :: behind →
      follow record = .ok (entry layout behind exit))
    {fuel : ℕ} (hfuel : records.length ≤ fuel) :
    traverse endless record? follow fuel (entry layout records exit) =
      .ok records := by
  induction records generalizing fuel with
  | nil => cases fuel <;> simp [traverse, hexit]
  | cons record rest ih =>
      have hpositive : fuel ≠ 0 := by
        simp only [List.length_cons] at hfuel
        omega
      obtain ⟨fuel, rfl⟩ := Nat.exists_eq_add_one_of_ne_zero hpositive
      have hrest := ih
        (fun before later behind hsplit =>
          hfollow (record :: before) later behind (by rw [hsplit]; rfl))
        (by simpa using hfuel)
      simp [traverse, hrecord, hfollow [] record rest rfl, hrest, bind, Except.bind]

/-! ## Programs seen through a view of their state -/

section Views

variable {η ν : Type u} {ε : Type w} {view : η → ν}

/-- The program succeeds, and its last state looks like the given value. -/
def Yields (view : η → ν) (result : Except ε η) (value : ν) : Prop :=
  ∃ state, result = .ok state ∧ view state = value

theorem Yields.bind
    {result : Except ε η} {value later : ν} {following : η → Except ε η}
    (hresult : Yields view result value)
    (hfollowing : ∀ state, view state = value →
      Yields view (following state) later) :
    Yields view (result >>= following) later := by
  obtain ⟨state, rfl, hstate⟩ := hresult
  exact hfollowing state hstate

end Views

end LinuxKernelCode.LinkedSlots
