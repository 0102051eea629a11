import Mathlib.Data.List.Induction
import Mathlib.Data.List.Nodup

/-!
# The list of filesystem types

`add_to_filesystem_record` allocates a record for a mount and appends it to
the list unless the list has a record of the same filesystem type.  The list
therefore holds the type names in the order of their first occurrence.  A
record that is not appended is not released either.

A record is known by a number, a new one for each allocation.
-/

namespace LinuxKernelCode.MountList

universe u v

variable {μ : Type u} {ν : Type v}

structure VfsMountList (μ : Type u) where
  record : ℕ
  mntData : μ
  deriving DecidableEq, Repr

/-- The list with the records that are allocated, and those that were released,
in order. -/
structure Records (μ : Type u) where
  linked : List (VfsMountList μ)
  live : List ℕ
  freed : List ℕ
  next : ℕ
  deriving DecidableEq, Repr

/-- `INIT_LIST_HEAD`, before any allocation. -/
def Records.empty : Records μ := ⟨[], [], [], 0⟩

def enomem : Int := -12

section Names

variable [DecidableEq ν] (typeName : μ → ν)

/-- Whether the type names are equal, as `strcmp` has it. -/
def filesystemNameCompare (mntPoint1 mntPoint2 : VfsMountList μ) : Bool :=
  if typeName mntPoint1.mntData = typeName mntPoint2.mntData then true
  else false

def vfsMountPointCompare (mnt : VfsMountList μ) :
    List (VfsMountList μ) → Bool
  | [] => false
  | tmp :: rest =>
      if filesystemNameCompare typeName tmp mnt then true
      else vfsMountPointCompare mnt rest

def addToFilesystemRecord (records : Records μ) (mnt : μ) (kmalloc : Bool) :
    Int × Records μ :=
  if kmalloc then
    let recordVfsMount : VfsMountList μ := ⟨records.next, mnt⟩
    let allocated :=
      { records with
        live := records.live ++ [records.next]
        next := records.next + 1 }
    let appended :=
      { allocated with linked := allocated.linked ++ [recordVfsMount] }
    if ¬ allocated.linked.isEmpty then
      if vfsMountPointCompare typeName recordVfsMount allocated.linked = false then
        (0, appended)
      else (0, allocated)
    else (0, appended)
  else (enomem, records)

/-- Calls one after another, each with the answer of its allocation. -/
def addAll (records : Records μ) (calls : List (μ × Bool)) : Records μ :=
  calls.foldl
    (fun records call => (addToFilesystemRecord typeName records call.1 call.2).2)
    records

def Records.names (records : Records μ) : List ν :=
  records.linked.map fun record => typeName record.mntData

/-- The type names of the mounts whose allocation succeeded. -/
def allocatedNames (calls : List (μ × Bool)) : List ν :=
  (calls.filter Prod.snd).map fun call => typeName call.1

end Names

/-- The loop over the list in `filesystem_list_init`: each record is taken out
of the list and released. -/
def deleteLoop : List (VfsMountList μ) → Records μ → Records μ
  | [], records => records
  | cur :: rest, records =>
      deleteLoop rest
        { records with
          linked := records.linked.filter fun other => other.record ≠ cur.record
          live := records.live.erase cur.record
          freed := records.freed ++ [cur.record] }

/-! ## One call -/

section Calls

variable [DecidableEq ν] {typeName : μ → ν}

theorem vfsMountPointCompare_iff
    (mnt : VfsMountList μ) (linked : List (VfsMountList μ)) :
    vfsMountPointCompare typeName mnt linked = true ↔
      typeName mnt.mntData ∈ linked.map fun record => typeName record.mntData := by
  induction linked with
  | nil => simp [vfsMountPointCompare]
  | cons tmp rest ih =>
      by_cases hname : typeName tmp.mntData = typeName mnt.mntData
      · simp [vfsMountPointCompare, filesystemNameCompare, hname]
      · have hother : typeName mnt.mntData ≠ typeName tmp.mntData := Ne.symm hname
        simp only [vfsMountPointCompare, filesystemNameCompare, hname, if_false,
          Bool.false_eq_true, List.map_cons, List.mem_cons, hother, false_or]
        exact ih

theorem addToFilesystemRecord_failed (records : Records μ) (mnt : μ) :
    addToFilesystemRecord typeName records mnt false = (enomem, records) :=
  rfl

theorem addToFilesystemRecord_new
    {records : Records μ} {mnt : μ}
    (hnew : typeName mnt ∉ records.names typeName) :
    addToFilesystemRecord typeName records mnt true =
      (0, ⟨records.linked ++ [⟨records.next, mnt⟩],
        records.live ++ [records.next], records.freed, records.next + 1⟩) := by
  have hcompare :
      vfsMountPointCompare typeName ⟨records.next, mnt⟩ records.linked = false := by
    rw [← Bool.not_eq_true, vfsMountPointCompare_iff]
    exact hnew
  simp only [addToFilesystemRecord, if_true, hcompare]
  split_ifs <;> rfl

/-- A known type leaves the list as it is, and the record allocated. -/
theorem addToFilesystemRecord_known
    {records : Records μ} {mnt : μ}
    (hknown : typeName mnt ∈ records.names typeName) :
    addToFilesystemRecord typeName records mnt true =
      (0, ⟨records.linked, records.live ++ [records.next], records.freed,
        records.next + 1⟩) := by
  have hcompare :
      vfsMountPointCompare typeName ⟨records.next, mnt⟩ records.linked = true := by
    rw [vfsMountPointCompare_iff]
    exact hknown
  have hlinked : records.linked.isEmpty = false := by
    rw [List.isEmpty_eq_false_iff]
    rintro hempty
    simp [Records.names, hempty] at hknown
  simp [addToFilesystemRecord, hcompare, hlinked]

/-! ## A sequence of calls -/

theorem addAll_concat
    (records : Records μ) (calls : List (μ × Bool)) (call : μ × Bool) :
    addAll typeName records (calls ++ [call]) =
      (addToFilesystemRecord typeName (addAll typeName records calls)
        call.1 call.2).2 := by
  simp [addAll]

theorem eraseDups_append_singleton (names : List ν) (name : ν) :
    (names ++ [name]).eraseDups =
      if name ∈ names then names.eraseDups else names.eraseDups ++ [name] := by
  rw [List.eraseDups_append]
  by_cases hmem : name ∈ names <;> simp [List.removeAll, hmem, List.eraseDups_cons]

omit [DecidableEq ν] in
@[simp] theorem allocatedNames_concat_failed
    (calls : List (μ × Bool)) (mnt : μ) :
    allocatedNames typeName (calls ++ [(mnt, false)]) =
      allocatedNames typeName calls := by
  simp [allocatedNames]

omit [DecidableEq ν] in
@[simp] theorem allocatedNames_concat
    (calls : List (μ × Bool)) (mnt : μ) :
    allocatedNames typeName (calls ++ [(mnt, true)]) =
      allocatedNames typeName calls ++ [typeName mnt] := by
  simp [allocatedNames]

/-- Induction over the calls from the back: the list holds the type names in
the order of their first occurrence. -/
theorem names_addAll (calls : List (μ × Bool)) :
    (addAll typeName Records.empty calls).names typeName =
      (allocatedNames typeName calls).eraseDups := by
  induction calls using List.reverseRecOn with
  | nil => rfl
  | append_singleton earlier call ih =>
      obtain ⟨mnt, kmalloc⟩ := call
      rw [addAll_concat]
      cases kmalloc with
      | false => rw [allocatedNames_concat_failed, addToFilesystemRecord_failed, ih]
      | true =>
          rw [allocatedNames_concat, eraseDups_append_singleton]
          by_cases hknown : typeName mnt ∈ allocatedNames typeName earlier
          · rw [if_pos hknown, addToFilesystemRecord_known, ← ih]
            · rfl
            · rwa [ih, List.mem_eraseDups]
          · rw [if_neg hknown, addToFilesystemRecord_new, ← ih]
            · simp [Records.names]
            · rwa [ih, List.mem_eraseDups]

theorem mem_names_addAll_iff (calls : List (μ × Bool)) (name : ν) :
    name ∈ (addAll typeName Records.empty calls).names typeName ↔
      name ∈ allocatedNames typeName calls := by
  rw [names_addAll, List.mem_eraseDups]

theorem names_addAll_nodup (calls : List (μ × Bool)) :
    ((addAll typeName Records.empty calls).names typeName).Nodup := by
  induction calls using List.reverseRecOn with
  | nil => exact List.nodup_nil
  | append_singleton earlier call ih =>
      obtain ⟨mnt, kmalloc⟩ := call
      rw [addAll_concat]
      cases kmalloc with
      | false => exact ih
      | true =>
          by_cases hknown :
              typeName mnt ∈ (addAll typeName Records.empty earlier).names typeName
          · rw [addToFilesystemRecord_known hknown]
            exact ih
          · rw [addToFilesystemRecord_new hknown]
            simp only [Records.names, List.map_append, List.map_cons, List.map_nil]
            exact List.Nodup.append ih (List.nodup_singleton _)
              (by simpa [Records.names] using hknown)

/-! ## Live records -/

def Records.Exact (records : Records μ) : Prop :=
  ∀ record, record ∈ records.live ↔
    record ∈ records.linked.map VfsMountList.record

/-- Nothing has been released, and the linked records are distinct ones of
those allocated. -/
structure Records.Grown (records : Records μ) : Prop where
  live : records.live = List.range records.next
  freed : records.freed = []
  linked : ∀ record ∈ records.linked.map VfsMountList.record,
    record < records.next
  distinct : (records.linked.map VfsMountList.record).Nodup

theorem Records.Grown.exact_link_iff
    {records : Records μ} (hgrown : records.Grown) (mnt : μ) :
    (⟨records.linked ++ [⟨records.next, mnt⟩], records.live ++ [records.next],
        records.freed, records.next + 1⟩ : Records μ).Exact ↔
      records.Exact := by
  have hlive : records.next ∉ records.live := by
    rw [hgrown.live]
    simp
  have hlinked : records.next ∉ records.linked.map VfsMountList.record := by
    intro hmem
    exact absurd (hgrown.linked _ hmem) (by omega)
  simp only [Records.Exact, List.map_append, List.map_cons, List.map_nil,
    List.mem_append, List.mem_singleton]
  constructor
  · intro hexact record
    by_cases hnext : record = records.next
    · subst hnext
      exact iff_of_false hlive hlinked
    · simpa [hnext] using hexact record
  · intro hexact record
    rw [hexact record]

theorem Records.Grown.add
    {records : Records μ} (hgrown : records.Grown) (mnt : μ) (kmalloc : Bool) :
    (addToFilesystemRecord typeName records mnt kmalloc).2.Grown := by
  cases kmalloc with
  | false => exact hgrown
  | true =>
      have hlive : records.live ++ [records.next] =
          List.range (records.next + 1) := by
        rw [hgrown.live, List.range_succ]
      by_cases hknown : typeName mnt ∈ records.names typeName
      · rw [addToFilesystemRecord_known hknown]
        refine ⟨hlive, hgrown.freed, ?_, hgrown.distinct⟩
        intro record hrecord
        have := hgrown.linked record hrecord
        exact Nat.lt_succ_of_lt this
      · rw [addToFilesystemRecord_new hknown]
        have hfresh : records.next ∉
            records.linked.map VfsMountList.record := by
          intro hmem
          exact absurd (hgrown.linked _ hmem) (by omega)
        refine ⟨hlive, hgrown.freed, ?_, ?_⟩
        · intro record hrecord
          simp only [List.map_append, List.map_cons, List.map_nil, List.mem_append,
            List.mem_singleton] at hrecord
          rcases hrecord with hold | rfl
          · exact Nat.lt_succ_of_lt (hgrown.linked record hold)
          · exact Nat.lt_succ_self _
        · simp only [List.map_append, List.map_cons, List.map_nil]
          exact List.Nodup.append hgrown.distinct (List.nodup_singleton _)
            (by simpa using hfresh)

theorem grown_addAll (calls : List (μ × Bool)) :
    (addAll typeName Records.empty calls).Grown := by
  induction calls using List.reverseRecOn with
  | nil => exact ⟨rfl, rfl, by simp [addAll, Records.empty], List.nodup_nil⟩
  | append_singleton earlier call ih =>
      rw [addAll_concat]
      exact ih.add call.1 call.2

/-- The live records are the linked ones exactly when no two mounts with a
record have the same type. -/
theorem exact_addAll_iff (calls : List (μ × Bool)) :
    (addAll typeName Records.empty calls).Exact ↔
      (allocatedNames typeName calls).Nodup := by
  induction calls using List.reverseRecOn with
  | nil => exact iff_of_true (fun _ => Iff.rfl) List.nodup_nil
  | append_singleton earlier call ih =>
      obtain ⟨mnt, kmalloc⟩ := call
      have hgrown : (addAll typeName Records.empty earlier).Grown :=
        grown_addAll earlier
      rw [addAll_concat]
      cases kmalloc with
      | false => rw [allocatedNames_concat_failed, addToFilesystemRecord_failed, ih]
      | true =>
          rw [allocatedNames_concat]
          by_cases hknown :
              typeName mnt ∈ (addAll typeName Records.empty earlier).names typeName
          · rw [addToFilesystemRecord_known hknown]
            rw [mem_names_addAll_iff] at hknown
            refine iff_of_false ?_ ?_
            · intro hexact
              have hlinked := (hexact
                (addAll typeName Records.empty earlier).next).mp (by simp)
              exact absurd (hgrown.linked _ hlinked) (by omega)
            · intro hnodup
              exact (List.disjoint_of_nodup_append hnodup hknown) (by simp)
          · rw [addToFilesystemRecord_new hknown]
            rw [mem_names_addAll_iff] at hknown
            rw [hgrown.exact_link_iff, ih]
            constructor
            · intro hnodup
              exact List.Nodup.append hnodup (List.nodup_singleton _)
                (by simpa using hknown)
            · intro hnodup
              exact List.Nodup.of_append_left hnodup

/-! ## The deleting loop -/

/-- Induction over what is left of the list: it is emptied, and its records
are released in order. -/
theorem deleteLoop_eq
    (left : List (VfsMountList μ)) (records : Records μ) :
    deleteLoop left records =
      { records with
        linked := records.linked.filter fun other =>
          other.record ∉ left.map VfsMountList.record
        live := records.live.diff (left.map VfsMountList.record)
        freed := records.freed ++ left.map VfsMountList.record } := by
  induction left generalizing records with
  | nil => simp [deleteLoop]
  | cons cur rest ih =>
      rw [deleteLoop, ih]
      simp only [List.map_cons, List.diff_cons, List.append_assoc,
        List.singleton_append, List.filter_filter, List.mem_cons, not_or]
      congr 1
      apply List.filter_congr
      intro other _
      simp [Bool.and_comm]

theorem Records.Grown.deleteLoop
    {records : Records μ} (hgrown : records.Grown) :
    ((deleteLoop records.linked records).live = [] ∧
        ∀ record < records.next,
          (deleteLoop records.linked records).freed.count record = 1) ↔
      records.Exact := by
  rw [deleteLoop_eq]
  simp only [hgrown.freed, List.nil_append]
  have hlive : ∀ record, record ∈ records.live ↔ record < records.next := by
    intro record
    rw [hgrown.live, List.mem_range]
  constructor
  · rintro ⟨_, hcount⟩ record
    rw [hlive record]
    constructor
    · intro hrecord
      rw [← List.count_pos_iff, hcount record hrecord]
      exact Nat.one_pos
    · exact hgrown.linked record
  · intro hexact
    constructor
    · rw [List.eq_nil_iff_forall_not_mem]
      intro record hmem
      have hnodup : records.live.Nodup := by
        rw [hgrown.live]
        exact List.nodup_range
      rw [hnodup.mem_sdiff_iff] at hmem
      exact hmem.2 ((hexact record).mp hmem.1)
    · intro record hrecord
      exact List.count_eq_one_of_mem hgrown.distinct
        ((hexact record).mp ((hlive record).mpr hrecord))


end Calls

end LinuxKernelCode.MountList
