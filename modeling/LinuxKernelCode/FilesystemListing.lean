import LinuxKernelCode.MountWalk

/-!
# The listing of the filesystem types

The list that the walk leaves behind holds the filesystem types in the order
in which the pre-order of the mount tree meets them.  The module then deletes
the list.  The records that were allocated for a type already listed are not
in it: they stay allocated, and the module ends without them exactly when no
two mounts with a record share a type.
-/

namespace LinuxKernelCode.MountList

open SiblingTree

universe u v

variable {μ : Type u} {ν : Type v} [DecidableEq μ] [DecidableEq ν]

omit [DecidableEq μ] [DecidableEq ν] in
theorem Environment.allocatedNames_of_succeeding
    {environment : Environment μ ν}
    (hkmalloc : ∀ call, environment.kmalloc call = true) (added : List μ) :
    allocatedNames environment.typeName (environment.calls added) =
      added.map environment.typeName := by
  induction added using List.reverseRecOn with
  | nil => rfl
  | append_singleton earlier mount ih =>
      rw [environment.calls_concat, hkmalloc, allocatedNames_concat, ih]
      simp

/-- The list holds the type names of the mounts with a record in the order of
their first occurrence; a failing call leaves everything as it is; and the
walk lists the types of the whole tree in pre-order. -/
theorem filesystemNames_eraseDups (environment : Environment μ ν) :
    (∀ calls : List (μ × Bool),
      ((addAll environment.typeName Records.empty calls).names
        environment.typeName).Nodup ∧
      (addAll environment.typeName Records.empty calls).names
          environment.typeName =
        (allocatedNames environment.typeName calls).eraseDups) ∧
    (∀ (records : Records μ) (mnt : μ),
      addToFilesystemRecord environment.typeName records mnt false =
        (enomem, records)) ∧
    ∀ (tree : TreeShape μ) (current : μ) (fuel : ℕ) (counts : μ → Int),
      environment.links.Represents tree → current ∈ tree.preorder →
      tree.preorder.length < fuel →
      (∀ call, environment.kmalloc call = true) →
      ∃ last, iterateMountPoint environment fuel current counts Records.empty =
          .ok last ∧
        last.records.names environment.typeName =
          (tree.preorder.map environment.typeName).eraseDups := by
  refine ⟨?_, addToFilesystemRecord_failed, ?_⟩
  · intro calls
    exact ⟨names_addAll_nodup calls, names_addAll calls⟩
  · intro tree current fuel counts htree hcurrent hfuel hkmalloc
    obtain ⟨last, hlast, _, _, hrecords⟩ :=
      iterateMountPoint_eq htree hcurrent hfuel counts Records.empty
    refine ⟨last, hlast, ?_⟩
    rw [hrecords, names_addAll,
      Environment.allocatedNames_of_succeeding hkmalloc]

theorem filesystemNames_eraseDups_fourMounts :
    ∃ last, iterateMountPoint fourEnvironment 5 3 (fun _ => 1) Records.empty =
        .ok last ∧
      last.records.names fourEnvironment.typeName = [0, 1, 2] :=
  (filesystemNames_eraseDups fourEnvironment).2.2 fourMounts 3 5 (fun _ => 1)
    fourEnvironment_represents (by decide) (by decide) (fun _ => rfl)

/-! ## Live records along the walk -/

section Ownership

variable {environment : Environment μ ν} {tree : TreeShape μ} {current : μ}
  {fuel : ℕ} {counts : μ → Int}

omit [DecidableEq μ] [DecidableEq ν] in
theorem Environment.allocatedNames_prefix
    (environment : Environment μ ν) (added more : List μ) :
    allocatedNames environment.typeName (environment.calls added) <+:
      allocatedNames environment.typeName (environment.calls (added ++ more)) := by
  induction more using List.reverseRecOn with
  | nil => simp
  | append_singleton earlier mount ih =>
      rw [← List.append_assoc, environment.calls_concat]
      cases environment.kmalloc (added ++ earlier).length with
      | false => rwa [allocatedNames_concat_failed]
      | true =>
          rw [allocatedNames_concat]
          exact ih.trans (List.prefix_append _ _)

/-- Throughout the walk the live records are the linked ones, and after the
deleting loop every record has been released once and none is live. -/
structure RecordsFollow
    (environment : Environment μ ν) (fuel : ℕ) (root current : μ)
    (counts : μ → Int) : Prop where
  throughout : ∀ walk, Walk.Heads environment fuel
      (Walk.start root counts Records.empty) walk →
    walk.records.Exact
  atEnd : ∀ last,
    iterateMountPoint environment fuel current counts Records.empty = .ok last →
    last.records.Exact
  released : ∃ last,
    filesystemListInit environment fuel current counts = .ok last ∧
      last.records.live = [] ∧
      ∀ record < last.records.next, last.records.freed.count record = 1

/-- No record outlives the listing exactly when the mounts whose allocation
succeeds have pairwise distinct types. -/
theorem recordsFollow_iff
    (htree : environment.links.Represents tree)
    (hcurrent : current ∈ tree.preorder) (hfuel : tree.preorder.length < fuel) :
    RecordsFollow environment fuel tree.root current counts ↔
      (allocatedNames environment.typeName
        (environment.calls tree.preorder)).Nodup := by
  obtain ⟨last, hlast, _, _, hrecords⟩ :=
    iterateMountPoint_eq htree hcurrent hfuel counts Records.empty
  have hexact : last.records.Exact ↔
      (allocatedNames environment.typeName
        (environment.calls tree.preorder)).Nodup := by
    rw [hrecords]
    exact exact_addAll_iff _
  constructor
  · intro hfollow
    exact hexact.mp (hfollow.atEnd last hlast)
  · intro hnodup
    refine ⟨?_, ?_, ?_⟩
    · intro walk hheads
      obtain ⟨rest, _, hadded⟩ := Walk.Heads.added htree hfuel hheads
      rw [(hheads.holds (Walk.holds_start environment tree.root counts
        Records.empty)).records, exact_addAll_iff]
      rw [← hadded] at hnodup
      exact List.Nodup.sublist
        (environment.allocatedNames_prefix walk.added _).sublist hnodup
    · intro other hother
      obtain rfl : last = other := by
        rw [hlast] at hother
        exact Except.ok.inj hother
      exact hexact.mpr hnodup
    · have hgrown : last.records.Grown := by
        rw [hrecords]
        exact grown_addAll _
      refine ⟨{ last with
        records := deleteLoop last.records.linked last.records }, ?_, ?_⟩
      · simp only [filesystemListInit, hlast, bind, Except.bind]
      · have hnext : (deleteLoop last.records.linked last.records).next =
            last.records.next := by
          rw [deleteLoop_eq]
        simp only [hnext]
        exact hgrown.deleteLoop.mpr (hexact.mpr hnodup)

end Ownership

/-- The four mounts, with a failing allocation for the last one. -/
def failingEnvironment : Environment ℕ ℕ :=
  { fourEnvironment with kmalloc := fun call => call ≠ 2 }

theorem recordsFollow_iff_failingEnvironment :
    RecordsFollow failingEnvironment 5 0 2 (fun _ => 0) ↔
      ([0, 1, 2] : List ℕ).Nodup := by
  have htree : failingEnvironment.links.Represents fourMounts :=
    fourEnvironment_represents
  exact recordsFollow_iff htree (by decide) (by decide)

/-- Two mounts of one type: the second record stays allocated. -/
theorem fourMounts_leak_record :
    fourEnvironment.links.Represents fourMounts ∧
      ¬ RecordsFollow fourEnvironment 5 0 0 (fun _ => 0) := by
  refine ⟨fourEnvironment_represents, ?_⟩
  intro hfollow
  obtain ⟨last, hlast, hlive, _⟩ := hfollow.released
  have hinit : (filesystemListInit fourEnvironment 5 0 fun _ => 0).map
      (fun walk => walk.records.live) = .ok [2] := by
    decide
  rw [hlast] at hinit
  simp [Except.map, hlive] at hinit

end LinuxKernelCode.MountList
