import LinuxKernelCode.SiblingTree
import LinuxKernelCode.FilesystemRecords

/-!
# The walk over the mount tree

`iterate_mount_point` visits every mount of the tree without a stack.  From a
mount with children it goes to the first child; from a mount without children
it climbs along the parents until a mount has a further sibling, and stops at
the root.  Each round holds a reference on the mount it stands at.

The links of a mount are those of `struct mount`: the head of its list
`mnt_mounts`, its own link `mnt_child` in the list of its parent, and
`mnt_parent`.  A loop that does not end is a fault, and so is taking the head
of a list for the link of a mount.
-/

namespace LinuxKernelCode.MountList

open SiblingTree

universe u v

variable {μ : Type u} {ν : Type v}

inductive Fault where
  | endless
  | headTakenForMount
  deriving DecidableEq, Repr

/-- `list_entry(next, struct mount, mnt_child)`. -/
def childMountedFilesystem : Slot μ → Except Fault μ
  | .sibling mount => .ok mount
  | .children _ => .error .headTakenForMount

section Climbing

variable [DecidableEq μ]

/-- The empty loop of `get_root_mount_point`. -/
def getRootMountPoint (links : Links μ) : ℕ → μ → Except Fault μ
  | 0, _ => .error .endless
  | fuel + 1, mountList =>
      if mountList ≠ links.parent mountList then
        getRootMountPoint links fuel (links.parent mountList)
      else .ok mountList

/-- The inner loop of `iterate_mount_point`, with its two variables. -/
def climb (links : Links μ) : ℕ → μ → Slot μ → Except Fault (μ × Slot μ)
  | 0, _, _ => .error .endless
  | fuel + 1, mntNext, next =>
      if mntNext ≠ links.parent mntNext then
        if links.next (.sibling mntNext) ≠ .children (links.parent mntNext) then
          .ok (mntNext, links.next (.sibling mntNext))
        else
          climb links fuel (links.parent mntNext) (links.next (.sibling mntNext))
      else .ok (mntNext, next)

/-- Where a mount leads: the mount to go to, or none at the end. -/
def nextMount (links : Links μ) (fuel : ℕ) (mountList : μ) :
    Except Fault (Option μ) := do
  let next := links.next (.children mountList)
  if next ≠ .children mountList then
    let mntNext ← childMountedFilesystem next
    .ok (some mntNext)
  else
    let (mntNext, next) ← climb links fuel mountList next
    if mntNext = links.parent mntNext then .ok none
    else
      let mntNext ← childMountedFilesystem next
      .ok (some mntNext)

end Climbing

/-- The variables of `iterate_mount_point`: the mount it stands at, the
reference counts of all mounts, the list, and the mounts that were added. -/
structure Walk (μ : Type u) where
  mountList : μ
  counts : μ → Int
  records : Records μ
  added : List μ

section Walking

variable [DecidableEq μ] [DecidableEq ν]

def mntget (counts : μ → Int) (mount : μ) : μ → Int :=
  Function.update counts mount (counts mount + 1)

def mntput (counts : μ → Int) (mount : μ) : μ → Int :=
  Function.update counts mount (counts mount - 1)

/-- What the walk reads: the links, the type names, and the answers of the
allocations in their order. -/
structure Environment (μ : Type u) (ν : Type v) where
  links : Links μ
  typeName : μ → ν
  kmalloc : ℕ → Bool

def Walk.add (environment : Environment μ ν) (walk : Walk μ) : Walk μ :=
  { walk with
    records := (addToFilesystemRecord environment.typeName walk.records
      walk.mountList (environment.kmalloc walk.added.length)).2
    added := walk.added ++ [walk.mountList] }

inductive Round (μ : Type u) where
  | continues (walk : Walk μ)
  | finished (walk : Walk μ)

def Walk.round (environment : Environment μ ν) (fuel : ℕ) (walk : Walk μ) :
    Except Fault (Round μ) := do
  let walk := walk.add environment
  match ← nextMount environment.links fuel walk.mountList with
  | none =>
      .ok (.finished { walk with counts := mntput walk.counts walk.mountList })
  | some mntNext =>
      .ok (.continues
        { walk with
          mountList := mntNext
          counts := mntput (mntget walk.counts mntNext) walk.mountList })

/-- The outer loop; the first bound is for the climb of each round, the second
for the rounds. -/
def Walk.run (environment : Environment μ ν) (climbing : ℕ) :
    ℕ → Walk μ → Except Fault (Walk μ)
  | 0, _ => .error .endless
  | fuel + 1, walk => do
      match ← walk.round environment climbing with
      | .finished walk => .ok walk
      | .continues walk => Walk.run environment climbing fuel walk

def Walk.start (root : μ) (counts : μ → Int) (records : Records μ) : Walk μ :=
  ⟨root, mntget counts root, records, []⟩

/-- The walk from the mount of the current process, over a list that may have
records already. -/
def iterateMountPoint
    (environment : Environment μ ν) (fuel : ℕ) (current : μ)
    (counts : μ → Int) (records : Records μ) : Except Fault (Walk μ) := do
  let root ← getRootMountPoint environment.links fuel current
  Walk.run environment fuel fuel (Walk.start root counts records)

/-- The states at the head of the rounds of a walk. -/
inductive Walk.Heads
    (environment : Environment μ ν) (fuel : ℕ) (start : Walk μ) :
    Walk μ → Prop
  | start : Walk.Heads environment fuel start start
  | round {walk later : Walk μ} (hwalk : Walk.Heads environment fuel start walk)
      (hround : walk.round environment fuel = .ok (.continues later)) :
      Walk.Heads environment fuel start later

/-- The module's initialisation: the walk, and then the deleting loop. -/
def filesystemListInit
    (environment : Environment μ ν) (fuel : ℕ) (current : μ)
    (counts : μ → Int) : Except Fault (Walk μ) := do
  let walk ← iterateMountPoint environment fuel current counts Records.empty
  .ok { walk with records := deleteLoop walk.records.linked walk.records }

end Walking

/-! ## Following the links -/

section Following

variable [DecidableEq μ] {links : Links μ}

theorem getRootMountPoint_eq
    {root node : μ} {height fuel : ℕ} (hrises : links.Rises root node height)
    (hfuel : height < fuel) :
    getRootMountPoint links fuel node = .ok root := by
  induction hrises generalizing fuel with
  | root hroot =>
      obtain ⟨fuel, rfl⟩ := Nat.exists_eq_add_one_of_ne_zero (by omega : fuel ≠ 0)
      simp [getRootMountPoint, hroot]
  | up hnode _ ih =>
      obtain ⟨fuel, rfl⟩ := Nat.exists_eq_add_one_of_ne_zero (by omega : fuel ≠ 0)
      simp [getRootMountPoint, Ne.symm hnode, ih (by omega : _ < fuel)]

theorem climb_eq
    {node : μ} {found : Option μ} {steps fuel : ℕ}
    (hclimbs : links.Climbs node found steps) (hfuel : steps < fuel)
    (next : Slot μ) :
    ∃ last slot, climb links fuel node next = .ok (last, slot) ∧
      (found = none ∧ last = links.parent last ∨
        ∃ later, found = some later ∧ last ≠ links.parent last ∧
          slot = .sibling later) := by
  induction hclimbs generalizing fuel next with
  | @root node hroot =>
      obtain ⟨fuel, rfl⟩ := Nat.exists_eq_add_one_of_ne_zero (by omega : fuel ≠ 0)
      exact ⟨node, next, by simp [climb, hroot], Or.inl ⟨rfl, hroot.symm⟩⟩
  | @sibling node later hnode hnext =>
      obtain ⟨fuel, rfl⟩ := Nat.exists_eq_add_one_of_ne_zero (by omega : fuel ≠ 0)
      exact ⟨node, .sibling later, by simp [climb, Ne.symm hnode, hnext],
        Or.inr ⟨later, rfl, Ne.symm hnode, rfl⟩⟩
  | @up node found steps hnode hnext _ ih =>
      obtain ⟨fuel, rfl⟩ := Nat.exists_eq_add_one_of_ne_zero (by omega : fuel ≠ 0)
      obtain ⟨last, slot, hclimb, hlast⟩ :=
        ih (by omega : steps < fuel) (links.next (.sibling node))
      refine ⟨last, slot, ?_, hlast⟩
      rw [← hclimb]
      simp [climb, Ne.symm hnode, hnext]

theorem nextMount_eq
    {bound fuel : ℕ} {node : μ} {found : Option μ}
    (hfollows : links.Follows bound node found) (hfuel : bound < fuel) :
    nextMount links fuel node = .ok found := by
  cases hfollows with
  | child hnext =>
      simp [nextMount, hnext, childMountedFilesystem, bind, Except.bind]
  | climb hnext hclimbs hsteps =>
      obtain ⟨last, slot, hclimb, hlast⟩ :=
        climb_eq hclimbs (by omega : _ < fuel) (.children node)
      simp only [nextMount, hnext, ne_eq, not_true_eq_false, if_false, hclimb,
        bind, Except.bind]
      rcases hlast with ⟨rfl, hroot⟩ | ⟨later, rfl, hother, rfl⟩
      · rw [if_pos hroot]
      · rw [if_neg hother]
        rfl

end Following

/-! ## The references -/

section References

variable [DecidableEq μ]

theorem mntget_apply (counts : μ → Int) (mount other : μ) :
    mntget counts mount other = counts other + if other = mount then 1 else 0 := by
  by_cases hother : other = mount
  · subst hother
    simp [mntget]
  · simp [mntget, hother]

theorem mntput_apply (counts : μ → Int) (mount other : μ) :
    mntput counts mount other = counts other - if other = mount then 1 else 0 := by
  by_cases hother : other = mount
  · subst hother
    simp [mntput]
  · simp [mntput, hother]

theorem mntput_mntget_mntget (counts : μ → Int) (mount mntNext : μ) :
    mntput (mntget (mntget counts mount) mntNext) mount =
      mntget counts mntNext := by
  funext other
  simp only [mntput_apply, mntget_apply]
  omega

theorem mntput_mntget (counts : μ → Int) (mount : μ) :
    mntput (mntget counts mount) mount = counts := by
  funext other
  simp only [mntput_apply, mntget_apply]
  omega

end References

/-! ## Rounds -/

section Rounds

variable [DecidableEq μ] [DecidableEq ν] {environment : Environment μ ν}

def Environment.calls (environment : Environment μ ν) (added : List μ) :
    List (μ × Bool) :=
  added.zipIdx.map fun call => (call.1, environment.kmalloc call.2)

omit [DecidableEq μ] [DecidableEq ν] in
theorem Environment.calls_concat
    (environment : Environment μ ν) (added : List μ) (mount : μ) :
    environment.calls (added ++ [mount]) =
      environment.calls added ++ [(mount, environment.kmalloc added.length)] := by
  simp [Environment.calls, List.zipIdx_append]

/-- One reference is held, on the mount the walk stands at, and the list is
what the calls so far have made of it. -/
structure Walk.Holds
    (environment : Environment μ ν) (counts : μ → Int) (records : Records μ)
    (walk : Walk μ) : Prop where
  counts : walk.counts = mntget counts walk.mountList
  records : walk.records =
    addAll environment.typeName records (environment.calls walk.added)

theorem Walk.holds_start
    (environment : Environment μ ν) (root : μ) (counts : μ → Int)
    (records : Records μ) :
    (Walk.start root counts records).Holds environment counts records :=
  ⟨rfl, rfl⟩

theorem Walk.records_add
    {counts : μ → Int} {records : Records μ} {walk : Walk μ}
    (hholds : walk.Holds environment counts records) :
    (walk.add environment).records =
      addAll environment.typeName records
        (environment.calls (walk.add environment).added) := by
  simp only [Walk.add]
  rw [environment.calls_concat, addAll_concat, ← hholds.records]

theorem Walk.round_some
    {fuel : ℕ} {walk : Walk μ} {mntNext : μ}
    (hnext : nextMount environment.links fuel walk.mountList =
      .ok (some mntNext)) :
    walk.round environment fuel =
      .ok (.continues
        { walk.add environment with
          mountList := mntNext
          counts := mntput (mntget walk.counts mntNext) walk.mountList }) := by
  have hadd : (walk.add environment).mountList = walk.mountList := rfl
  simp only [Walk.round, hadd, hnext, bind, Except.bind]
  rfl

theorem Walk.round_none
    {fuel : ℕ} {walk : Walk μ}
    (hnext : nextMount environment.links fuel walk.mountList = .ok none) :
    walk.round environment fuel =
      .ok (.finished
        { walk.add environment with
          counts := mntput walk.counts walk.mountList }) := by
  have hadd : (walk.add environment).mountList = walk.mountList := rfl
  simp only [Walk.round, hadd, hnext, bind, Except.bind]
  rfl

theorem Walk.Holds.continues
    {counts : μ → Int} {records : Records μ} {walk : Walk μ}
    (hholds : walk.Holds environment counts records) (mntNext : μ) :
    ({ walk.add environment with
        mountList := mntNext
        counts := mntput (mntget walk.counts mntNext) walk.mountList } :
      Walk μ).Holds environment counts records where
  counts := by
    simp only [hholds.counts]
    exact mntput_mntget_mntget counts walk.mountList mntNext
  records := Walk.records_add hholds

theorem Walk.Holds.round
    {counts : μ → Int} {records : Records μ} {walk later : Walk μ}
    (hholds : walk.Holds environment counts records) {fuel : ℕ}
    (hround : walk.round environment fuel = .ok (.continues later)) :
    later.Holds environment counts records := by
  cases hnext : nextMount environment.links fuel walk.mountList with
  | error fault =>
      have hadd : (walk.add environment).mountList = walk.mountList := rfl
      simp [Walk.round, hadd, hnext, bind, Except.bind] at hround
  | ok found =>
      cases found with
      | none =>
          rw [Walk.round_none hnext] at hround
          simp at hround
      | some mntNext =>
          rw [Walk.round_some hnext] at hround
          simp only [Except.ok.injEq, Round.continues.injEq] at hround
          rw [← hround]
          exact hholds.continues mntNext

theorem Walk.Heads.holds
    {counts : μ → Int} {records : Records μ} {fuel : ℕ} {start walk : Walk μ}
    (hheads : Walk.Heads environment fuel start walk)
    (hstart : start.Holds environment counts records) :
    walk.Holds environment counts records := by
  induction hheads with
  | start => exact hstart
  | round _ hround ih => exact ih.round hround

/-- Induction over the mounts ahead: the walk adds them in order, gives its
reference back, and ends. -/
theorem Walk.Holds.run
    {counts : μ → Int} {records : Records μ} {walk : Walk μ}
    (hholds : walk.Holds environment counts records) {rest : List μ}
    {bound climbing fuel : ℕ}
    (hthreads : environment.links.Threads bound (walk.mountList :: rest) none)
    (hclimbing : bound < climbing) (hfuel : rest.length < fuel) :
    ∃ last, walk.run environment climbing fuel = .ok last ∧
      last.added = walk.added ++ walk.mountList :: rest ∧
      last.counts = counts ∧
      last.records =
        addAll environment.typeName records (environment.calls last.added) := by
  induction rest generalizing walk fuel with
  | nil =>
      obtain ⟨fuel, rfl⟩ := Nat.exists_eq_add_one_of_ne_zero (by omega : fuel ≠ 0)
      have hround := Walk.round_none (nextMount_eq hthreads.1 hclimbing)
      refine ⟨{ walk.add environment with
        counts := mntput walk.counts walk.mountList }, ?_, rfl, ?_, ?_⟩
      · simp only [Walk.run, hround, bind, Except.bind]
      · simp only [hholds.counts]
        exact mntput_mntget counts walk.mountList
      · exact Walk.records_add hholds
  | cons mntNext rest ih =>
      obtain ⟨fuel, rfl⟩ := Nat.exists_eq_add_one_of_ne_zero (by omega : fuel ≠ 0)
      have hround := Walk.round_some (nextMount_eq hthreads.1 hclimbing)
      have hlater : rest.length < fuel := by
        simp only [List.length_cons] at hfuel
        omega
      obtain ⟨last, hrun, hadded, hcounts, hrecords⟩ :=
        ih (hholds.continues mntNext) hthreads.2 hlater
      refine ⟨last, ?_, ?_, hcounts, hrecords⟩
      · simp only [Walk.run, hround, bind, Except.bind]
        exact hrun
      · rw [hadded]
        simp [Walk.add]

end Rounds

/-! ## The whole walk -/

section Whole

variable [DecidableEq μ] [DecidableEq ν] {environment : Environment μ ν}
  {tree : TreeShape μ} {current : μ} {fuel : ℕ}

omit [DecidableEq ν] in
theorem getRootMountPoint_root
    (htree : environment.links.Represents tree)
    (hcurrent : current ∈ tree.preorder) (hfuel : tree.preorder.length < fuel) :
    getRootMountPoint environment.links fuel current = .ok tree.root := by
  obtain ⟨height, hheight, hrises⟩ := htree.rises hcurrent
  exact getRootMountPoint_eq hrises (by omega)

theorem iterateMountPoint_eq
    (htree : environment.links.Represents tree)
    (hcurrent : current ∈ tree.preorder) (hfuel : tree.preorder.length < fuel)
    (counts : μ → Int) (records : Records μ) :
    ∃ last, iterateMountPoint environment fuel current counts records =
        .ok last ∧
      last.added = tree.preorder ∧ last.counts = counts ∧
      last.records = addAll environment.typeName records
        (environment.calls tree.preorder) := by
  have hlength : tree.children.preorder.length < fuel := by
    simp only [TreeShape.preorder, List.length_cons] at hfuel
    omega
  obtain ⟨last, hrun, hadded, hcounts, hrecords⟩ :=
    (Walk.holds_start environment tree.root counts records).run
      htree.threads hfuel hlength
  refine ⟨last, ?_, hadded, hcounts, ?_⟩
  · simp only [iterateMountPoint,
      getRootMountPoint_root htree hcurrent hfuel, bind, Except.bind]
    exact hrun
  · rw [hrecords, hadded]
    rfl

/-- The walk ends, from any mount of the tree, and calls
`add_to_filesystem_record` for the mounts in pre-order; the records are what
these calls make of those before. -/
theorem iterateMountPoint_preorder
    (htree : environment.links.Represents tree)
    (hcurrent : current ∈ tree.preorder) (hfuel : tree.preorder.length < fuel)
    (counts : μ → Int) (records : Records μ) :
    getRootMountPoint environment.links fuel current = .ok tree.root ∧
      ∃ last, iterateMountPoint environment fuel current counts records =
          .ok last ∧
        last.added = tree.preorder ∧ last.added.Nodup ∧
        last.records = addAll environment.typeName records
          (environment.calls tree.preorder) := by
  obtain ⟨last, hlast, hadded, _, hrecords⟩ :=
    iterateMountPoint_eq htree hcurrent hfuel counts records
  refine ⟨getRootMountPoint_root htree hcurrent hfuel, last, hlast, hadded, ?_,
    hrecords⟩
  rw [hadded]
  exact htree.distinct

/-- At the head of a round, the mounts added and the mount the walk stands at
are a piece of the pre-order from its start on. -/
theorem Walk.Heads.added
    (htree : environment.links.Represents tree)
    (hfuel : tree.preorder.length < fuel) {counts : μ → Int}
    {records : Records μ} {walk : Walk μ}
    (hheads : Walk.Heads environment fuel
      (Walk.start tree.root counts records) walk) :
    ∃ rest,
      environment.links.Threads tree.preorder.length (walk.mountList :: rest)
        none ∧
      walk.added ++ walk.mountList :: rest = tree.preorder := by
  induction hheads with
  | start => exact ⟨tree.children.preorder, htree.threads, rfl⟩
  | @round walk later _ hround ih =>
      obtain ⟨rest, hthreads, hadded⟩ := ih
      have hnext := nextMount_eq hthreads.1 hfuel
      cases rest with
      | nil =>
          rw [Walk.round_none hnext] at hround
          simp at hround
      | cons mntNext rest =>
          rw [Walk.round_some hnext] at hround
          simp only [Except.ok.injEq, Round.continues.injEq] at hround
          refine ⟨rest, ?_, ?_⟩
          · rw [← hround]
            exact hthreads.2
          · rw [← hround, ← hadded]
            simp [Walk.add]

/-- At the head of every round exactly the mount the walk stands at has one
reference more than before, and at the end none has. -/
theorem iterateMountPoint_references
    (htree : environment.links.Represents tree)
    (hcurrent : current ∈ tree.preorder) (hfuel : tree.preorder.length < fuel)
    (counts : μ → Int) (records : Records μ) :
    (∀ walk, Walk.Heads environment fuel
        (Walk.start tree.root counts records) walk →
      ∀ mount, walk.counts mount =
        counts mount + if mount = walk.mountList then 1 else 0) ∧
      ∃ last, iterateMountPoint environment fuel current counts records =
          .ok last ∧
        ∀ mount, last.counts mount = counts mount := by
  constructor
  · intro walk hheads mount
    rw [(hheads.holds (Walk.holds_start environment tree.root counts records)).counts,
      mntget_apply]
  · obtain ⟨last, hlast, _, hcounts, _⟩ :=
      iterateMountPoint_eq htree hcurrent hfuel counts records
    exact ⟨last, hlast, fun mount => congrFun hcounts mount⟩

end Whole

/-- Four mounts: the last one on the first child of the root. -/
def fourMounts : TreeShape ℕ where
  root := 0
  children := .cons 1 (.cons 3 .nil .nil) (.cons 2 .nil .nil)

def fourLinks : Links ℕ where
  parent := fun mount => if mount = 3 then 1 else 0
  next
    | .children 0 => .sibling 1
    | .sibling 1 => .sibling 2
    | .sibling 2 => .children 0
    | .children 1 => .sibling 3
    | .sibling 3 => .children 1
    | slot => slot

/-- The root and the mount on its child have the same type, and every
allocation succeeds. -/
def fourEnvironment : Environment ℕ ℕ where
  links := fourLinks
  typeName := fun mount => mount % 3
  kmalloc := fun _ => true

theorem fourEnvironment_represents :
    fourEnvironment.links.Represents fourMounts where
  parent_root := rfl
  lists := by simp [fourMounts, Links.Lists, fourEnvironment, fourLinks]
  distinct := by decide

theorem iterateMountPoint_preorder_fourMounts :
    3 ∈ fourMounts.preorder ∧
      ∃ last, iterateMountPoint fourEnvironment 5 3 (fun _ => 1) Records.empty =
          .ok last ∧
        last.added = [0, 1, 3, 2] := by
  refine ⟨by decide, ?_⟩
  obtain ⟨_, last, hlast, hadded, _⟩ :=
    iterateMountPoint_preorder fourEnvironment_represents
      (by decide : 3 ∈ fourMounts.preorder)
      (by decide : fourMounts.preorder.length < 5) (fun _ => 1) Records.empty
  exact ⟨last, hlast, hadded⟩

theorem iterateMountPoint_references_fourMounts :
    ∃ last, iterateMountPoint fourEnvironment 5 2 (fun mount => mount)
        Records.empty = .ok last ∧
      ∀ mount, last.counts mount = mount :=
  (iterateMountPoint_references fourEnvironment_represents
    (by decide : 2 ∈ fourMounts.preorder)
    (by decide : fourMounts.preorder.length < 5) (fun mount => mount)
    Records.empty).2

end LinuxKernelCode.MountList
