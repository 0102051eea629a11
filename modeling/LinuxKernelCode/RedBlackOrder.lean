import LinuxKernelCode.RedBlackDescent
import Mathlib.Data.List.Sort

/-!
# Descents under a lawful order

A three-way comparison is lawful when it is a total order up to the answer
zero.  Against one fixed target such a comparison cuts an increasing sequence:
the elements below the target answer positively, at most one answers zero, and
everything behind answers negatively.  This cut is all that the two descents
need, and it determines the slot at which an insertion ends.

The last section follows the loops by node rather than by value, since a tree
may hold equal values at different nodes.
-/

namespace LinuxKernelCode.RedBlack

variable {α : Type}

/-- A total order up to the answer zero. -/
structure ThreeWay (cmp : α → α → ℤ) : Prop where
  swap : ∀ first second, cmp first second < 0 ↔ 0 < cmp second first
  trans : ∀ first second third,
    cmp first second ≤ 0 → cmp second third ≤ 0 → cmp first third ≤ 0

def Increasing (cmp : α → α → ℤ) (values : List α) : Prop :=
  values.Pairwise fun first second => cmp first second < 0

theorem ThreeWay.le_swap
    {cmp : α → α → ℤ} (hcmp : ThreeWay cmp) (first second : α) :
    cmp first second ≤ 0 ↔ 0 ≤ cmp second first := by
  have hswap := hcmp.swap second first
  constructor
  · intro hle
    by_contra hneg
    have hpos := hswap.mp (not_le.mp hneg)
    omega
  · intro hle
    by_contra hpos
    have hneg := hswap.mpr (not_le.mp hpos)
    omega

theorem ThreeWay.lt_of_le_of_lt
    {cmp : α → α → ℤ} (hcmp : ThreeWay cmp) {first second third : α}
    (hle : cmp first second ≤ 0) (hlt : cmp second third < 0) :
    cmp first third < 0 := by
  have hthird := hcmp.trans first second third hle hlt.le
  by_contra hnot
  have hback : cmp third first ≤ 0 := (hcmp.le_swap third first).mpr (not_lt.mp hnot)
  have hcycle := hcmp.trans third first second hback hle
  have hpos := (hcmp.swap second third).mp hlt
  omega

/-! ## The cut that a target makes -/

/-- Once the target is reached, everything that follows lies behind it. -/
def Sided (cmp : α → ℤ) (values : List α) : Prop :=
  values.Pairwise fun first second => cmp first ≤ 0 → cmp second < 0

theorem Increasing.sided
    {cmp : α → α → ℤ} (hcmp : ThreeWay cmp) {values : List α}
    (hvalues : Increasing cmp values) (target : α) :
    Sided (cmp target) values :=
  List.Pairwise.imp (fun hlt hle => hcmp.lt_of_le_of_lt hle hlt) hvalues

theorem sided_node
    {cmp : α → ℤ} {color : Color} {left right : RbTree α} {value : α}
    (hsided : Sided cmp (RbTree.node color left value right).inorder) :
    Sided cmp left.inorder ∧ Sided cmp right.inorder ∧
      (∀ other ∈ left.inorder, cmp other ≤ 0 → cmp value < 0) ∧
      ∀ other ∈ right.inorder, cmp value ≤ 0 → cmp other < 0 := by
  unfold Sided at hsided
  rw [RbTree.inorder_node, List.pairwise_append, List.pairwise_cons] at hsided
  obtain ⟨hleft, ⟨hvalue, hright⟩, hcross⟩ := hsided
  exact ⟨hleft, hright, fun other hother => hcross other hother value (by simp),
    hvalue⟩

/-- At most one element meets the target. -/
theorem Sided.eq_of_zero
    {cmp : α → ℤ} {values : List α} (hsided : Sided cmp values)
    {first second : α} (hfirst : first ∈ values) (hsecond : second ∈ values)
    (hzeroFirst : cmp first = 0) (hzeroSecond : cmp second = 0) :
    first = second := by
  by_contra hne
  obtain ⟨before, after, rfl⟩ := List.append_of_mem hfirst
  unfold Sided at hsided
  rw [List.pairwise_append, List.pairwise_cons] at hsided
  obtain ⟨_, ⟨hafter, _⟩, hcross⟩ := hsided
  rcases List.mem_append.mp hsecond with hmem | hmem
  · have hneg := hcross second hmem first (by simp) hzeroSecond.le
    omega
  · rcases List.mem_cons.mp hmem with heq | hbehind
    · exact hne heq.symm
    · have hneg := hafter second hbehind hzeroFirst.le
      omega

theorem descendFind_iff_of_sided
    {cmp : α → ℤ} {tree : RbTree α} (hsided : Sided cmp tree.inorder) (value : α) :
    descendFind cmp tree = some value ↔
      value ∈ tree.inorder ∧ cmp value = 0 := by
  refine ⟨descendFind_eq_some, ?_⟩
  rintro ⟨hmem, hzero⟩
  induction tree with
  | nil => simp at hmem
  | node color left key right ihleft ihright =>
      obtain ⟨hleft, hright, hbelow, habove⟩ := sided_node hsided
      simp only [RbTree.inorder_node, List.mem_append, List.mem_cons] at hmem
      unfold descendFind
      rcases hmem with hinLeft | heq | hinRight
      · have hneg := hbelow value hinLeft hzero.le
        rw [if_neg hneg.ne, if_pos hneg]
        exact ihleft hleft hinLeft
      · subst key
        rw [if_pos hzero]
      · have hpos : 0 < cmp key := by
          by_contra hle
          have hneg := habove value hinRight (not_lt.mp hle)
          omega
        rw [if_neg hpos.ne', if_neg hpos.le.not_gt]
        exact ihright hright hinRight

/-- The slot at which the insertion loop ends lies exactly at the cut: the
bounds collected from the ancestors extend to whole subtrees. -/
theorem descendSlot_bounds_of_sided
    {cmp : α → ℤ} {tree : RbTree α} {path slot : RbPath α}
    (hslot : descendSlot cmp tree path = .ok slot)
    (hsided : Sided cmp tree.inorder)
    (hbefore : ∀ value ∈ path.before, 0 < cmp value)
    (hafter : ∀ value ∈ path.after, cmp value < 0) :
    (∀ value ∈ slot.before, 0 < cmp value) ∧
      ∀ value ∈ slot.after, cmp value < 0 := by
  induction tree generalizing path with
  | nil =>
      simp only [descendSlot, Except.ok.injEq] at hslot
      subst slot
      exact ⟨hbefore, hafter⟩
  | node color left key right ihleft ihright =>
      obtain ⟨hleft, hright, hbelow, habove⟩ := sided_node hsided
      unfold descendSlot at hslot
      split_ifs at hslot with hzero hneg
      · apply ihleft hslot hleft hbefore
        refine RbPath.forall_mem_after_inLeft hneg ?_ hafter
        intro other hmem
        exact habove other hmem hneg.le
      · have hpos : 0 < cmp key := by omega
        refine ihright hslot hright ?_ hafter
        refine RbPath.forall_mem_before_inRight hbefore ?_ hpos
        intro other hmem
        by_contra hle
        exact hneg (hbelow other hmem (not_lt.mp hle))

theorem orderedInsert_of_bounds
    {cmp : α → α → ℤ} {before after : List α} {value : α}
    (hbefore : ∀ other ∈ before, 0 < cmp value other)
    (hafter : ∀ other ∈ after, cmp value other < 0) :
    (before ++ after).orderedInsert (fun first second => cmp first second ≤ 0)
      value = before ++ value :: after := by
  induction before with
  | nil =>
      cases after with
      | nil => rfl
      | cons other after =>
          have hle := (hafter other (by simp)).le
          simp [hle]
  | cons other before ih =>
      have hpos := hbefore other (by simp)
      have hrest := ih fun smaller hsmaller => hbefore smaller (by simp [hsmaller])
      simp [not_le.mpr hpos, hrest]

/-! ## The nodes at which the loops stop -/

/-- The insertion loop, which keeps the child slot it has reached. -/
def insertLoop (cmp : α → ℤ) :
    RbTree α → RbPath α → Except (Position α) (RbPath α)
  | .nil, path => .ok path
  | .node color left value right, path =>
      if cmp value = 0 then .error ⟨path, color, left, value, right⟩
      else if cmp value < 0 then
        insertLoop cmp left (.inLeft path color value right)
      else insertLoop cmp right (.inRight path color left value)

/-- The search loop, which keeps the node it has reached. -/
def searchLoop (cmp : α → ℤ) : RbTree α → RbPath α → Option (Position α)
  | .nil, _ => none
  | .node color left value right, path =>
      if cmp value = 0 then some ⟨path, color, left, value, right⟩
      else if cmp value < 0 then
        searchLoop cmp left (.inLeft path color value right)
      else searchLoop cmp right (.inRight path color left value)

theorem descendSlot_eq_insertLoop
    (cmp : α → ℤ) (tree : RbTree α) (path : RbPath α) :
    descendSlot cmp tree path =
      (insertLoop cmp tree path).mapError Position.value := by
  induction tree generalizing path with
  | nil => rfl
  | node color left value right ihleft ihright =>
      unfold descendSlot insertLoop
      split_ifs with hzero hneg
      · rfl
      · exact ihleft _
      · exact ihright _

theorem descendFind_of_searchLoop
    {cmp : α → ℤ} {tree : RbTree α} {path : RbPath α} {position : Position α}
    (hsearch : searchLoop cmp tree path = some position) :
    descendFind cmp tree = some position.value := by
  induction tree generalizing path with
  | nil => simp [searchLoop] at hsearch
  | node color left value right ihleft ihright =>
      unfold searchLoop at hsearch
      unfold descendFind
      split_ifs at hsearch ⊢ with hzero hneg
      · obtain rfl := Option.some.inj hsearch
        rfl
      · exact ihleft hsearch
      · exact ihright hsearch

/-- The two loops run in lockstep, whatever the comparison answers. -/
theorem insertLoop_eq_error_iff
    (cmp : α → ℤ) (tree : RbTree α) (path : RbPath α) (position : Position α) :
    insertLoop cmp tree path = .error position ↔
      searchLoop cmp tree path = some position := by
  induction tree generalizing path with
  | nil => simp [insertLoop, searchLoop]
  | node color left value right ihleft ihright =>
      unfold insertLoop searchLoop
      split_ifs with hzero hneg
      · simp
      · exact ihleft _
      · exact ihright _

theorem searchLoop_tree
    {cmp : α → ℤ} {tree : RbTree α} {path : RbPath α} {position : Position α}
    (hsearch : searchLoop cmp tree path = some position) :
    position.tree = path.plug tree := by
  induction tree generalizing path with
  | nil => simp [searchLoop] at hsearch
  | node color left value right ihleft ihright =>
      unfold searchLoop at hsearch
      split_ifs at hsearch with hzero hneg
      · obtain rfl := Option.some.inj hsearch
        rfl
      · exact ihleft hsearch
      · exact ihright hsearch

end LinuxKernelCode.RedBlack
