import LinuxKernelCode.RedBlackTree
import Mathlib.Tactic

/-!
# Descents directed by a three-way comparison

A search loop and an insertion loop descend from the root by the sign of a
comparison with a fixed key.  Nothing is assumed of the comparison at first:
the two loops stop at the same node whatever it answers.  The second half
relates a descent to a numeric rank.  The comparison need not agree with the
rank on the whole tree; it is enough, and for the place of an insertion also
necessary, that it agrees along the one path which the rank prescribes.
-/

namespace LinuxKernelCode.RedBlack

variable {α : Type}

def descendSlot (cmp : α → ℤ) : RbTree α → RbPath α → Except α (RbPath α)
  | .nil, path => .ok path
  | .node color left value right, path =>
      if cmp value = 0 then .error value
      else if cmp value < 0 then
        descendSlot cmp left (.inLeft path color value right)
      else descendSlot cmp right (.inRight path color left value)

def descendFind (cmp : α → ℤ) : RbTree α → Option α
  | .nil => none
  | .node _ left value right =>
      if cmp value = 0 then some value
      else if cmp value < 0 then descendFind cmp left
      else descendFind cmp right

theorem descendFind_eq_some
    {cmp : α → ℤ} {tree : RbTree α} {value : α}
    (hfind : descendFind cmp tree = some value) :
    value ∈ tree.inorder ∧ cmp value = 0 := by
  induction tree with
  | nil => simp [descendFind] at hfind
  | node color left key right ihleft ihright =>
      unfold descendFind at hfind
      split_ifs at hfind with hzero hneg
      · obtain rfl := Option.some.inj hfind
        exact ⟨by simp, hzero⟩
      · exact ⟨by simp [(ihleft hfind).1], (ihleft hfind).2⟩
      · exact ⟨by simp [(ihright hfind).1], (ihright hfind).2⟩

/-- The insertion loop stops at a node exactly where the search loop does. -/
theorem descendSlot_eq_error_iff
    (cmp : α → ℤ) (tree : RbTree α) (path : RbPath α) (value : α) :
    descendSlot cmp tree path = .error value ↔
      descendFind cmp tree = some value := by
  induction tree generalizing path with
  | nil => simp [descendSlot, descendFind]
  | node color left key right ihleft ihright =>
      unfold descendSlot descendFind
      split_ifs with hzero hneg
      · simp
      · exact ihleft _
      · exact ihright _

theorem descendSlot_of_find_some
    {cmp : α → ℤ} {tree : RbTree α} {value : α}
    (hfind : descendFind cmp tree = some value) (path : RbPath α) :
    descendSlot cmp tree path = .error value :=
  (descendSlot_eq_error_iff cmp tree path value).mpr hfind

theorem descendSlot_of_find_none
    {cmp : α → ℤ} {tree : RbTree α}
    (hfind : descendFind cmp tree = none) (path : RbPath α) :
    ∃ slot, descendSlot cmp tree path = .ok slot := by
  cases hslot : descendSlot cmp tree path with
  | ok slot => exact ⟨slot, rfl⟩
  | error value =>
      have hsome := (descendSlot_eq_error_iff cmp tree path value).mp hslot
      rw [hfind] at hsome
      contradiction

/-- A slot reached by a descent cuts the in-order sequence in two. -/
theorem descendSlot_inorder
    {cmp : α → ℤ} {tree : RbTree α} {path slot : RbPath α}
    (hslot : descendSlot cmp tree path = .ok slot) :
    slot.before ++ slot.after =
      path.before ++ tree.inorder ++ path.after := by
  induction tree generalizing path with
  | nil =>
      simp only [descendSlot, Except.ok.injEq] at hslot
      subst slot
      simp
  | node color left value right ihleft ihright =>
      unfold descendSlot at hslot
      split_ifs at hslot with hzero hneg
      · simpa using ihleft hslot
      · simpa using ihright hslot

/-- The nodes a descent has passed stay on the side it passed them. -/
theorem descendSlot_mem
    {cmp : α → ℤ} {tree : RbTree α} {path slot : RbPath α}
    (hslot : descendSlot cmp tree path = .ok slot) :
    (∀ value ∈ path.before, value ∈ slot.before) ∧
      ∀ value ∈ path.after, value ∈ slot.after := by
  induction tree generalizing path with
  | nil =>
      simp only [descendSlot, Except.ok.injEq] at hslot
      subst slot
      exact ⟨fun _ h => h, fun _ h => h⟩
  | node color left value right ihleft ihright =>
      unfold descendSlot at hslot
      split_ifs at hslot with hzero hneg
      · obtain ⟨hbefore, hafter⟩ := ihleft hslot
        exact ⟨hbefore, fun other hother => hafter other (by simp [hother])⟩
      · obtain ⟨hbefore, hafter⟩ := ihright hslot
        exact ⟨fun other hother => hbefore other (by simp [hother]), hafter⟩

/-! ## Descents that agree with a rank -/

/-- Strictly increasing ranks along the in-order sequence. -/
def Ranked (rank : α → ℕ) (values : List α) : Prop :=
  values.Pairwise fun first second => rank first < rank second

/-- Along the path that the ranks prescribe for `target`, the comparison
takes the prescribed side. -/
def DescentAgrees (cmp : α → ℤ) (rank : α → ℕ) (target : ℕ) : RbTree α → Prop
  | .nil => True
  | .node _ left value right =>
      (target < rank value →
        cmp value < 0 ∧ DescentAgrees cmp rank target left) ∧
      (rank value < target →
        0 < cmp value ∧ DescentAgrees cmp rank target right)

instance DescentAgrees.instDecidable
    (cmp : α → ℤ) (rank : α → ℕ) (target : ℕ) :
    (tree : RbTree α) → Decidable (DescentAgrees cmp rank target tree)
  | .nil => .isTrue trivial
  | .node _ left _ right =>
      have := DescentAgrees.instDecidable cmp rank target left
      have := DescentAgrees.instDecidable cmp rank target right
      inferInstanceAs (Decidable (_ ∧ _))

theorem descentAgrees_of_forall
    {cmp : α → ℤ} {rank : α → ℕ} {target : ℕ} {tree : RbTree α}
    (hagree : ∀ value ∈ tree.inorder,
      (target < rank value → cmp value < 0) ∧
        (rank value < target → 0 < cmp value)) :
    DescentAgrees cmp rank target tree := by
  induction tree with
  | nil => trivial
  | node color left value right ihleft ihright =>
      have hvalue := hagree value (by simp)
      constructor
      · intro hlt
        exact ⟨hvalue.1 hlt, ihleft fun other hother =>
          hagree other (by simp [hother])⟩
      · intro hlt
        exact ⟨hvalue.2 hlt, ihright fun other hother =>
          hagree other (by simp [hother])⟩

theorem ranked_node
    {rank : α → ℕ} {color : Color} {left right : RbTree α} {value : α} :
    Ranked rank (RbTree.node color left value right).inorder ↔
      Ranked rank left.inorder ∧ Ranked rank right.inorder ∧
        (∀ other ∈ left.inorder, rank other < rank value) ∧
        ∀ other ∈ right.inorder, rank value < rank other := by
  unfold Ranked
  rw [RbTree.inorder_node, List.pairwise_append, List.pairwise_cons]
  constructor
  · rintro ⟨hleft, ⟨hvalue, hright⟩, hcross⟩
    exact ⟨hleft, hright, fun other hother => hcross other hother value (by simp),
      hvalue⟩
  · rintro ⟨hleft, hright, hbelow, habove⟩
    refine ⟨hleft, ⟨habove, hright⟩, ?_⟩
    intro first hfirst second hsecond
    rcases List.mem_cons.mp hsecond with heq | hmem
    · subst second
      exact hbelow first hfirst
    · exact (hbelow first hfirst).trans (habove second hmem)

theorem Ranked.nodup_map
    {rank : α → ℕ} {values : List α} (hranked : Ranked rank values) :
    (values.map rank).Nodup :=
  List.pairwise_map.mpr (hranked.imp fun hlt => hlt.ne)

theorem Ranked.eq_of_rank_eq
    {rank : α → ℕ} {values : List α} (hranked : Ranked rank values)
    {first second : α} (hfirst : first ∈ values) (hsecond : second ∈ values)
    (heq : rank first = rank second) : first = second :=
  List.inj_on_of_nodup_map hranked.nodup_map hfirst hsecond heq

/-- A ranked list is determined by its members. -/
theorem Ranked.ext
    {rank : α → ℕ} {first second : List α}
    (hfirst : Ranked rank first) (hsecond : Ranked rank second)
    (hmem : ∀ value, value ∈ first ↔ value ∈ second) : first = second := by
  have hperm : first.Perm second :=
    (List.perm_ext_iff_of_nodup hfirst.nodup_map.of_map
      hsecond.nodup_map.of_map).mpr hmem
  exact hperm.eq_of_pairwise
    (fun _ _ _ _ hlt hgt => absurd hgt hlt.asymm) hfirst hsecond

/-- On a ranked tree, an agreeing descent finds the node with comparison zero
whenever there is one. -/
theorem descendFind_iff
    {cmp : α → ℤ} {rank : α → ℕ} {target : ℕ} {tree : RbTree α}
    (hranked : Ranked rank tree.inorder)
    (hagree : DescentAgrees cmp rank target tree)
    (hzero : ∀ value ∈ tree.inorder, cmp value = 0 → rank value = target)
    (value : α) :
    descendFind cmp tree = some value ↔
      value ∈ tree.inorder ∧ cmp value = 0 := by
  refine ⟨descendFind_eq_some, ?_⟩
  rintro ⟨hmem, hvalue⟩
  induction tree with
  | nil => simp at hmem
  | node color left key right ihleft ihright =>
      obtain ⟨hleft, hright, hbelow, habove⟩ := ranked_node.mp hranked
      have hrank := hzero value hmem hvalue
      have hzeroLeft : ∀ other ∈ left.inorder,
          cmp other = 0 → rank other = target :=
        fun other hother => hzero other (by simp [hother])
      have hzeroRight : ∀ other ∈ right.inorder,
          cmp other = 0 → rank other = target :=
        fun other hother => hzero other (by simp [hother])
      simp only [RbTree.inorder_node, List.mem_append, List.mem_cons] at hmem
      unfold descendFind
      rcases hmem with hinLeft | heq | hinRight
      · have hlt : target < rank key := hrank ▸ hbelow value hinLeft
        obtain ⟨hneg, hdeeper⟩ := hagree.1 hlt
        rw [if_neg hneg.ne, if_pos hneg]
        exact ihleft hleft hdeeper hzeroLeft hinLeft
      · subst key
        rw [if_pos hvalue]
      · have hlt : rank key < target := hrank ▸ habove value hinRight
        obtain ⟨hpos, hdeeper⟩ := hagree.2 hlt
        rw [if_neg hpos.ne', if_neg hpos.le.not_gt]
        exact ihright hright hdeeper hzeroRight hinRight

/-- A descent that ends at its target in a ranked tree has agreed with the
ranks all along. -/
theorem descentAgrees_of_find
    {cmp : α → ℤ} {rank : α → ℕ} {target : ℕ} {tree : RbTree α} {value : α}
    (hranked : Ranked rank tree.inorder)
    (hfind : descendFind cmp tree = some value) (htarget : rank value = target) :
    DescentAgrees cmp rank target tree := by
  induction tree with
  | nil => trivial
  | node color left key right ihleft ihright =>
      obtain ⟨hleft, hright, hbelow, habove⟩ := ranked_node.mp hranked
      unfold descendFind at hfind
      split_ifs at hfind with hzero hneg
      · cases hfind
        exact ⟨fun hlt => absurd htarget hlt.ne', fun hlt => absurd htarget hlt.ne⟩
      · have hlt := hbelow value (descendFind_eq_some hfind).1
        rw [htarget] at hlt
        exact ⟨fun _ => ⟨hneg, ihleft hleft hfind⟩,
          fun hgt => absurd hlt hgt.asymm⟩
      · have hlt := habove value (descendFind_eq_some hfind).1
        rw [htarget] at hlt
        have hpos : 0 < cmp key := by omega
        exact ⟨fun hgt => absurd hlt hgt.asymm,
          fun _ => ⟨hpos, ihright hright hfind⟩⟩

/-- An agreeing descent for a rank that does not occur ends in the slot
between the smaller and the larger ranks. -/
theorem descendSlot_bounds
    {cmp : α → ℤ} {rank : α → ℕ} {target : ℕ} {tree : RbTree α}
    {path slot : RbPath α}
    (hslot : descendSlot cmp tree path = .ok slot)
    (hranked : Ranked rank tree.inorder)
    (hagree : DescentAgrees cmp rank target tree)
    (hfresh : ∀ value ∈ tree.inorder, rank value ≠ target)
    (hbefore : ∀ value ∈ path.before, rank value < target)
    (hafter : ∀ value ∈ path.after, target < rank value) :
    (∀ value ∈ slot.before, rank value < target) ∧
      ∀ value ∈ slot.after, target < rank value := by
  induction tree generalizing path with
  | nil =>
      simp only [descendSlot, Except.ok.injEq] at hslot
      subst slot
      exact ⟨hbefore, hafter⟩
  | node color left key right ihleft ihright =>
      obtain ⟨hleft, hright, hbelow, habove⟩ := ranked_node.mp hranked
      have hfreshLeft : ∀ other ∈ left.inorder, rank other ≠ target :=
        fun other hother => hfresh other (by simp [hother])
      have hfreshRight : ∀ other ∈ right.inorder, rank other ≠ target :=
        fun other hother => hfresh other (by simp [hother])
      unfold descendSlot at hslot
      rcases lt_trichotomy target (rank key) with hlt | heq | hgt
      · obtain ⟨hneg, hdeeper⟩ := hagree.1 hlt
        rw [if_neg hneg.ne, if_pos hneg] at hslot
        apply ihleft hslot hleft hdeeper hfreshLeft hbefore
        refine RbPath.forall_mem_after_inLeft hlt ?_ hafter
        intro other hmem
        exact hlt.trans (habove other hmem)
      · exact absurd heq.symm (hfresh key (by simp))
      · obtain ⟨hpos, hdeeper⟩ := hagree.2 hgt
        rw [if_neg hpos.ne', if_neg hpos.le.not_gt] at hslot
        refine ihright hslot hright hdeeper hfreshRight ?_ hafter
        refine RbPath.forall_mem_before_inRight hbefore ?_ hgt
        intro other hmem
        exact (hbelow other hmem).trans hgt

/-- A descent that disagrees with the rank somewhere on the prescribed path
ends on the wrong side of a node. -/
theorem descendSlot_misplaced
    {cmp : α → ℤ} {rank : α → ℕ} {target : ℕ} {tree : RbTree α}
    {path slot : RbPath α}
    (hslot : descendSlot cmp tree path = .ok slot)
    (hdisagree : ¬ DescentAgrees cmp rank target tree) :
    (∃ value ∈ slot.before, target < rank value) ∨
      ∃ value ∈ slot.after, rank value < target := by
  induction tree generalizing path with
  | nil => exact absurd trivial hdisagree
  | node color left key right ihleft ihright =>
      unfold descendSlot at hslot
      split_ifs at hslot with hzero hneg
      · by_cases hgt : rank key < target
        · right
          exact ⟨key, (descendSlot_mem hslot).2 key (by simp), hgt⟩
        · apply ihleft hslot
          intro hdeeper
          exact hdisagree ⟨fun _ => ⟨hneg, hdeeper⟩, fun h => absurd h hgt⟩
      · by_cases hlt : target < rank key
        · left
          exact ⟨key, (descendSlot_mem hslot).1 key (by simp), hlt⟩
        · apply ihright hslot
          intro hdeeper
          have hpos : 0 < cmp key := by omega
          exact hdisagree ⟨fun h => absurd h hlt, fun _ => ⟨hpos, hdeeper⟩⟩

theorem pairwise_insert
    {r : α → α → Prop} {before after : List α} {value : α}
    (hpairwise : (before ++ after).Pairwise r)
    (hbefore : ∀ other ∈ before, r other value)
    (hafter : ∀ other ∈ after, r value other) :
    (before ++ value :: after).Pairwise r := by
  rw [List.pairwise_append] at hpairwise ⊢
  obtain ⟨hfirst, hsecond, hcross⟩ := hpairwise
  refine ⟨hfirst, List.pairwise_cons.mpr ⟨hafter, hsecond⟩, ?_⟩
  intro first hmemFirst second hmemSecond
  rcases List.mem_cons.mp hmemSecond with heq | hmem
  · exact heq ▸ hbefore first hmemFirst
  · exact hcross first hmemFirst second hmem

theorem ranked_insert
    {rank : α → ℕ} {before after : List α} {value : α}
    (hranked : Ranked rank (before ++ after))
    (hbefore : ∀ other ∈ before, rank other < rank value)
    (hafter : ∀ other ∈ after, rank value < rank other) :
    Ranked rank (before ++ value :: after) :=
  pairwise_insert hranked hbefore hafter

theorem not_ranked_insert
    {rank : α → ℕ} {before after : List α} {value : α}
    (hmisplaced : (∃ other ∈ before, rank value < rank other) ∨
      ∃ other ∈ after, rank other < rank value) :
    ¬ Ranked rank (before ++ value :: after) := by
  intro hranked
  unfold Ranked at hranked
  rw [List.pairwise_append, List.pairwise_cons] at hranked
  obtain ⟨_, ⟨habove, _⟩, hcross⟩ := hranked
  rcases hmisplaced with ⟨other, hmem, hlt⟩ | ⟨other, hmem, hlt⟩
  · exact hlt.asymm (hcross other hmem value (by simp))
  · exact hlt.asymm (habove other hmem)

end LinuxKernelCode.RedBlack
