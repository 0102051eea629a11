import Mathlib.Data.List.Basic

/-!
# Red-black trees by path and position

An intrusive tree node is reached through its parent chain, so a pointer to a
node is modelled here as a `Position`: the node together with the `RbPath`
from it up to the root.  Every operation is described by what it does to the
in-order sequence.  The interface `Rbtree` records exactly what a client of an
intrusive red-black tree may rely on, namely that the two rebalancing entry
points rearrange the nodes without disturbing that sequence.
-/

namespace LinuxKernelCode.RedBlack

inductive Color
  | red
  | black
  deriving DecidableEq, Repr

/-- A binary tree whose nodes carry a colour. -/
inductive RbTree (α : Type)
  | nil
  | node (color : Color) (left : RbTree α) (value : α) (right : RbTree α)
  deriving DecidableEq, Repr

/-- The chain of parents above a child slot, from the slot up to the root. -/
inductive RbPath (α : Type)
  | root
  | inLeft (parent : RbPath α) (color : Color) (value : α) (right : RbTree α)
  | inRight (parent : RbPath α) (color : Color) (left : RbTree α) (value : α)
  deriving DecidableEq, Repr

/-- A node of a tree, seen from the node. -/
structure Position (α : Type) where
  path : RbPath α
  color : Color
  left : RbTree α
  value : α
  right : RbTree α
  deriving DecidableEq, Repr

variable {α : Type}

def RbTree.inorder : RbTree α → List α
  | .nil => []
  | .node _ left value right => left.inorder ++ value :: right.inorder

/-- The values that precede the slot in the in-order sequence. -/
def RbPath.before : RbPath α → List α
  | .root => []
  | .inLeft parent _ _ _ => parent.before
  | .inRight parent _ left value => parent.before ++ left.inorder ++ [value]

/-- The values that follow the slot in the in-order sequence. -/
def RbPath.after : RbPath α → List α
  | .root => []
  | .inLeft parent _ value right => value :: right.inorder ++ parent.after
  | .inRight parent _ _ _ => parent.after

/-- The whole tree obtained by hanging a subtree into the slot. -/
def RbPath.plug : RbPath α → RbTree α → RbTree α
  | .root, tree => tree
  | .inLeft parent color value right, tree =>
      parent.plug (.node color tree value right)
  | .inRight parent color left value, tree =>
      parent.plug (.node color left value tree)

def Position.subtree (position : Position α) : RbTree α :=
  .node position.color position.left position.value position.right

def Position.tree (position : Position α) : RbTree α :=
  position.path.plug position.subtree

@[simp] theorem RbTree.inorder_nil : (RbTree.nil : RbTree α).inorder = [] := rfl

@[simp] theorem RbTree.inorder_node
    (color : Color) (left : RbTree α) (value : α) (right : RbTree α) :
    (RbTree.node color left value right).inorder =
      left.inorder ++ value :: right.inorder := rfl

@[simp] theorem RbPath.before_root : (RbPath.root : RbPath α).before = [] := rfl

@[simp] theorem RbPath.before_inLeft
    (parent : RbPath α) (color : Color) (value : α) (right : RbTree α) :
    (RbPath.inLeft parent color value right).before = parent.before := rfl

@[simp] theorem RbPath.before_inRight
    (parent : RbPath α) (color : Color) (left : RbTree α) (value : α) :
    (RbPath.inRight parent color left value).before =
      parent.before ++ left.inorder ++ [value] := rfl

@[simp] theorem RbPath.after_root : (RbPath.root : RbPath α).after = [] := rfl

@[simp] theorem RbPath.after_inLeft
    (parent : RbPath α) (color : Color) (value : α) (right : RbTree α) :
    (RbPath.inLeft parent color value right).after =
      value :: right.inorder ++ parent.after := rfl

@[simp] theorem RbPath.after_inRight
    (parent : RbPath α) (color : Color) (left : RbTree α) (value : α) :
    (RbPath.inRight parent color left value).after = parent.after := rfl

theorem RbPath.forall_mem_after_inLeft
    {p : α → Prop} {parent : RbPath α} {color : Color} {value : α}
    {right : RbTree α} (hvalue : p value) (hright : ∀ other ∈ right.inorder, p other)
    (hafter : ∀ other ∈ parent.after, p other) :
    ∀ other ∈ (RbPath.inLeft parent color value right).after, p other := by
  intro other hother
  simp only [RbPath.after_inLeft, List.cons_append, List.mem_cons,
    List.mem_append] at hother
  rcases hother with heq | hmem | hmem
  · exact heq ▸ hvalue
  · exact hright other hmem
  · exact hafter other hmem

theorem RbPath.forall_mem_before_inRight
    {p : α → Prop} {parent : RbPath α} {color : Color} {left : RbTree α}
    {value : α} (hbefore : ∀ other ∈ parent.before, p other)
    (hleft : ∀ other ∈ left.inorder, p other) (hvalue : p value) :
    ∀ other ∈ (RbPath.inRight parent color left value).before, p other := by
  intro other hother
  simp only [RbPath.before_inRight, List.mem_append,
    List.mem_singleton] at hother
  rcases hother with (hmem | hmem) | heq
  · exact hbefore other hmem
  · exact hleft other hmem
  · exact heq ▸ hvalue

@[simp] theorem RbPath.inorder_plug (path : RbPath α) (tree : RbTree α) :
    (path.plug tree).inorder = path.before ++ tree.inorder ++ path.after := by
  induction path generalizing tree with
  | root => simp [RbPath.plug]
  | inLeft parent color value right ih => simp [RbPath.plug, ih]
  | inRight parent color left value ih => simp [RbPath.plug, ih]

theorem Position.inorder_tree (position : Position α) :
    position.tree.inorder =
      position.path.before ++ position.left.inorder ++
        position.value :: (position.right.inorder ++ position.path.after) := by
  simp [Position.tree, Position.subtree]

/-! ## Finding a node -/

/-- The position of a node that satisfies a test, looked for in pre-order. -/
def RbTree.locate (test : α → Bool) : RbTree α → RbPath α → Option (Position α)
  | .nil, _ => none
  | .node color left value right, path =>
      if test value then some ⟨path, color, left, value, right⟩
      else
        match left.locate test (.inLeft path color value right) with
        | some position => some position
        | none => right.locate test (.inRight path color left value)

theorem RbTree.locate_eq_some
    {test : α → Bool} {tree : RbTree α} {path : RbPath α} {position : Position α}
    (hlocate : tree.locate test path = some position) :
    position.tree = path.plug tree ∧ test position.value = true := by
  induction tree generalizing path with
  | nil => simp [RbTree.locate] at hlocate
  | node color left value right ihleft ihright =>
      unfold RbTree.locate at hlocate
      by_cases htest : test value = true
      · simp only [htest, if_true, Option.some.injEq] at hlocate
        subst position
        exact ⟨rfl, htest⟩
      · simp only [htest] at hlocate
        cases hleft : left.locate test (.inLeft path color value right) with
        | some found =>
            simp only [hleft] at hlocate
            exact ihleft (hleft.trans (by simpa using hlocate))
        | none =>
            simp only [hleft] at hlocate
            exact ihright (by simpa using hlocate)

theorem RbTree.locate_eq_none
    {test : α → Bool} {tree : RbTree α} {path : RbPath α}
    (hlocate : tree.locate test path = none) :
    ∀ value ∈ tree.inorder, test value = false := by
  induction tree generalizing path with
  | nil => simp
  | node color left value right ihleft ihright =>
      unfold RbTree.locate at hlocate
      by_cases htest : test value = true
      · simp [htest] at hlocate
      · simp only [htest] at hlocate
        cases hleft : left.locate test (.inLeft path color value right) with
        | some found => simp [hleft] at hlocate
        | none =>
            simp only [hleft] at hlocate
            intro other hother
            simp only [RbTree.inorder_node, List.mem_append, List.mem_cons] at hother
            rcases hother with hmem | heq | hmem
            · exact ihleft hleft other hmem
            · subst other
              simpa using htest
            · exact ihright (by simpa using hlocate) other hmem

/-! ## First, last and next node -/

/-- Descend along left children (`rb_first` below a slot). -/
def RbTree.first : RbTree α → RbPath α → Option (Position α)
  | .nil, _ => none
  | .node color left value right, path =>
      match left.first (.inLeft path color value right) with
      | some position => some position
      | none => some ⟨path, color, left, value, right⟩

/-- Descend along right children (`rb_last` below a slot). -/
def RbTree.last : RbTree α → RbPath α → Option (Position α)
  | .nil, _ => none
  | .node color left value right, path =>
      match right.last (.inRight path color left value) with
      | some position => some position
      | none => some ⟨path, color, left, value, right⟩

/-- Climb until the first step up from a left child. -/
def RbPath.climb : RbPath α → RbTree α → Option (Position α)
  | .root, _ => none
  | .inLeft parent color value right, tree =>
      some ⟨parent, color, tree, value, right⟩
  | .inRight parent color left value, tree =>
      parent.climb (.node color left value tree)

/-- `rb_next`: the leftmost node of the right subtree if there is one, and
otherwise the first ancestor reached from its left. -/
def Position.next (position : Position α) : Option (Position α) :=
  match position.right.first
      (.inRight position.path position.color position.left position.value) with
  | some successor => some successor
  | none => position.path.climb position.subtree

/-- The values visited by a loop which starts at a node and follows
`rb_next`, for at most the given number of nodes. -/
def walk : ℕ → Option (Position α) → List α
  | 0, _ => []
  | _ + 1, none => []
  | fuel + 1, some position => position.value :: walk fuel position.next

def Position.rest (position : Position α) : List α :=
  position.right.inorder ++ position.path.after

/-- What is left of the in-order sequence from a node onwards. -/
def ahead : Option (Position α) → List α
  | none => []
  | some position => position.value :: position.rest

theorem RbTree.first_eq_none
    {tree : RbTree α} {path : RbPath α} (hfirst : tree.first path = none) :
    tree = .nil := by
  cases tree with
  | nil => rfl
  | node color left value right =>
      unfold RbTree.first at hfirst
      cases hleft : left.first (.inLeft path color value right) <;>
        simp [hleft] at hfirst

theorem RbTree.first_eq_some
    {tree : RbTree α} {path : RbPath α} {position : Position α}
    (hfirst : tree.first path = some position) :
    position.left = .nil ∧ position.path.before = path.before ∧
      position.value :: position.rest = tree.inorder ++ path.after := by
  induction tree generalizing path with
  | nil => simp [RbTree.first] at hfirst
  | node color left value right ihleft ihright =>
      unfold RbTree.first at hfirst
      cases hleft : left.first (.inLeft path color value right) with
      | none =>
          have hnil := RbTree.first_eq_none hleft
          simp only [hleft, Option.some.injEq] at hfirst
          subst position
          simp [hnil, Position.rest]
      | some found =>
          simp only [hleft, Option.some.injEq] at hfirst
          subst position
          obtain ⟨hnil, hbefore, hrest⟩ := ihleft hleft
          exact ⟨hnil, hbefore, by simp [hrest]⟩

theorem ahead_climb (path : RbPath α) (tree : RbTree α) :
    ahead (path.climb tree) = path.after := by
  induction path generalizing tree with
  | root => rfl
  | inLeft parent color value right ih =>
      simp [RbPath.climb, ahead, Position.rest]
  | inRight parent color left value ih =>
      simpa [RbPath.climb] using ih (.node color left value tree)

/-- `rb_next` moves one place along the in-order sequence. -/
theorem ahead_next (position : Position α) :
    ahead position.next = position.rest := by
  unfold Position.next
  cases hright : position.right.first
      (.inRight position.path position.color position.left position.value) with
  | none =>
      have hnil := RbTree.first_eq_none hright
      simp [ahead_climb, Position.rest, hnil]
  | some successor =>
      obtain ⟨_, _, hrest⟩ := RbTree.first_eq_some hright
      simpa [ahead, Position.rest] using hrest

theorem walk_eq_ahead
    (fuel : ℕ) (start : Option (Position α))
    (hfuel : (ahead start).length ≤ fuel) :
    walk fuel start = ahead start := by
  induction fuel generalizing start with
  | zero =>
      have hnil := List.length_eq_zero_iff.mp (Nat.le_zero.mp hfuel)
      rw [hnil]
      rfl
  | succ fuel ih =>
      cases start with
      | none => rfl
      | some position =>
          simp only [ahead, List.length_cons] at hfuel
          have hnext := ahead_next position
          simp only [walk, ahead]
          rw [ih position.next (by rw [hnext]; omega), hnext]

theorem ahead_first (tree : RbTree α) : ahead (tree.first .root) = tree.inorder := by
  cases hfirst : tree.first .root with
  | none => simp [ahead, RbTree.first_eq_none hfirst]
  | some position =>
      obtain ⟨_, _, hrest⟩ := RbTree.first_eq_some hfirst
      simpa [ahead] using hrest

/-- Following `rb_next` from `rb_first` visits the in-order sequence. -/
theorem walk_first (tree : RbTree α) (fuel : ℕ) (hfuel : tree.inorder.length ≤ fuel) :
    walk fuel (tree.first .root) = tree.inorder := by
  rw [walk_eq_ahead fuel _ (by rw [ahead_first]; exact hfuel), ahead_first]

theorem RbTree.first_value (tree : RbTree α) :
    (tree.first .root).map Position.value = tree.inorder.head? := by
  rw [← ahead_first]
  cases tree.first .root <;> rfl

theorem RbTree.last_value (tree : RbTree α) (path : RbPath α) :
    (tree.last path).map Position.value = tree.inorder.getLast? := by
  induction tree generalizing path with
  | nil => rfl
  | node color left value right ihleft ihright =>
      have hright := ihright (.inRight path color left value)
      cases hlast : right.last (.inRight path color left value) with
      | none =>
          rw [hlast] at hright
          have hempty : right.inorder = [] := by
            simpa using hright.symm
          simp [RbTree.last, hlast, hempty]
      | some position =>
          rw [hlast] at hright
          simp only [Option.map_some] at hright
          simp [RbTree.last, hlast, List.getLast?_append, List.getLast?_cons,
            ← hright]

/-! ## The rebalancing interface -/

/-- What a client relies on in an intrusive red-black tree.  `insertColor`
links a new node into a slot and rebalances; `erase` unlinks the node at a
position and rebalances. -/
structure Rbtree where
  insertColor : {α : Type} → RbPath α → α → RbTree α
  erase : {α : Type} → Position α → RbTree α
  inorder_insertColor : ∀ {α : Type} (path : RbPath α) (value : α),
    (insertColor path value).inorder = path.before ++ value :: path.after
  inorder_erase : ∀ {α : Type} (position : Position α),
    (erase position).inorder =
      position.path.before ++ position.left.inorder ++
        (position.right.inorder ++ position.path.after)

/-- `rb_replace_node`: the new node takes the place and colour of the old. -/
def Position.replace (position : Position α) (value : α) : RbTree α :=
  position.path.plug
    (.node position.color position.left value position.right)

theorem Position.inorder_replace (position : Position α) (value : α) :
    (position.replace value).inorder =
      position.path.before ++ position.left.inorder ++
        value :: (position.right.inorder ++ position.path.after) := by
  simp [Position.replace]

end LinuxKernelCode.RedBlack
