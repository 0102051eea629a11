import LinuxKernelCode.RedBlackTree

/-!
# The rebalancing of the kernel's red-black tree

`insertFixup` and `eraseFixup` follow the loops of `rb_insert_color` and
`rb_erase`: one case for each colour flip or rotation, with the mirrored case
beside it.  A loop iteration of the kernel works on a node and its parent
chain, which is a subtree and a `RbPath` here.  Both loops are shown to keep the
in-order sequence for every tree, balanced or not, so that they instantiate
the interface `Rbtree`.
-/

namespace LinuxKernelCode.RedBlack

variable {α : Type}

def RbTree.isRed : RbTree α → Bool
  | .node .red _ _ _ => true
  | _ => false

def RbTree.blacken : RbTree α → RbTree α
  | .nil => .nil
  | .node _ left value right => .node .black left value right

@[simp] theorem RbTree.inorder_blacken (tree : RbTree α) :
    tree.blacken.inorder = tree.inorder := by
  cases tree <;> rfl

/-! ## Insertion -/

/-- The loop of `rb_insert_color` at a red node with the given children. -/
def insertFixup : RbPath α → RbTree α → α → RbTree α → RbTree α
  | .root, left, value, right => .node .black left value right
  | .inLeft parent .black pvalue sibling, left, value, right =>
      parent.plug (.node .black (.node .red left value right) pvalue sibling)
  | .inRight parent .black sibling pvalue, left, value, right =>
      parent.plug (.node .black sibling pvalue (.node .red left value right))
  -- the parent is the left child of the grandparent
  | .inLeft (.inLeft grand gcolor gvalue uncle) .red pvalue sibling,
      left, value, right =>
      if uncle.isRed then
        insertFixup grand
          (.node .black (.node .red left value right) pvalue sibling)
          gvalue uncle.blacken
      else
        grand.plug (.node gcolor (.node .red left value right) pvalue
          (.node .red sibling gvalue uncle))
  | .inRight (.inLeft grand gcolor gvalue uncle) .red sibling pvalue,
      left, value, right =>
      if uncle.isRed then
        insertFixup grand
          (.node .black sibling pvalue (.node .red left value right))
          gvalue uncle.blacken
      else
        grand.plug (.node gcolor (.node .red sibling pvalue left) value
          (.node .red right gvalue uncle))
  -- the parent is the right child of the grandparent
  | .inRight (.inRight grand gcolor uncle gvalue) .red sibling pvalue,
      left, value, right =>
      if uncle.isRed then
        insertFixup grand uncle.blacken gvalue
          (.node .black sibling pvalue (.node .red left value right))
      else
        grand.plug (.node gcolor (.node .red uncle gvalue sibling) pvalue
          (.node .red left value right))
  | .inLeft (.inRight grand gcolor uncle gvalue) .red pvalue sibling,
      left, value, right =>
      if uncle.isRed then
        insertFixup grand uncle.blacken gvalue
          (.node .black (.node .red left value right) pvalue sibling)
      else
        grand.plug (.node gcolor (.node .red uncle gvalue left) value
          (.node .red right pvalue sibling))
  -- a red root does not occur in a red-black tree
  | .inLeft .root .red pvalue sibling, left, value, right =>
      .node .red (.node .red left value right) pvalue sibling
  | .inRight .root .red sibling pvalue, left, value, right =>
      .node .red sibling pvalue (.node .red left value right)

theorem inorder_insertFixup
    (path : RbPath α) (left : RbTree α) (value : α) (right : RbTree α) :
    (insertFixup path left value right).inorder =
      path.before ++ (left.inorder ++ value :: right.inorder) ++ path.after := by
  fun_induction insertFixup path left value right <;> simp_all

/-! ## Erasure -/

/-- The loop of `__rb_erase_color` above a subtree that is one black node
short. -/
def eraseFixup : RbPath α → RbTree α → RbTree α
  | .root, tree => tree
  -- the short subtree is the left child
  | .inLeft parent pcolor pvalue
      (.node .red (.node _ nephew svalue far) qvalue outer), tree =>
      if far.isRed then
        parent.plug (.node pcolor
          (.node .red (.node .black tree pvalue nephew) svalue far.blacken)
          qvalue outer)
      else
        match nephew with
        | .node .red inner nvalue middle =>
            parent.plug (.node pcolor
              (.node .red (.node .black tree pvalue inner) nvalue
                (.node .black middle svalue far))
              qvalue outer)
        | nephew =>
            parent.plug (.node pcolor
              (.node .black tree pvalue (.node .red nephew svalue far))
              qvalue outer)
  | .inLeft parent pcolor pvalue (.node .black nephew svalue far), tree =>
      if far.isRed then
        parent.plug (.node pcolor (.node .black tree pvalue nephew) svalue
          far.blacken)
      else
        match nephew with
        | .node .red inner nvalue middle =>
            parent.plug (.node pcolor (.node .black tree pvalue inner) nvalue
              (.node .black middle svalue far))
        | nephew =>
            match pcolor with
            | .red =>
                parent.plug
                  (.node .black tree pvalue (.node .red nephew svalue far))
            | .black =>
                eraseFixup parent
                  (.node .black tree pvalue (.node .red nephew svalue far))
  -- the short subtree is the right child
  | .inRight parent pcolor
      (.node .red outer qvalue (.node _ far svalue nephew)) pvalue, tree =>
      if far.isRed then
        parent.plug (.node pcolor outer qvalue
          (.node .red far.blacken svalue (.node .black nephew pvalue tree)))
      else
        match nephew with
        | .node .red middle nvalue inner =>
            parent.plug (.node pcolor outer qvalue
              (.node .red (.node .black far svalue middle) nvalue
                (.node .black inner pvalue tree)))
        | nephew =>
            parent.plug (.node pcolor outer qvalue
              (.node .black (.node .red far svalue nephew) pvalue tree))
  | .inRight parent pcolor (.node .black far svalue nephew) pvalue, tree =>
      if far.isRed then
        parent.plug (.node pcolor far.blacken svalue
          (.node .black nephew pvalue tree))
      else
        match nephew with
        | .node .red middle nvalue inner =>
            parent.plug (.node pcolor (.node .black far svalue middle) nvalue
              (.node .black inner pvalue tree))
        | nephew =>
            match pcolor with
            | .red =>
                parent.plug
                  (.node .black (.node .red far svalue nephew) pvalue tree)
            | .black =>
                eraseFixup parent
                  (.node .black (.node .red far svalue nephew) pvalue tree)
  -- a missing sibling does not occur in a red-black tree
  | .inLeft parent pcolor pvalue right, tree =>
      parent.plug (.node pcolor tree pvalue right)
  | .inRight parent pcolor left pvalue, tree =>
      parent.plug (.node pcolor left pvalue tree)

theorem inorder_eraseFixup (path : RbPath α) (tree : RbTree α) :
    (eraseFixup path tree).inorder =
      path.before ++ tree.inorder ++ path.after := by
  fun_induction eraseFixup path tree <;> simp_all

def RbTree.recolor (color : Color) : RbTree α → RbTree α
  | .nil => .nil
  | .node _ left value right => .node color left value right

@[simp] theorem RbTree.inorder_recolor (color : Color) (tree : RbTree α) :
    (tree.recolor color).inorder = tree.inorder := by
  cases tree <;> rfl

/-- Unlink a node without a left child and rebalance if a black node went. -/
def eraseLeftless (path : RbPath α) (color childColor : Color) (child : RbTree α) :
    RbTree α :=
  match child, color with
  | .nil, .black => eraseFixup path .nil
  | .nil, .red => path.plug .nil
  | child, _ => path.plug (child.recolor childColor)

theorem inorder_eraseLeftless
    (path : RbPath α) (color childColor : Color) (child : RbTree α) :
    (eraseLeftless path color childColor child).inorder =
      path.before ++ child.inorder ++ path.after := by
  unfold eraseLeftless
  split
  · exact inorder_eraseFixup path .nil
  · simp
  · simp

/-- `rb_erase`: a node with two children is replaced by its successor, whose
own place is then the one that is unlinked. -/
def eraseNode (position : Position α) : RbTree α :=
  match position.left, position.right.first .root with
  | .nil, _ =>
      eraseLeftless position.path position.color position.color position.right
  | left, none => position.path.plug (left.recolor position.color)
  | left, some probe =>
      match position.right.first
          (.inRight position.path position.color left probe.value) with
      | none => position.path.plug left
      | some successor =>
          eraseLeftless successor.path successor.color .black successor.right

theorem inorder_eraseNode (position : Position α) :
    (eraseNode position).inorder =
      position.path.before ++ position.left.inorder ++
        (position.right.inorder ++ position.path.after) := by
  unfold eraseNode
  split
  case h_1 _ hleft =>
      simp [inorder_eraseLeftless, hleft]
  case h_2 hfirst _ =>
      simp [RbTree.first_eq_none hfirst]
  case h_3 probe hprobe _ =>
      obtain ⟨_, _, hprobeRest⟩ := RbTree.first_eq_some hprobe
      split
      case h_1 hfirst =>
          simp [RbTree.first_eq_none hfirst] at hprobeRest
      case h_2 successor hfirst =>
          obtain ⟨_, hbefore, hrest⟩ := RbTree.first_eq_some hfirst
          simp only [RbPath.after_root, List.append_nil, RbPath.after_inRight] at *
          rw [← hprobeRest] at hrest ⊢
          obtain ⟨hvalue, htail⟩ := List.cons.inj hrest
          rw [inorder_eraseLeftless, hbefore]
          simp only [Position.rest] at htail
          simp [htail, Position.rest]

/-- The kernel's own rebalancing as an instance of the interface. -/
def linuxRbtree : Rbtree where
  insertColor path value := insertFixup path .nil value .nil
  erase position := eraseNode position
  inorder_insertColor path value := by
    simp [inorder_insertFixup]
  inorder_erase position := inorder_eraseNode position

end LinuxKernelCode.RedBlack
