import Mathlib.Data.List.Basic
import Mathlib.Data.List.Nodup

/-!
# Trees of sibling lists

A tree in memory whose nodes carry a pointer to their parent, a circular list
of their children, and a link in the list of their own siblings.  A slot is
the head of the list of a node's children or a node's link among its siblings.

The shape of such a tree is a root with a forest of children, and the pre-order
of the shape is a list.  A node is followed in the pre-order by its first
child; a node without children is followed by the sibling after the nearest
node above it that has one.  The main result says that these pointers, followed
from the root, run through the pre-order.
-/

namespace LinuxKernelCode.SiblingTree

universe u

variable {α : Type u}

/-- Trees side by side: the first one has a root and children, the others are
its siblings. -/
inductive Forest (α : Type u) where
  | nil
  | cons (root : α) (children siblings : Forest α)
  deriving DecidableEq, Repr

def Forest.preorder : Forest α → List α
  | .nil => []
  | .cons root children siblings =>
      root :: (children.preorder ++ siblings.preorder)

/-- The address of a link: the head of the list of children, or the node's own
link among its siblings. -/
inductive Slot (α : Type u) where
  | children (node : α)
  | sibling (node : α)
  deriving DecidableEq, Repr

structure Links (α : Type u) where
  parent : α → α
  next : Slot α → Slot α

/-- From the slot on, the list of the parent's children runs through the roots
of the forest and comes back to its head; likewise below each root. -/
def Links.Lists (links : Links α) (parent : α) : Slot α → Forest α → Prop
  | slot, .nil => links.next slot = .children parent
  | slot, .cons root children siblings =>
      links.next slot = .sibling root ∧ links.parent root = parent ∧
        links.Lists root (.children root) children ∧
        links.Lists parent (.sibling root) siblings

structure TreeShape (α : Type u) where
  root : α
  children : Forest α
  deriving DecidableEq, Repr

def TreeShape.preorder (tree : TreeShape α) : List α :=
  tree.root :: tree.children.preorder

/-- The links form the tree, of distinct nodes, and the root is its own
parent. -/
structure Links.Represents (links : Links α) (tree : TreeShape α) : Prop where
  parent_root : links.parent tree.root = tree.root
  lists : links.Lists tree.root (.children tree.root) tree.children
  distinct : tree.preorder.Nodup

/-! ## Climbing to the root -/

inductive Links.Rises (links : Links α) (root : α) : α → ℕ → Prop
  | root (hroot : links.parent root = root) : links.Rises root root 0
  | up {node : α} {steps : ℕ} (hnode : links.parent node ≠ node)
      (hrises : links.Rises root (links.parent node) steps) :
      links.Rises root node (steps + 1)

theorem Links.Lists.rises
    {links : Links α} {root parent : α} {slot : Slot α} {forest : Forest α}
    (hlists : links.Lists parent slot forest) {steps : ℕ}
    (hparent : links.Rises root parent steps)
    (hdistinct : (parent :: forest.preorder).Nodup) {node : α}
    (hnode : node ∈ forest.preorder) :
    ∃ height, height ≤ steps + forest.preorder.length ∧
      links.Rises root node height := by
  induction forest generalizing parent slot steps with
  | nil => simp [Forest.preorder] at hnode
  | cons first children siblings ihChildren ihSiblings =>
      obtain ⟨_, hfirst, hchildren, hsiblings⟩ := hlists
      simp only [Forest.preorder, List.nodup_cons, List.mem_cons,
        List.mem_append, not_or, List.nodup_append] at hdistinct hnode
      obtain ⟨⟨hne, _, hout⟩, ⟨hfirstChild, _⟩, hchildrenDistinct,
        hsiblingsDistinct, _⟩ := hdistinct
      have hrises : links.Rises root first (steps + 1) := by
        refine .up ?_ (hfirst ▸ hparent)
        rw [hfirst]
        exact hne
      simp only [Forest.preorder, List.length_cons, List.length_append]
      rcases hnode with rfl | hnode | hnode
      · exact ⟨steps + 1, by omega, hrises⟩
      · obtain ⟨height, hheight, hnodeRises⟩ := ihChildren hchildren hrises
          (List.nodup_cons.mpr ⟨hfirstChild, hchildrenDistinct⟩) hnode
        exact ⟨height, by omega, hnodeRises⟩
      · obtain ⟨height, hheight, hnodeRises⟩ := ihSiblings hsiblings hparent
          (List.nodup_cons.mpr ⟨hout, hsiblingsDistinct⟩) hnode
        exact ⟨height, by omega, hnodeRises⟩

theorem Links.Represents.rises
    {links : Links α} {tree : TreeShape α} (htree : links.Represents tree)
    {node : α} (hnode : node ∈ tree.preorder) :
    ∃ height, height < tree.preorder.length ∧
      links.Rises tree.root node height := by
  simp only [TreeShape.preorder, List.mem_cons] at hnode
  simp only [TreeShape.preorder, List.length_cons]
  have hroot := Links.Rises.root htree.parent_root
  rcases hnode with rfl | hnode
  · exact ⟨0, by omega, hroot⟩
  · obtain ⟨height, hheight, hrises⟩ :=
      htree.lists.rises hroot htree.distinct hnode
    exact ⟨height, by omega, hrises⟩

/-! ## The node after a node -/

/-- Going up from the node until there is a further sibling finds that
sibling, or finds the root, in the given number of steps. -/
inductive Links.Climbs (links : Links α) : α → Option α → ℕ → Prop
  | root {node : α} (hroot : links.parent node = node) :
      links.Climbs node none 0
  | sibling {node later : α} (hnode : links.parent node ≠ node)
      (hnext : links.next (.sibling node) = .sibling later) :
      links.Climbs node (some later) 0
  | up {node : α} {found : Option α} {steps : ℕ}
      (hnode : links.parent node ≠ node)
      (hnext : links.next (.sibling node) = .children (links.parent node))
      (hclimbs : links.Climbs (links.parent node) found steps) :
      links.Climbs node found (steps + 1)

/-- The node that follows, if any, is found with a climb of at most the given
number of steps. -/
inductive Links.Follows (links : Links α) (bound : ℕ) : α → Option α → Prop
  | child {node first : α}
      (hnext : links.next (.children node) = .sibling first) :
      links.Follows bound node (some first)
  | climb {node : α} {found : Option α} {steps : ℕ}
      (hnext : links.next (.children node) = .children node)
      (hclimbs : links.Climbs node found steps) (hsteps : steps ≤ bound) :
      links.Follows bound node found

/-- Each node of the list is followed by the next, and the last one by the
given node. -/
def Links.Threads (links : Links α) (bound : ℕ) :
    List α → Option α → Prop
  | [], _ => True
  | node :: rest, last =>
      links.Follows bound node (rest.head?.or last) ∧
        links.Threads bound rest last

theorem Links.Threads.append
    {links : Links α} {bound : ℕ} {front back : List α} {last : Option α}
    (hfront : links.Threads bound front (back.head?.or last))
    (hback : links.Threads bound back last) :
    links.Threads bound (front ++ back) last := by
  induction front with
  | nil => exact hback
  | cons node rest ih =>
      refine ⟨?_, ih hfront.2⟩
      have hfollows := hfront.1
      cases rest with
      | nil => simpa using hfollows
      | cons other more => simpa using hfollows

theorem Links.Follows.mono
    {links : Links α} {bound larger : ℕ} {node : α} {found : Option α}
    (hfollows : links.Follows bound node found) (hle : bound ≤ larger) :
    links.Follows larger node found := by
  cases hfollows with
  | child hnext => exact .child hnext
  | climb hnext hclimbs hsteps => exact .climb hnext hclimbs (by omega)

theorem Links.Threads.mono
    {links : Links α} {bound larger : ℕ} {nodes : List α} {last : Option α}
    (hthreads : links.Threads bound nodes last) (hle : bound ≤ larger) :
    links.Threads larger nodes last := by
  induction nodes with
  | nil => trivial
  | cons node rest ih => exact ⟨hthreads.1.mono hle, ih hthreads.2⟩

theorem Links.Lists.climbs
    {links : Links α} {parent node : α} {siblings : Forest α}
    (hsiblings : links.Lists parent (.sibling node) siblings)
    (hparent : links.parent node = parent) (hne : parent ≠ node)
    {last : Option α} {steps : ℕ} (hclimbs : links.Climbs parent last steps) :
    ∃ height, height ≤ steps + 1 ∧
      links.Climbs node (siblings.preorder.head?.or last) height := by
  have hnode : links.parent node ≠ node := by
    rw [hparent]
    exact hne
  cases siblings with
  | nil =>
      have hnext : links.next (.sibling node) = .children (links.parent node) := by
        rw [hparent]
        exact hsiblings
      exact ⟨steps + 1, by omega, .up hnode hnext (hparent ▸ hclimbs)⟩
  | cons later children others =>
      exact ⟨0, by omega, .sibling hnode hsiblings.1⟩

/-- Induction over the forest: its pre-order is threaded, and leads to where a
climb from the parent leads. -/
theorem Links.Lists.threads
    {links : Links α} {parent : α} {slot : Slot α} {forest : Forest α}
    (hlists : links.Lists parent slot forest)
    (hdistinct : (parent :: forest.preorder).Nodup)
    {last : Option α} {steps : ℕ} (hclimbs : links.Climbs parent last steps) :
    links.Threads (steps + forest.preorder.length) forest.preorder last := by
  induction forest generalizing parent slot last steps with
  | nil => trivial
  | cons first children siblings ihChildren ihSiblings =>
      obtain ⟨_, hfirst, hchildren, hsiblings⟩ := hlists
      simp only [Forest.preorder, List.nodup_cons, List.mem_cons,
        List.mem_append, not_or, List.nodup_append] at hdistinct
      obtain ⟨⟨hne, _, hout⟩, ⟨hfirstChild, _⟩, hchildrenDistinct,
        hsiblingsDistinct, _⟩ := hdistinct
      obtain ⟨height, hheight, hup⟩ := hsiblings.climbs hfirst hne hclimbs
      have hchildrenThreads := ihChildren hchildren
        (List.nodup_cons.mpr ⟨hfirstChild, hchildrenDistinct⟩) hup
      have hsiblingsThreads := ihSiblings hsiblings
        (List.nodup_cons.mpr ⟨hout, hsiblingsDistinct⟩) hclimbs
      simp only [Forest.preorder, List.length_cons, List.length_append]
      refine ⟨?_, Links.Threads.append
        (hchildrenThreads.mono (by omega)) (hsiblingsThreads.mono (by omega))⟩
      cases children with
      | nil => exact .climb hchildren hup (by omega)
      | cons child _ _ => exact .child hchildren.1

/-- The links run through the pre-order of the tree and stop behind it. -/
theorem Links.Represents.threads
    {links : Links α} {tree : TreeShape α} (htree : links.Represents tree) :
    links.Threads tree.preorder.length tree.preorder none := by
  have hclimbs := Links.Climbs.root htree.parent_root
  have hthreads := htree.lists.threads htree.distinct hclimbs
  simp only [TreeShape.preorder, List.length_cons]
  refine ⟨?_, hthreads.mono (by omega)⟩
  cases hforest : tree.children with
  | nil =>
      have hempty := htree.lists
      rw [hforest] at hempty
      exact .climb hempty hclimbs (by omega)
  | cons first children siblings =>
      have hfirst := htree.lists
      rw [hforest] at hfirst
      exact .child hfirst.1

end LinuxKernelCode.SiblingTree
