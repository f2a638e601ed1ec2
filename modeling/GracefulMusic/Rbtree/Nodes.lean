import GracefulMusic.Foundation.RedBlack

/-! Red-black trees in memory (`rbtree.c`).

A node has its parent and its colour in one word, which are two fields here. The functions
for the left and the right are one function of a side. Where a null pointer would be read
through there is no result; the loops are given a number of rounds. -/
namespace GracefulMusic.Rbtree
open RedBlack (Color Side)

structure Node (P : Type) where
  parent : Option P
  color : Color
  left : Option P
  right : Option P

variable {P : Type}

namespace Node

def child (n : Node P) : Side → Option P
  | .left => n.left
  | .right => n.right

def setChild (n : Node P) (s : Side) (c : Option P) : Node P :=
  match s with
  | .left => {n with left := c}
  | .right => {n with right := c}

def setParent (n : Node P) (parent : Option P) : Node P := {n with parent}

def setColor (n : Node P) (color : Color) : Node P := {n with color}

end Node

/-- The nodes, and `root->rb_node`. -/
structure Memory (P : Type) where
  node : P → Node P
  root : Option P

variable [DecidableEq P]

namespace Memory

def write (m : Memory P) (p : P) (n : Node P) : Memory P :=
  {m with node := Function.update m.node p n}

def child (m : Memory P) (p : P) (s : Side) : Option P := (m.node p).child s

def setChild (m : Memory P) (p : P) (s : Side) (c : Option P) : Memory P :=
  m.write p ((m.node p).setChild s c)

def rbSetParent (m : Memory P) (p : P) (parent : Option P) : Memory P :=
  m.write p ((m.node p).setParent parent)

def rbSetColor (m : Memory P) (p : P) (color : Color) : Memory P :=
  m.write p ((m.node p).setColor color)

/-- `!node || rb_is_black(node)`. -/
def isBlack (m : Memory P) (p : Option P) : Bool := p.all fun p => (m.node p).color = .black

/-- The parent of a node, or the root, points to another node instead. -/
def relink (m : Memory P) (parent : Option P) (side : P → Side) (c : Option P) : Memory P :=
  match parent with
  | some p => m.setChild p (side p) c
  | none => {m with root := c}

/-- On which side of `p` the code takes a node to be that tests for `s` first. -/
def sideOf (m : Memory P) (s : Side) (c : Option P) (p : P) : Side :=
  if m.child p s = c then s else s.other

def setParentOf (m : Memory P) (p : Option P) (parent : Option P) : Memory P :=
  match p with
  | some p => m.rbSetParent p parent
  | none => m

/-- `_rb_rotate_left` and `_rb_rotate_right`. -/
def rbRotate (s : Side) (node : P) (m : Memory P) : Option (Memory P) := do
  let right ← m.child node s.other
  let parent := (m.node node).parent
  let m := m.setChild node s.other (m.child right s)
  let m := m.setParentOf (m.child right s) (some node)
  let m := m.setChild right s (some node)
  let m := m.rbSetParent right parent
  let m := m.relink parent (m.sideOf s (some node)) (some right)
  some (m.rbSetParent node (some right))

def rbLinkNode (m : Memory P) (node : P) (link : Option (P × Side)) : Memory P :=
  let m := m.write node ⟨link.map Prod.fst, .red, none, none⟩
  match link with
  | some (parent, s) => m.setChild parent s (some node)
  | none => {m with root := some node}

/-- `rb_set_black(root->rb_node)`. -/
def blackenRoot (m : Memory P) : Option (Memory P) := m.root.map fun p => m.rbSetColor p .black

/-- The rotations of `rb_insert_color` under a grandparent on whose side `s` the parent is. -/
def insertRotate (s : Side) (node parent gparent : P) (m : Memory P) : Option (P × Memory P) := do
  let (node, parent, m) ←
    if m.child parent s.other = some node then
      (m.rbRotate s parent).map fun m => (parent, node, m)
    else some (node, parent, m)
  let m := m.rbSetColor parent .black
  let m := m.rbSetColor gparent .red
  (m.rbRotate s.other gparent).map fun m => (node, m)

def rbInsertColor : Nat → P → Memory P → Option (Memory P)
  | 0, _, _ => none
  | rounds + 1, node, m =>
    match (m.node node).parent with
    | none => m.blackenRoot
    | some parent =>
      if (m.node parent).color = .black then m.blackenRoot
      else do
        let gparent ← (m.node parent).parent
        let s := m.sideOf .left (some parent) gparent
        let uncle := m.child gparent s.other
        match uncle.filter fun u => (m.node u).color = .red with
        | some uncle =>
          let m := m.rbSetColor uncle .black
          let m := m.rbSetColor parent .black
          let m := m.rbSetColor gparent .red
          rbInsertColor rounds gparent m
        | none => do
          let (node, m) ← m.insertRotate s node parent gparent
          rbInsertColor rounds node m

/-- `rb_set_black` of a child that is taken to be there. -/
def blackenChild (m : Memory P) (p : P) (s : Side) : Option (Memory P) :=
  (m.child p s).map fun c => m.rbSetColor c .black

/-- The rotations at the end of `_rb_erase_color`: `node` was on side `s` of its parent. -/
def eraseRotate (s : Side) (parent other : P) (m : Memory P) : Option (Memory P) := do
  let (other, m) ←
    if m.isBlack (m.child other s.other) then do
      let m ← m.blackenChild other s
      let m := m.rbSetColor other .red
      let m ← m.rbRotate s.other other
      let other ← m.child parent s.other
      some (other, m)
    else some (other, m)
  let m := m.rbSetColor other (m.node parent).color
  let m := m.rbSetColor parent .black
  let m ← m.blackenChild other s.other
  m.rbRotate s parent

/-- A red sibling: its near child is the sibling after a rotation. -/
def eraseSibling (s : Side) (parent other : P) (m : Memory P) : Option (P × Memory P) :=
  if (m.node other).color = .red then do
    let m := m.rbSetColor other .black
    let m := m.rbSetColor parent .red
    let m ← m.rbRotate s parent
    let other ← m.child parent s.other
    some (other, m)
  else some (other, m)

/-- A black sibling: without red children it becomes red, and the loop goes on at the parent;
otherwise the rotations end it. -/
def eraseBlack (loop : Option P → Option P → Memory P → Option (Option P × Memory P)) (s : Side)
    (parent other : P) (m : Memory P) : Option (Option P × Memory P) :=
  if m.isBlack (m.child other .left) ∧ m.isBlack (m.child other .right) then
    let m := m.rbSetColor other .red
    loop (some parent) (m.node parent).parent m
  else (m.eraseRotate s parent other).map fun m => (m.root, m)

/-- The loop of `_rb_erase_color`, with the `node` that it ends at. -/
def eraseLoop : Nat → Option P → Option P → Memory P → Option (Option P × Memory P)
  | 0, _, _, _ => none
  | rounds + 1, node, parent, m =>
    if m.isBlack node ∧ node ≠ m.root then do
      let parent ← parent
      let s := m.sideOf .left node parent
      let other ← m.child parent s.other
      let (other, m) ← m.eraseSibling s parent other
      m.eraseBlack (eraseLoop rounds) s parent other
    else some (node, m)

/-- `if (node) rb_set_black(node)`. -/
def blackenNode (node : Option P) (m : Memory P) : Memory P :=
  match node with
  | some p => m.rbSetColor p .black
  | none => m

def rbEraseColor (rounds : Nat) (node parent : Option P) (m : Memory P) : Option (Memory P) :=
  (eraseLoop rounds node parent m).map fun r => r.2.blackenNode r.1

/-- `while (n->rb_left) n = n->rb_left`, or to the right. -/
def farthest (s : Side) (m : Memory P) : Nat → P → Option P
  | 0, _ => none
  | rounds + 1, p =>
    match m.child p s with
    | some c => farthest s m rounds c
    | none => some p

/-- The parent, the colour and the left child of the old node become those of the new one. -/
def takePlace (old node : P) (m : Memory P) : Option (Memory P) := do
  let m := m.write node (((m.node node).setParent (m.node old).parent).setColor (m.node old).color)
  let m := m.setChild node .left (m.node old).left
  let left ← (m.node old).left
  some (m.rbSetParent left (some node))

/-- A node with two children: the next node takes its place. What is left to do is said by the
colour of the node that is gone from its place, its only child and the parent of that. -/
def replaceByNext (rounds : Nat) (old right : P) (m : Memory P) :
    Option (Option P × Option P × Color × Memory P) := do
  let node ← m.farthest .left rounds right
  let m := m.relink (m.node old).parent (m.sideOf .left (some old)) (some node)
  let child := (m.node node).right
  let parent := (m.node node).parent
  let color := (m.node node).color
  if parent = some old then
    (m.takePlace old node).map fun m => (child, some node, color, m)
  else do
    let p ← parent
    let m := m.setParentOf child parent
    let m := m.setChild p .left child
    let m := m.setChild node .right (m.node old).right
    let right ← (m.node old).right
    ((m.rbSetParent right (some node)).takePlace old node).map fun m => (child, parent, color, m)

/-- A node with at most one child: that takes its place. -/
def replaceByChild (node : P) (child : Option P) (m : Memory P) :
    Option P × Option P × Color × Memory P :=
  let parent := (m.node node).parent
  let color := (m.node node).color
  let m := m.setParentOf child parent
  (child, parent, color, m.relink parent (m.sideOf .left (some node)) child)

/-- `rb_erase` up to the label `color`. -/
def unlink (rounds : Nat) (node : P) (m : Memory P) :
    Option (Option P × Option P × Color × Memory P) :=
  match (m.node node).left, (m.node node).right with
  | none, child => some (m.replaceByChild node child)
  | child, none => some (m.replaceByChild node child)
  | some _, some right => m.replaceByNext rounds node right

def rbErase (rounds : Nat) (node : P) (m : Memory P) : Option (Memory P) :=
  (m.unlink rounds node).bind fun (child, parent, color, m) =>
    if color = .black then m.rbEraseColor rounds child parent else some m

/-! ### Walking -/

/-- `rb_first` (to the left) and `rb_last`: nothing for an empty tree. -/
def rbEnd (s : Side) (rounds : Nat) (m : Memory P) : Option (Option P) :=
  match m.root with
  | none => some none
  | some p => (m.farthest s rounds p).map some

def rbFirst (rounds : Nat) (m : Memory P) : Option (Option P) := m.rbEnd .left rounds

def rbLast (rounds : Nat) (m : Memory P) : Option (Option P) := m.rbEnd .right rounds

/-- Up to the first node that is not on side `s` of its parent, and to that parent. -/
def climb (s : Side) (m : Memory P) : Nat → P → Option (Option P)
  | 0, _ => none
  | rounds + 1, p =>
    match (m.node p).parent with
    | none => some none
    | some parent =>
      if m.child parent s = some p then climb s m rounds parent else some (some parent)

/-- `rb_next` (to the right) and `rb_prev`. -/
def rbStep (s : Side) (rounds : Nat) (m : Memory P) (p : P) : Option (Option P) :=
  if (m.node p).parent = some p then some none
  else
    match m.child p s with
    | some c => (m.farthest s.other rounds c).map some
    | none => m.climb s rounds p

def rbNext (rounds : Nat) (m : Memory P) (p : P) : Option (Option P) := m.rbStep .right rounds p

def rbPrev (rounds : Nat) (m : Memory P) (p : P) : Option (Option P) := m.rbStep .left rounds p

/-- What the body of `for (pos = first; pos; pos = step(pos))` sees, from a node on. -/
def visit (step : P → Option (Option P)) : Nat → Option P → Option (List P)
  | 0, _ => none
  | _ + 1, none => some []
  | rounds + 1, some pos => do
    let next ← step pos
    (visit step rounds next).map (pos :: ·)

/-- `rb_for_each`. -/
def rbForEach (rounds : Nat) (m : Memory P) : Option (List P) :=
  (m.rbFirst rounds).bind (visit (m.rbNext rounds) rounds)

/-- `rb_for_each_prev`. -/
def rbForEachPrev (rounds : Nat) (m : Memory P) : Option (List P) :=
  (m.rbLast rounds).bind (visit (m.rbPrev rounds) rounds)

def rbReplaceNode (victim new : P) (m : Memory P) : Memory P :=
  let parent := (m.node victim).parent
  let m := m.relink parent (m.sideOf .left (some victim)) (some new)
  let m := m.setParentOf (m.node victim).left (some new)
  let m := m.setParentOf (m.node victim).right (some new)
  m.write new (m.node victim)

/-! ### Searching -/

/-- Where a search ends: at a node that it takes to be equal, or at an empty place. -/
inductive Place (P : Type) where
  | taken (p : P)
  | free (link : Option (P × Side))

/-- The search before a node is linked; `link` is where the place `cur` was read from. -/
def search (probe : P → Int) (m : Memory P) :
    Nat → Option (P × Side) → Option P → Option (Place P)
  | 0, _, _ => none
  | rounds + 1, link, cur =>
    match cur with
    | none => some (.free link)
    | some p =>
      if probe p < 0 then search probe m rounds (some (p, .left)) (m.child p .left)
      else if probe p > 0 then search probe m rounds (some (p, .right)) (m.child p .right)
      else some (.taken p)

/-- What the callers do to add a node: search its place, link it, `rb_insert_color`. The
node that is found to be equal is handed back. -/
def rbInsert (rounds : Nat) (probe : P → Int) (node : P) (m : Memory P) :
    Option (Option P × Memory P) := do
  match ← m.search probe rounds none m.root with
  | .taken p => some (some p, m)
  | .free link => do
    let m ← (m.rbLinkNode node link).rbInsertColor rounds node
    some (none, m)

end Memory
end GracefulMusic.Rbtree
