import GracefulMusic.Foundation.OrderedTree
import Mathlib.Data.Nat.Log

/-! Red-black trees, and what is around one of their nodes.

A tree is `Valid` at a black height: every way down to a leaf passes that many black nodes,
and no red node has a red child. What is around a subtree is its `Context`, with the nearest
parent first; a context `Fits` a black height when a black subtree of that height may stand
in it. Both sides of a node are treated alike: `build` makes a node from the subtree on a
side and the one on the other. -/
namespace RedBlack

inductive Color where
  | red | black
  deriving DecidableEq

inductive Side where
  | left | right
  deriving DecidableEq

def Side.other : Side → Side
  | left => right
  | right => left

@[simp] theorem Side.other_other (s : Side) : s.other.other = s := by cases s <;> rfl

inductive ColorTree (α : Type*) where
  | leaf
  | node (color : Color) (left : ColorTree α) (key : α) (right : ColorTree α)

variable {α : Type*}

namespace ColorTree

/-- The in-order sequence. -/
def toList : ColorTree α → List α
  | leaf => []
  | node _ left key right => left.toList ++ key :: right.toList

/-- Without the colours. -/
def shape : ColorTree α → OrderedTree α
  | leaf => .leaf
  | node _ left key right => .node left.shape key right.shape

@[simp] theorem toList_shape (t : ColorTree α) : t.shape.toList = t.toList := by
  induction t with
  | leaf => rfl
  | node c left key right hl hr => simp [shape, OrderedTree.toList, toList, hl, hr]

/-- A leaf counts as black. -/
def color : ColorTree α → Color
  | leaf => .black
  | node c .. => c

def blacken : ColorTree α → ColorTree α
  | leaf => leaf
  | node _ left key right => node .black left key right

/-- The node with `near` on the side and `far` on the other. -/
def build (s : Side) (c : Color) (near : ColorTree α) (key : α) (far : ColorTree α) : ColorTree α :=
  match s with
  | .left => node c near key far
  | .right => node c far key near

@[simp] theorem color_build (s : Side) (c : Color) (a : ColorTree α) (k : α) (b : ColorTree α) :
    (build s c a k b).color = c := by cases s <;> rfl

theorem build_other (s : Side) (c : Color) (a : ColorTree α) (k : α) (b : ColorTree α) :
    build s.other c a k b = build s c b k a := by cases s <;> rfl

/-- Every way to a leaf passes `n` black nodes, and a red node has black children. -/
inductive Valid : Nat → ColorTree α → Prop
  | leaf : Valid 0 leaf
  | red {n left key right} : left.color = .black → right.color = .black →
      Valid n left → Valid n right → Valid n (node .red left key right)
  | black {n left key right} : Valid n left → Valid n right →
      Valid (n + 1) (node .black left key right)

variable {n : Nat} {s : Side} {a b t : ColorTree α} {k : α}

@[simp] theorem valid_leaf : Valid n (leaf : ColorTree α) ↔ n = 0 :=
  ⟨fun h => by cases h; rfl, fun h => h ▸ .leaf⟩

@[simp] theorem valid_red : Valid n (build s .red a k b) ↔
    a.color = .black ∧ b.color = .black ∧ Valid n a ∧ Valid n b := by
  constructor
  · intro h
    cases s with
    | left => cases h with | red ha hb hva hvb => exact ⟨ha, hb, hva, hvb⟩
    | right => cases h with | red hb ha hvb hva => exact ⟨ha, hb, hva, hvb⟩
  · rintro ⟨ha, hb, hva, hvb⟩
    cases s with
    | left => exact .red ha hb hva hvb
    | right => exact .red hb ha hvb hva

@[simp] theorem valid_black : Valid n (build s .black a k b) ↔
    ∃ m, n = m + 1 ∧ Valid m a ∧ Valid m b := by
  constructor
  · intro h
    cases s with
    | left => cases h with | black hva hvb => exact ⟨_, rfl, hva, hvb⟩
    | right => cases h with | black hvb hva => exact ⟨_, rfl, hva, hvb⟩
  · rintro ⟨m, rfl, hva, hvb⟩
    cases s with
    | left => exact .black hva hvb
    | right => exact .black hvb hva

/-- A node as it is seen from a side. -/
theorem eq_build (s : Side) (t : ColorTree α) : t = leaf ∨ ∃ c a k b, t = build s c a k b := by
  cases t with
  | leaf => exact .inl rfl
  | node c l k r => cases s with
    | left => exact .inr ⟨c, l, k, r, rfl⟩
    | right => exact .inr ⟨c, r, k, l, rfl⟩

/-- A valid tree with a black root. -/
def IsBalanced (t : ColorTree α) : Prop := t.color = .black ∧ ∃ n, Valid n t

theorem Valid.blacken (h : Valid n t) : IsBalanced t.blacken := by
  cases h with
  | leaf => exact ⟨rfl, 0, .leaf⟩
  | red _ _ hl hr => exact ⟨rfl, _, .black hl hr⟩
  | black hl hr => exact ⟨rfl, _, .black hl hr⟩

theorem IsBalanced.blacken (h : IsBalanced t) : t.blacken = t := by
  obtain ⟨hcolor, n, hvalid⟩ := h
  cases t with
  | leaf => rfl
  | node c l k r =>
    cases hcolor
    rfl

@[simp] theorem toList_blacken (t : ColorTree α) : t.blacken.toList = t.toList := by cases t <;> rfl

/-! ### Height -/

def height : ColorTree α → Nat
  | leaf => 0
  | node _ left _ right => max left.height right.height + 1

theorem height_le_length : t.height ≤ t.toList.length := by
  induction t with
  | leaf => exact Nat.le_refl 0
  | node c left key right hl hr =>
    simp only [height, toList, List.length_append, List.length_cons]
    omega

/-- Half of the nodes on a way down are black, at least. -/
theorem Valid.height_le (h : Valid n t) :
    t.height ≤ 2 * n + (if t.color = .red then 1 else 0) := by
  induction h with
  | leaf => simp [height]
  | red hl hr _ _ ihl ihr =>
    simp only [hl, hr] at ihl ihr
    simp only [height, color, if_true]
    simp at ihl ihr
    omega
  | black _ _ ihl ihr =>
    simp only [height, color]
    split at ihl <;> split at ihr <;> simp <;> omega

theorem Valid.size_ge (h : Valid n t) : 2 ^ n ≤ t.toList.length + 1 := by
  induction h with
  | leaf => simp [toList]
  | red _ _ _ _ ihl ihr =>
    simp only [toList, List.length_append, List.length_cons]
    omega
  | black _ _ ihl ihr =>
    simp only [toList, List.length_append, List.length_cons, pow_succ]
    omega

/-- A balanced tree is not higher than twice the logarithm of its size. -/
theorem IsBalanced.height_le (h : IsBalanced t) :
    t.height ≤ 2 * Nat.log 2 (t.toList.length + 1) := by
  obtain ⟨hcolor, n, hvalid⟩ := h
  have hheight := hvalid.height_le
  have hlog : n ≤ Nat.log 2 (t.toList.length + 1) :=
    Nat.le_log_of_pow_le (by decide) hvalid.size_ge
  simp only [hcolor] at hheight
  simp at hheight
  omega

end ColorTree

open ColorTree

/-! ### Around a subtree -/

/-- A parent, seen from the child on one side of it. -/
structure Frame (α : Type*) where
  side : Side
  color : Color
  key : α
  sibling : ColorTree α

def Frame.plug (f : Frame α) (t : ColorTree α) : ColorTree α :=
  build f.side f.color t f.key f.sibling

abbrev Context (α : Type*) := List (Frame α)

namespace Context

/-- The whole tree around a subtree. -/
def plug (t : ColorTree α) (p : Context α) : ColorTree α := p.foldl (fun t f => f.plug t) t

@[simp] theorem plug_nil (t : ColorTree α) : plug t [] = t := rfl

@[simp] theorem plug_cons (t : ColorTree α) (f : Frame α) (p : Context α) :
    plug t (f :: p) = plug (f.plug t) p := rfl

/-- What comes before the subtree in order. -/
def before : Context α → List α
  | [] => []
  | f :: p => before p ++ match f.side with
    | .left => []
    | .right => f.sibling.toList ++ [f.key]

def after : Context α → List α
  | [] => []
  | f :: p => (match f.side with
    | .left => f.key :: f.sibling.toList
    | .right => []) ++ after p

theorem toList_plug (t : ColorTree α) (p : Context α) :
    (plug t p).toList = before p ++ t.toList ++ after p := by
  induction p generalizing t with
  | nil => simp [before, after]
  | cons f p ih =>
    obtain ⟨side, c, k, sibling⟩ := f
    rw [plug_cons, ih]
    cases side <;> simp [Frame.plug, build, toList, before, after]

/-- The nearest parent is black; the root has none. -/
def TopBlack : Context α → Prop
  | [] => False
  | f :: _ => f.color = .black

/-- A black subtree of black height `n` makes a balanced tree with the path. -/
def Fits : Nat → Context α → Prop
  | _, [] => True
  | n, f :: p => Valid n f.sibling ∧ match f.color with
    | .black => Fits (n + 1) p
    | .red => f.sibling.color = .black ∧ TopBlack p ∧ Fits n p

variable {n : Nat} {t : ColorTree α} {p : Context α}

theorem balanced_plug : IsBalanced (plug t p) ↔
    ∃ n, Valid n t ∧ (t.color = .black ∨ TopBlack p) ∧ Fits n p := by
  induction p generalizing t with
  | nil => simp [IsBalanced, Fits, TopBlack, and_comm]
  | cons f p ih =>
    obtain ⟨side, c, k, sibling⟩ := f
    rw [plug_cons, ih]
    cases c with
    | red =>
      simp only [Frame.plug, valid_red, color_build, Fits, TopBlack]
      constructor
      · rintro ⟨n, ⟨ht, hs, hvt, hvs⟩, htop | htop, hp⟩
        · cases htop
        · exact ⟨n, hvt, .inl ht, hvs, hs, htop, hp⟩
      · rintro ⟨n, hvt, ht | ht, hvs, hs, htop, hp⟩
        · exact ⟨n, ⟨ht, hs, hvt, hvs⟩, .inr htop, hp⟩
        · cases ht
    | black =>
      simp only [Frame.plug, valid_black, color_build, Fits, TopBlack]
      constructor
      · rintro ⟨_, ⟨m, rfl, hvt, hvs⟩, -, hp⟩
        exact ⟨m, hvt, .inr trivial, hvs, hp⟩
      · rintro ⟨n, hvt, -, hvs, hp⟩
        exact ⟨n + 1, ⟨n, rfl, hvt, hvs⟩, .inl trivial, hp⟩

theorem length_le_height (t : ColorTree α) (p : Context α) :
    p.length + t.height ≤ (plug t p).height := by
  induction p generalizing t with
  | nil => simp
  | cons f p ih =>
    have hstep : t.height + 1 ≤ (f.plug t).height := by
      cases hs : f.side <;> simp [Frame.plug, build, hs, height]
    have hrest := ih (f.plug t)
    simp only [plug_cons, List.length_cons]
    omega

end Context
end RedBlack
