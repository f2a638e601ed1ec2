import Mathlib.Algebra.BigOperators.Group.List.Basic
import Mathlib.Algebra.Order.Ring.Int
import Mathlib.Data.List.DropRight
import Mathlib.Data.List.Infix
import Mathlib.Data.List.Induction
import Mathlib.Data.List.Nodup
import Mathlib.Data.List.TakeWhile

/-! Binary search trees through a probe.

A search compares the sought key with the elements on its way: `probe a` is negative
where the key comes before `a`, positive where it comes after, zero where they are
equal. Nothing here asks the tree to be balanced or even sorted; what a search does
to the in-order sequence is stated for every tree, and then for one whose
sequence is graded by the probe (`attach_split`).

A balancing discipline enters only as `Balancing`: it may rebuild the tree, and it
keeps the in-order sequence. -/

inductive OrderedTree (α : Type*) where
  | leaf
  | node (left : OrderedTree α) (key : α) (right : OrderedTree α)

namespace OrderedTree
variable {α : Type*}

/-- The in-order sequence. -/
def toList : OrderedTree α → List α
  | leaf => []
  | node left key right => left.toList ++ key :: right.toList

def isEmpty : OrderedTree α → Bool
  | leaf => true
  | node .. => false

theorem isEmpty_iff (t : OrderedTree α) : t.isEmpty = true ↔ t.toList = [] := by
  cases t <;> simp [isEmpty, toList]

/-- A tree with a given in-order sequence. -/
def ofList : List α → OrderedTree α
  | [] => leaf
  | a :: rest => node leaf a (ofList rest)

@[simp] theorem toList_ofList (l : List α) : (ofList l).toList = l := by
  induction l with
  | nil => rfl
  | cons a rest ih => simp [ofList, toList, ih]

/-- Rename the elements, keeping the shape. -/
def map (f : α → α) : OrderedTree α → OrderedTree α
  | leaf => leaf
  | node left key right => node (left.map f) (f key) (right.map f)

@[simp] theorem toList_map (f : α → α) (t : OrderedTree α) : (t.map f).toList = t.toList.map f := by
  induction t with
  | leaf => rfl
  | node left key right hl hr => simp [map, toList, hl, hr]

/-! ### Search -/

/-- The element a search stops at: the first one on the path that probes to zero. -/
def locate (probe : α → Int) : OrderedTree α → Option α
  | leaf => none
  | node left key right =>
    if probe key < 0 then left.locate probe
    else if probe key > 0 then right.locate probe
    else some key

/-- The last element a search that reaches a leaf compares with, and how it compared. -/
def lastProbed (probe : α → Int) : OrderedTree α → Option (α × Int)
  | leaf => none
  | node left key right =>
    if probe key < 0 then (left.lastProbed probe).or (some (key, probe key))
    else if probe key > 0 then (right.lastProbed probe).or (some (key, probe key))
    else none

/-- Hang a new element where the search reaches a leaf. -/
def attach (probe : α → Int) (x : α) : OrderedTree α → OrderedTree α
  | leaf => node leaf x leaf
  | node left key right =>
    if probe key < 0 then node (left.attach probe x) key right
    else if probe key > 0 then node left key (right.attach probe x)
    else node left key right

variable {probe : α → Int}

theorem locate_mem {t : OrderedTree α} {a : α} (h : t.locate probe = some a) :
    a ∈ t.toList ∧ probe a = 0 := by
  induction t with
  | leaf => cases h
  | node left key right hl hr =>
    simp only [locate] at h
    split at h
    · exact ⟨by simp [toList, (hl h).1], (hl h).2⟩
    · split at h
      · exact ⟨by simp [toList, (hr h).1], (hr h).2⟩
      · cases h
        exact ⟨by simp [toList], by omega⟩

theorem locate_eq_none {t : OrderedTree α} (h : ∀ a ∈ t.toList, probe a ≠ 0) :
    t.locate probe = none := by
  cases hl : t.locate probe with
  | none => rfl
  | some a => exact absurd (locate_mem hl).2 (h a (locate_mem hl).1)

/-! ### Graded sequences -/

/-- The probe does not come back: once it is not positive it is negative from there
on, and where it is not negative it was positive all along. -/
def Graded (probe : α → Int) (l : List α) : Prop :=
  l.Pairwise fun a b => (probe a ≤ 0 → probe b < 0) ∧ (0 ≤ probe b → 0 < probe a)

/-- Where a new element lands in the in-order sequence, for any tree: the element
probed last is its neighbour, after it when it probed negative and before it when
positive. In a graded sequence this is the element's place: everything before it
probes positive, everything after it negative. -/
theorem attach_split (x : α) {t : OrderedTree α} (h : t.locate probe = none) :
    ∃ front back, t.toList = front ++ back ∧ (t.attach probe x).toList = front ++ x :: back ∧
      (match t.lastProbed probe with
        | none => front = [] ∧ back = []
        | some (a, r) => (r < 0 ∧ back.head? = some a) ∨ (0 < r ∧ front.getLast? = some a)) ∧
      (Graded probe t.toList → (∀ a ∈ front, 0 < probe a) ∧ ∀ b ∈ back, probe b < 0) := by
  induction t with
  | leaf => exact ⟨[], [], rfl, rfl, ⟨rfl, rfl⟩, by simp⟩
  | node left key right hl hr =>
    simp only [locate] at h
    by_cases hlt : probe key < 0
    · rw [if_pos hlt] at h
      obtain ⟨front, back, hsplit, hattach, hlast, hgraded⟩ := hl h
      refine ⟨front, back ++ key :: right.toList, by simp [toList, hsplit],
        by simp [attach, toList, hlt, hattach], ?_, fun hg => ?_⟩
      · simp only [lastProbed, if_pos hlt]
        cases hp : left.lastProbed probe with
        | none =>
          rw [hp] at hlast
          exact .inl ⟨hlt, by simp [hlast.2]⟩
        | some p =>
          rw [hp] at hlast
          rcases hlast with ⟨hneg, hhead⟩ | ⟨hpos, hget⟩
          · exact .inl ⟨hneg, by simp [List.head?_append, hhead]⟩
          · exact .inr ⟨hpos, hget⟩
      · simp only [toList, Graded, List.pairwise_append, List.pairwise_cons] at hg
        obtain ⟨hgl, ⟨hkey, _⟩, _⟩ := hg
        refine ⟨(hgraded hgl).1, fun b hb => ?_⟩
        rcases List.mem_append.mp hb with hb | hb
        · exact (hgraded hgl).2 b hb
        · rcases List.mem_cons.mp hb with rfl | hb
          · exact hlt
          · exact (hkey b hb).1 (Int.le_of_lt hlt)
    · rw [if_neg hlt] at h
      by_cases hgt : probe key > 0
      · rw [if_pos hgt] at h
        obtain ⟨front, back, hsplit, hattach, hlast, hgraded⟩ := hr h
        refine ⟨left.toList ++ key :: front, back, by simp [toList, hsplit],
          by simp [attach, toList, hlt, hgt, hattach], ?_, fun hg => ?_⟩
        · simp only [lastProbed, if_neg hlt, if_pos hgt]
          cases hp : right.lastProbed probe with
          | none =>
            rw [hp] at hlast
            exact .inr ⟨hgt, by simp [hlast.1]⟩
          | some p =>
            rw [hp] at hlast
            rcases hlast with ⟨hneg, hhead⟩ | ⟨hpos, hget⟩
            · exact .inl ⟨hneg, hhead⟩
            · exact .inr ⟨hpos, by simp [List.getLast?_append, List.getLast?_cons, hget]⟩
        · simp only [toList, Graded, List.pairwise_append, List.pairwise_cons, List.mem_cons] at hg
          obtain ⟨_, ⟨_, hgr⟩, hcross⟩ := hg
          refine ⟨fun a ha => ?_, (hgraded hgr).2⟩
          rcases List.mem_append.mp ha with ha | ha
          · exact (hcross a ha key (.inl rfl)).2 (Int.le_of_lt hgt)
          · rcases List.mem_cons.mp ha with rfl | ha
            · exact hgt
            · exact (hgraded hgr).1 a ha
      · rw [if_neg hgt] at h
        cases h

/-! ### Balancing -/

/-- A balancing discipline: what is done to a tree after an element was hung on it,
and how an element is taken out. Both may rebuild the tree; in order they are the
identity and the removal of the element. -/
structure Balancing (α : Type*) [DecidableEq α] where
  rebalance : OrderedTree α → OrderedTree α
  remove : OrderedTree α → α → OrderedTree α
  toList_rebalance : ∀ t, (rebalance t).toList = t.toList
  toList_remove : ∀ t a, (remove t a).toList = t.toList.erase a

/-- No balancing: new elements stay where they were hung, removal rebuilds. -/
def Balancing.none [DecidableEq α] : Balancing α where
  rebalance t := t
  remove t a := ofList (t.toList.erase a)
  toList_rebalance _ := rfl
  toList_remove _ _ := toList_ofList _

end OrderedTree
