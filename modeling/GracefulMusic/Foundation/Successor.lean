import Mathlib.Data.List.Rotate
import GracefulMusic.Foundation.OrderedTree
import GracefulMusic.Foundation.Sequence

/-! Neighbours in the in-order sequence of a tree: linking an element directly behind
another one, whatever the tree is ordered by, and walking the sequence round and round. -/

namespace OrderedTree
variable {α : Type*}

/-- Hang an element where the descent to the left ends. -/
def attachFirst (x : α) : OrderedTree α → OrderedTree α
  | leaf => node leaf x leaf
  | node left key right => node (left.attachFirst x) key right

/-- Hang an element to the right of another one, where the descent to the left ends. -/
def attachAfter [DecidableEq α] (previous x : α) : OrderedTree α → OrderedTree α
  | leaf => leaf
  | node left key right =>
    if key = previous then node left key (right.attachFirst x)
    else if previous ∈ left.toList then node (left.attachAfter previous x) key right
    else node left key (right.attachAfter previous x)

theorem toList_attachFirst (x : α) (t : OrderedTree α) :
    (t.attachFirst x).toList = x :: t.toList := by
  induction t with
  | leaf => rfl
  | node left key right hl _ =>
    rw [attachFirst, toList, hl, toList, List.cons_append]

theorem toList_attachAfter [DecidableEq α] {previous : α} (x : α) {t : OrderedTree α}
    (h : previous ∈ t.toList) : ∃ front back, t.toList = front ++ previous :: back ∧
      (t.attachAfter previous x).toList = front ++ previous :: x :: back := by
  induction t with
  | leaf => cases h
  | node left key right hl hr =>
    rw [attachAfter]
    by_cases hkey : key = previous
    · subst hkey
      rw [if_pos rfl]
      exact ⟨left.toList, right.toList, rfl, by rw [toList, toList_attachFirst]⟩
    · rw [if_neg hkey]
      by_cases hleft : previous ∈ left.toList
      · obtain ⟨front, back, hsplit, hattach⟩ := hl hleft
        rw [if_pos hleft]
        exact ⟨front, back ++ key :: right.toList, by simp [toList, hsplit],
          by simp [toList, hattach]⟩
      · have hright : previous ∈ right.toList := by
          rw [toList, List.mem_append, List.mem_cons] at h
          obtain h | h | h := h
          · exact absurd h hleft
          · exact absurd h.symm hkey
          · exact h
        obtain ⟨front, back, hsplit, hattach⟩ := hr hright
        rw [if_neg hleft]
        exact ⟨left.toList ++ key :: front, back, by simp [toList, hsplit],
          by simp [toList, hattach]⟩

end OrderedTree

namespace Sequence
variable {α : Type*}

/-- The cells behind a cell. -/
def behind [DecidableEq α] (l : List α) (a : α) : List α := (l.dropWhile (· ≠ a)).tail

/-- A way round a list: `step` leads from each cell to the next one, from the last one to
the first. -/
def Circular (l : List α) (step : α → Option α) : Prop :=
  ∀ (i : Nat) (h : i < l.length), step l[i] = l[(i + 1) % l.length]?

/-- The way back. -/
def CircularBack (l : List α) (back : α → Option α) : Prop :=
  ∀ (i : Nat) (h : i < l.length) (a : α), l[(i + 1) % l.length]? = some a → back a = some l[i]

theorem circular_inverse {l : List α} {step back : α → Option α} (h : Circular l step)
    (hback : CircularBack l back) {a : α} (ha : a ∈ l) :
    (step a).bind back = some a ∧ (back a).bind step = some a := by
  obtain ⟨i, hi, rfl⟩ := List.mem_iff_getElem.mp ha
  have hpos : 0 < l.length := Nat.zero_lt_of_lt hi
  constructor
  · have hnext := List.getElem?_eq_getElem (Nat.mod_lt (i + 1) hpos)
    rw [h i hi, hnext]
    exact hback i hi _ hnext
  · -- the cell in front
    have hj : (i + l.length - 1) % l.length < l.length := Nat.mod_lt _ hpos
    have hsucc : ((i + l.length - 1) % l.length + 1) % l.length = i := by
      rw [Nat.mod_add_mod, show i + l.length - 1 + 1 = i + l.length from by omega,
        Nat.add_mod_right, Nat.mod_eq_of_lt hi]
    have hstep := h _ hj
    have hprev := hback _ hj l[i]
    rw [hsucc] at hstep hprev
    rw [hprev (List.getElem?_eq_getElem hi), Option.bind_some, hstep, List.getElem?_eq_getElem hi]

/-- Iterated steps. -/
def walk (step : α → Option α) : Nat → α → Option α
  | 0, a => some a
  | n + 1, a => (walk step n a).bind step

theorem walk_circular {l : List α} {step : α → Option α} (h : Circular l step) {i : Nat}
    (hi : i < l.length) (n : Nat) : walk step n l[i] = l[(i + n) % l.length]? := by
  induction n with
  | zero => rw [walk, Nat.add_zero, Nat.mod_eq_of_lt hi, List.getElem?_eq_getElem hi]
  | succ n ih =>
    have hlt : (i + n) % l.length < l.length := Nat.mod_lt _ (Nat.zero_lt_of_lt hi)
    rw [walk, ih, List.getElem?_eq_getElem hlt, Option.bind_some, h _ hlt, Nat.mod_add_mod,
      Nat.add_assoc]

/-- A way round comes by every cell once before it is back. -/
theorem circular_visits {l : List α} {step : α → Option α} (h : Circular l step) {a : α}
    (ha : a ∈ l) :
    ∃ visited : List α, visited.Perm l ∧
      (∀ n (hn : n < visited.length), walk step n a = some visited[n]) ∧
      walk step visited.length a = some a := by
  obtain ⟨i, hi, rfl⟩ := List.mem_iff_getElem.mp ha
  refine ⟨l.rotate i, List.rotate_perm l i, ?_, ?_⟩
  · intro n hn
    rw [walk_circular h hi, ← List.getElem?_eq_getElem hn,
      List.getElem?_rotate (by rwa [List.length_rotate] at hn), Nat.add_comm]
  · rw [walk_circular h hi, List.length_rotate, Nat.add_mod_right, Nat.mod_eq_of_lt hi,
      List.getElem?_eq_getElem hi]

variable [DecidableEq α] {l : List α}

theorem behind_split {a : α} {front back : List α} (hl : l = front ++ a :: back)
    (h : a ∉ front) : behind l a = back := by
  rw [hl, behind, dropWhile_split back h, List.tail_cons]

theorem behind_map {β : Type*} [DecidableEq β] {f : α → β} (hf : Function.Injective f)
    (l : List α) (a : α) : behind (l.map f) (f a) = (behind l a).map f := by
  simp [behind, List.dropWhile_map, Function.comp_def, hf.eq_iff]

theorem before_split {a : α} {front back : List α} (hl : l = front ++ a :: back)
    (h : a ∉ front) : before l a = front := by
  rw [hl]
  exact takeWhile_split back h

omit [DecidableEq α] in
theorem getElem_filter_split {p : α → Bool} (hl : l.Nodup) {i : Nat}
    (hi : i < (l.filter p).length) :
    ∃ front back, l = front ++ (l.filter p)[i] :: back ∧ (l.filter p)[i] ∉ front ∧
      (front.filter p).length = i ∧ l.filter p = front.filter p ++ (l.filter p)[i] :: back.filter p := by
  have hmem : (l.filter p)[i] ∈ l.filter p := List.getElem_mem hi
  obtain ⟨front, back, hsplit⟩ := List.append_of_mem (List.mem_of_mem_filter hmem)
  have hfront : (l.filter p)[i] ∉ front := fun h =>
    (List.nodup_middle.mp (hsplit ▸ hl)).notMem (List.mem_append_left _ h)
  have hfilter : l.filter p = front.filter p ++ (l.filter p)[i] :: back.filter p := by
    conv_lhs => rw [hsplit]
    rw [List.filter_append, List.filter_cons_of_pos (List.mem_filter.mp hmem).2]
  refine ⟨front, back, hsplit, hfront, ?_, hfilter⟩
  have hlt : (front.filter p).length < (l.filter p).length := by
    rw [hfilter, List.length_append, List.length_cons]
    omega
  have hsame : (l.filter p)[(front.filter p).length] = (l.filter p)[i] := by
    conv_lhs => rw [List.getElem_of_eq hfilter hlt]
    simp
  exact (hl.filter p).getElem_inj_iff.mp hsame

/-- The next cell that passes, or else the first one. -/
theorem find_circular {p : α → Bool} (hl : l.Nodup) :
    Circular (l.filter p) fun a => ((behind l a).find? p).or (l.find? p) := by
  intro i hi
  obtain ⟨front, back, hsplit, hfront, hlength, hfilter⟩ := getElem_filter_split hl hi
  have htotal : (l.filter p).length = i + 1 + (back.filter p).length := by
    rw [hfilter, List.length_append, List.length_cons, hlength]
    omega
  have hget (j : Nat) : (l.filter p)[i + 1 + j]? = (back.filter p)[j]? := by
    rw [hfilter, List.getElem?_append_right (by omega), hlength,
      show i + 1 + j - i = j + 1 from by omega, List.getElem?_cons_succ]
  beta_reduce
  rw [behind_split hsplit hfront, ← List.head?_filter, ← List.head?_filter]
  cases hback : back.filter p with
  | nil =>
    rw [hback, List.length_nil] at htotal
    rw [List.head?_nil, Option.none_or, List.head?_eq_getElem?, ← htotal, Nat.mod_self]
  | cons b rest =>
    rw [hback, List.length_cons] at htotal
    have hb := hget 0
    rw [hback] at hb
    rw [Nat.mod_eq_of_lt (by omega)]
    exact hb.symm

/-- The passing cell in front, or else the last one. -/
theorem find_circularBack {p : α → Bool} (hl : l.Nodup) :
    CircularBack (l.filter p) fun a => ((before l a).reverse.find? p).or (l.reverse.find? p) := by
  intro i hi a ha
  have hpos : 0 < (l.filter p).length := Nat.zero_lt_of_lt hi
  have hj : (i + 1) % (l.filter p).length < (l.filter p).length := Nat.mod_lt _ hpos
  have ha' : (l.filter p)[(i + 1) % (l.filter p).length] = a :=
    Option.some.inj ((List.getElem?_eq_getElem hj).symm.trans ha)
  obtain ⟨front, back, hsplit, hfront, hlength, hfilter⟩ := getElem_filter_split hl hj
  beta_reduce
  rw [← ha', before_split hsplit hfront, ← List.head?_filter, ← List.head?_filter,
    List.filter_reverse, List.filter_reverse, List.head?_reverse, List.head?_reverse, ← List.getElem?_eq_getElem]
  by_cases hlast : i + 1 = (l.filter p).length
  · rw [hlast, Nat.mod_self] at hlength
    rw [List.eq_nil_of_length_eq_zero hlength, List.getLast?_nil, Option.none_or,
      List.getLast?_eq_getElem?, ← hlast, Nat.add_sub_cancel]
  · rw [Nat.mod_eq_of_lt (by omega)] at hlength
    have hget : (l.filter p)[i]? = (front.filter p)[i]? := by
      rw [hfilter, List.getElem?_append_left (by omega)]
    rw [hget, List.getLast?_eq_getElem?, hlength, Nat.add_sub_cancel,
      List.getElem?_eq_getElem (by omega)]
    rfl

end Sequence
