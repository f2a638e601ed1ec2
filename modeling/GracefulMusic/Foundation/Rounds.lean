import GracefulMusic.Foundation.Rows
import GracefulMusic.Foundation.Successor

/-! Ways round rows of rows.

Who goes through the rows of all owners one after the other needs no list of all members: the
next member is in the row, or else it is the first one of the next row. Where no row is
empty, that is the next one of all members. -/

namespace Sequence
variable {α : Type*} [DecidableEq α] {l : List α}

/-- The cell behind a cell, and behind the last one the first. -/
def next (l : List α) (a : α) : Option α := (after l a).or l.head?

/-- The cell in front of a cell, and in front of the first one the last. -/
def prev (l : List α) (a : α) : Option α := (before l a).getLast?.or l.getLast?

omit [DecidableEq α] in
theorem find_true (l : List α) : l.find? (fun _ => true) = l.head? := by
  cases l <;> rfl

theorem next_circular (hl : l.Nodup) : Circular l (next l) := by
  have h := find_circular (p := fun _ => true) hl
  simp only [List.filter_true, find_true] at h
  exact h

theorem prev_circularBack (hl : l.Nodup) : CircularBack l (prev l) := by
  have h := find_circularBack (p := fun _ => true) hl
  simp only [List.filter_true, find_true, List.head?_reverse] at h
  exact h

omit [DecidableEq α] in
/-- Only what a step does in the list matters. -/
theorem Circular.congr {step step' : α → Option α} (h : Circular l step)
    (heq : ∀ a ∈ l, step' a = step a) : Circular l step' := fun i hi => by
  rw [heq _ (List.getElem_mem hi), h i hi]

omit [DecidableEq α] in
theorem CircularBack.congr {back back' : α → Option α} (h : CircularBack l back)
    (heq : ∀ a ∈ l, back' a = back a) : CircularBack l back' := fun i hi a ha => by
  rw [heq a (List.mem_of_getElem? ha), h i hi a ha]

end Sequence

namespace Rows
open Sequence

variable {α β : Type*} {owners : List α} {row : α → List β} {owner : β → α}

/-! ### The ends -/

theorem head?_flatMap (hfull : ∀ a ∈ owners, row a ≠ []) :
    (owners.flatMap row).head? = owners.head?.bind fun a => (row a).head? := by
  cases owners with
  | nil => rfl
  | cons a owners =>
    obtain ⟨b, rest, hrow⟩ := List.exists_cons_of_ne_nil (hfull a List.mem_cons_self)
    simp [hrow]

theorem getLast?_flatMap (hfull : ∀ a ∈ owners, row a ≠ []) :
    (owners.flatMap row).getLast? = owners.getLast?.bind fun a => (row a).getLast? := by
  induction owners using List.reverseRecOn with
  | nil => rfl
  | append_singleton owners a ih =>
    have hrow := hfull a (by simp)
    simp [List.getLast?_append, List.getLast?_eq_some_getLast hrow]

/-! ### Neighbours -/

variable [DecidableEq α] [DecidableEq β] {b : β}

omit [DecidableEq α] [DecidableEq β] in
/-- A member is in front of and behind its neighbours in the row, and in between the rows
before and after. -/
theorem Linked.split (h : Linked owners row owner) (howners : owners.Nodup)
    (hb : b ∈ owners.flatMap row) :
    ∃ front back left right, owners = front ++ owner b :: back ∧ owner b ∉ front ∧
      row (owner b) = left ++ b :: right ∧ b ∉ left ∧
      owners.flatMap row = (front.flatMap row ++ left) ++ b :: (right ++ back.flatMap row) ∧
      b ∉ front.flatMap row ++ left := by
  obtain ⟨howner, hrow⟩ := h.owner_mem hb
  obtain ⟨front, back, hsplit⟩ := List.append_of_mem howner
  obtain ⟨left, right, hleft⟩ := List.append_of_mem hrow
  have hall : owners.flatMap row = (front.flatMap row ++ left) ++ b :: (right ++ back.flatMap row) := by
    conv_lhs => rw [hsplit]
    simp [hleft]
  have hnodup := h.members_nodup howners
  rw [hall] at hnodup
  have hnot := fun hmem => (List.nodup_middle.mp hnodup).notMem (List.mem_append_left _ hmem)
  refine ⟨front, back, left, right, hsplit, ?_, hleft, fun hmem => hnot (List.mem_append_right _ hmem),
    hall, hnot⟩
  exact fun hmem => (List.nodup_middle.mp (hsplit ▸ howners)).notMem (List.mem_append_left _ hmem)

theorem Linked.after_flatMap (h : Linked owners row owner) (howners : owners.Nodup)
    (hfull : ∀ a ∈ owners, row a ≠ []) (hb : b ∈ owners.flatMap row) :
    after (owners.flatMap row) b = (after (row (owner b)) b).or
      ((after owners (owner b)).bind fun a => (row a).head?) := by
  obtain ⟨front, back, left, right, hsplit, hfront, hrow, hleft, hall, hnot⟩ := h.split howners hb
  have hback : ∀ a ∈ back, row a ≠ [] := fun a ha => hfull a (by simp [hsplit, ha])
  rw [hall, after_split _ hnot, hrow, after_split _ hleft, List.head?_append, head?_flatMap hback]
  rw [hsplit, after_split _ hfront]

theorem Linked.before_flatMap (h : Linked owners row owner) (howners : owners.Nodup)
    (hfull : ∀ a ∈ owners, row a ≠ []) (hb : b ∈ owners.flatMap row) :
    (before (owners.flatMap row) b).getLast? = (before (row (owner b)) b).getLast?.or
      ((before owners (owner b)).getLast?.bind fun a => (row a).getLast?) := by
  obtain ⟨front, back, left, right, hsplit, hfront, hrow, hleft, hall, hnot⟩ := h.split howners hb
  have hearlier : ∀ a ∈ front, row a ≠ [] := fun a ha => hfull a (by simp [hsplit, ha])
  rw [before_split hall hnot, before_split hrow hleft, before_split hsplit hfront,
    List.getLast?_append, getLast?_flatMap hearlier]

/-- The next member round all rows. -/
theorem Linked.next_flatMap (h : Linked owners row owner) (howners : owners.Nodup)
    (hfull : ∀ a ∈ owners, row a ≠ []) (hb : b ∈ owners.flatMap row) :
    next (owners.flatMap row) b =
      match after (row (owner b)) b with
      | some c => some c
      | none =>
        match after owners (owner b) with
        | some a => (row a).head?
        | none => owners.head?.bind fun a => (row a).head? := by
  rw [next, h.after_flatMap howners hfull hb, head?_flatMap hfull]
  cases after (row (owner b)) b with
  | some c => rfl
  | none =>
    cases hafter : after owners (owner b) with
    | some a => simp [List.head?_eq_some_head (hfull a (mem_of_after hafter))]
    | none => rfl

theorem Linked.prev_flatMap (h : Linked owners row owner) (howners : owners.Nodup)
    (hfull : ∀ a ∈ owners, row a ≠ []) (hb : b ∈ owners.flatMap row) :
    prev (owners.flatMap row) b =
      match (before (row (owner b)) b).getLast? with
      | some c => some c
      | none =>
        match (before owners (owner b)).getLast? with
        | some a => (row a).getLast?
        | none => owners.getLast?.bind fun a => (row a).getLast? := by
  rw [prev, h.before_flatMap howners hfull hb, getLast?_flatMap hfull]
  cases (before (row (owner b)) b).getLast? with
  | some c => rfl
  | none =>
    cases hbefore : (before owners (owner b)).getLast? with
    | some a => simp [List.getLast?_eq_some_getLast (hfull a (mem_of_before hbefore))]
    | none => rfl

/-! ### The first ones of the rows -/

section
variable {first : β → Bool}

omit [DecidableEq α] [DecidableEq β] in
theorem Linked.find?_first (h : Linked owners row owner) (hfull : ∀ a ∈ owners, row a ≠ [])
    (hfirst : ∀ c, first c = true ↔ (row (owner c)).head? = some c) :
    (owners.flatMap row).find? first = owners.head?.bind fun a => (row a).head? := by
  cases owners with
  | nil => rfl
  | cons a owners =>
    obtain ⟨c, rest, hrow⟩ := List.exists_cons_of_ne_nil (hfull a List.mem_cons_self)
    have howner : owner c = a := h.back a List.mem_cons_self c (by simp [hrow])
    have hc : first c = true := (hfirst c).mpr (by simp [howner, hrow])
    simp [hrow, hc]

/-- The next one that is the first of its row is that of the next row. -/
theorem Linked.find?_behind_first (h : Linked owners row owner) (howners : owners.Nodup)
    (hfull : ∀ a ∈ owners, row a ≠ []) (hb : b ∈ owners.flatMap row)
    (hfirst : ∀ c, first c = true ↔ (row (owner c)).head? = some c) :
    (behind (owners.flatMap row) b).find? first =
      (after owners (owner b)).bind fun a => (row a).head? := by
  obtain ⟨front, back, left, right, hsplit, hfront, hrow, hleft, hall, hnot⟩ := h.split howners hb
  have howner : owner b ∈ owners := by simp [hsplit]
  have hright : right.find? first = none := List.find?_eq_none.mpr fun c hc hfirst' => by
    have hcrow : c ∈ row (owner b) := by simp [hrow, hc]
    have hhead := (hfirst c).mp hfirst'
    rw [h.back _ howner c hcrow, hrow] at hhead
    have hnodup := hrow ▸ h.nodup _ howner
    cases left with
    | nil =>
      obtain rfl : b = c := by simpa using hhead
      exact (List.nodup_cons.mp hnodup).1 hc
    | cons d left =>
      obtain rfl : d = c := by simpa using hhead
      exact (List.nodup_cons.mp hnodup).1 (by simp [hc])
  have hback : ∀ a ∈ back, a ∈ owners := fun a ha => by simp [hsplit, ha]
  rw [behind_split hall hnot, List.find?_append, hright, Option.none_or,
    (h.mono hback).find?_first (fun a ha => hfull a (hback a ha)) hfirst]
  conv_rhs => rw [hsplit, after_split _ hfront]

end

end Rows
