import Mathlib.Algebra.BigOperators.Group.List.Basic
import Mathlib.Algebra.Order.Ring.Int
import Mathlib.Data.List.DropRight
import Mathlib.Data.List.Infix
import Mathlib.Data.List.Induction
import Mathlib.Data.List.Nodup
import Mathlib.Data.List.TakeWhile

/-! Doubly linked lists as sequences of distinct cells.

A position is a cell or, as `none`, the list head, which closes the circle: what
follows the last cell and what precedes the first one is the head. -/
namespace Sequence
variable {α : Type*} [DecidableEq α]

/-- What follows a cell. -/
def after (l : List α) (a : α) : Option α := (l.dropWhile (· ≠ a)).tail.head?

/-- The cells before a cell. -/
def before (l : List α) (a : α) : List α := l.takeWhile (· ≠ a)

/-- Link `x` in front of a position. -/
def insertBefore (x : α) (pos : Option α) (l : List α) : List α :=
  match pos with
  | none => l ++ [x]
  | some a => l.takeWhile (· ≠ a) ++ x :: l.dropWhile (· ≠ a)

/-- Link `x` behind a position. -/
def insertAfter (x : α) (pos : Option α) (l : List α) : List α :=
  match pos with
  | none => x :: l
  | some a => l.flatMap fun b => if b = a then [b, x] else [b]

theorem takeWhile_split {a : α} {front : List α} (back : List α) (h : a ∉ front) :
    (front ++ a :: back).takeWhile (· ≠ a) = front := by
  induction front with
  | nil => simp
  | cons b rest ih =>
    simp only [List.mem_cons, not_or] at h
    simp only [List.cons_append, List.takeWhile_cons, ne_eq, decide_not] at ih ⊢
    simp [Ne.symm h.1, ih h.2]

theorem dropWhile_split {a : α} {front : List α} (back : List α) (h : a ∉ front) :
    (front ++ a :: back).dropWhile (· ≠ a) = a :: back := by
  induction front with
  | nil => simp
  | cons b rest ih =>
    simp only [List.mem_cons, not_or] at h
    simp only [List.cons_append, List.dropWhile_cons, ne_eq, decide_not] at ih ⊢
    simp [Ne.symm h.1, ih h.2]

theorem after_split {a : α} {front : List α} (back : List α) (h : a ∉ front) :
    after (front ++ a :: back) a = back.head? := by
  rw [after, dropWhile_split back h, List.tail_cons]

theorem mem_of_after {l : List α} {a b : α} (h : after l a = some b) : b ∈ l :=
  (List.dropWhile_sublist _).subset (List.mem_of_mem_tail (List.mem_of_mem_head? h))

theorem mem_of_before {l : List α} {a b : α} (h : (before l a).getLast? = some b) : b ∈ l :=
  (List.takeWhile_sublist _).subset (List.mem_of_getLast? h)

/-- The cell behind a cell, or else the one in front, is another one. -/
theorem mem_of_neighbour {l : List α} (hl : l.Nodup) {a b : α} (ha : a ∈ l)
    (h : (after l a).or (before l a).getLast? = some b) : b ∈ l.erase a := by
  rcases Option.or_eq_some_iff.mp h with hafter | ⟨-, hbefore⟩
  · refine (List.mem_erase_of_ne ?_).mpr (mem_of_after hafter)
    obtain ⟨front, back, rfl⟩ := List.append_of_mem ha
    have hnodup := List.nodup_append.mp hl
    have hfront : a ∉ front := fun hmem => hnodup.2.2 a hmem a (.head _) rfl
    rw [after_split back hfront] at hafter
    intro heq
    subst heq
    exact (List.nodup_cons.mp hnodup.2.1).1 (List.mem_of_mem_head? hafter)
  · refine (List.mem_erase_of_ne ?_).mpr (mem_of_before hbefore)
    simpa using List.mem_takeWhile_imp (List.mem_of_getLast? hbefore)

theorem erase_split {a : α} {front : List α} (back : List α) (h : a ∉ front) :
    (front ++ a :: back).erase a = front ++ back := by
  rw [List.erase_append_right _ h, List.erase_cons_head]

theorem insertBefore_split (x : α) {front back : List α} (h : (front ++ back).Nodup) :
    insertBefore x back.head? (front ++ back) = front ++ x :: back := by
  cases back with
  | nil => simp [insertBefore]
  | cons a rest =>
    have ha : a ∉ front := fun ha => (List.nodup_middle.mp h).notMem (List.mem_append_left _ ha)
    rw [List.head?_cons, insertBefore, takeWhile_split rest ha, dropWhile_split rest ha]

theorem insertAfter_split (x : α) {a : α} {front back : List α} (h : a ∉ front ++ back) :
    insertAfter x (some a) (front ++ a :: back) = front ++ a :: x :: back := by
  have hkeep : ∀ l' : List α, a ∉ l' →
      (l'.flatMap fun b => if b = a then [b, x] else [b]) = l' := by
    intro l' hl'
    induction l' with
    | nil => rfl
    | cons b rest ih =>
      simp only [List.mem_cons, not_or] at hl'
      simp [Ne.symm hl'.1, ih hl'.2]
  simp only [List.mem_append, not_or] at h
  simp [insertAfter, hkeep front h.1, hkeep back h.2]

theorem insertAfter_perm (x : α) {pos : Option α} {l : List α} (hl : l.Nodup)
    (h : ∀ a, pos = some a → a ∈ l) : (insertAfter x pos l).Perm (x :: l) := by
  cases pos with
  | none => exact List.Perm.refl _
  | some a =>
    obtain ⟨front, back, rfl⟩ := List.append_of_mem (h a rfl)
    rw [insertAfter_split x (List.nodup_middle.mp hl).notMem, List.append_cons,
      List.append_cons front a back]
    exact List.perm_middle

/-- Linking several cells behind one position, one after the other. -/
theorem foldl_insertAfter_perm {pos : Option α} (xs : List α) {l : List α} (hl : (xs ++ l).Nodup)
    (h : ∀ a, pos = some a → a ∈ l) :
    (xs.foldl (fun l x => insertAfter x pos l) l).Perm (xs ++ l) := by
  induction xs generalizing l with
  | nil => exact List.Perm.refl _
  | cons x xs ih =>
    have hx := insertAfter_perm x (List.nodup_append.mp hl).2.1 h
    have hperm : (xs ++ insertAfter x pos l).Perm (x :: xs ++ l) :=
      (hx.append_left xs).trans List.perm_middle
    exact (ih (hperm.nodup_iff.mpr hl) fun a ha =>
      hx.mem_iff.mpr (List.mem_cons_of_mem _ (h a ha))).trans hperm

/-- A walk over a list that removes the cells that `q` picks: each removal is defined on
the cells of the list and takes its cell out, so the walk meets the others unchanged. -/
theorem removal_walk {σ : Type*} {remove : σ → α → Option σ} (cells : σ → List α)
    (Inv : σ → Prop) (hnodup : ∀ s, Inv s → (cells s).Nodup)
    (hremove : ∀ s t, Inv s → t ∈ cells s →
      ∃ s', remove s t = some s' ∧ Inv s' ∧ cells s' = (cells s).erase t)
    {p : σ → α → Bool} {q : α → Bool} (hp : ∀ s t, Inv s → p s t = q t) {s : σ} (hs : Inv s) :
    ∃ s', (cells s).foldlM (fun s t => if p s t then remove s t else some s) s = some s' ∧
      Inv s' ∧ cells s' = (cells s).filter fun t => !q t := by
  suffices hwalk : ∀ (back front : List α) (s : σ), Inv s → cells s = front ++ back →
      ∃ s', back.foldlM (fun s t => if p s t then remove s t else some s) s = some s' ∧
        Inv s' ∧ cells s' = front ++ back.filter fun t => !q t from
    hwalk (cells s) [] s hs rfl
  intro back
  induction back with
  | nil => exact fun front s hs hcells => ⟨s, rfl, hs, hcells⟩
  | cons t back ih =>
    intro front s hs hcells
    rw [List.foldlM_cons, hp s t hs, List.filter_cons]
    by_cases hq : q t = true
    · have ht : t ∉ front := fun ht =>
        (List.nodup_middle.mp (hcells ▸ hnodup s hs)).notMem (List.mem_append_left _ ht)
      obtain ⟨s₁, hrun₁, hs₁, hcells₁⟩ := hremove s t hs (by simp [hcells])
      obtain ⟨s', hrun, hs', hcells'⟩ :=
        ih front s₁ hs₁ (by rw [hcells₁, hcells, erase_split back ht])
      exact ⟨s', by rw [if_pos hq, hrun₁]; exact hrun, hs', by simpa [hq] using hcells'⟩
    · obtain ⟨s', hrun, hs', hcells'⟩ := ih (front ++ [t]) s hs (by simp [hcells])
      exact ⟨s', by rw [if_neg hq]; exact hrun, hs', by simpa [hq] using hcells'⟩

end Sequence
