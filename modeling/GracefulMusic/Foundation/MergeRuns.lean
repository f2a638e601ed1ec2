import Mathlib.Data.List.Pairwise

/-! Merging the runs of a list in pairs.

A list whose runs of `k` elements are sorted becomes one whose runs of `2 * k` elements are.
Each pass is a stable permutation. -/
namespace MergeRuns
variable {α : Type*}

/-- The runs of `k` elements, merged in pairs; the last ones may be shorter. -/
def mergeRuns (le : α → α → Bool) (k : Nat) (l : List α) : List α :=
  if l = [] ∨ k = 0 then l
  else (l.take k).merge ((l.drop k).take k) le ++ mergeRuns le k (l.drop (2 * k))
termination_by l.length
decreasing_by
  rename_i h
  have := List.length_pos_iff.mpr (not_or.mp h).1
  rw [List.length_drop]
  omega

/-- Every run of `k` elements is in order. -/
def RunsSorted (le : α → α → Bool) (k : Nat) (l : List α) : Prop :=
  ∀ i, ((l.drop (i * k)).take k).Pairwise fun a b => le a b

section
variable {le : α → α → Bool} {k : Nat} {l : List α}

@[simp] theorem mergeRuns_nil : mergeRuns le k [] = [] := by
  rw [mergeRuns, if_pos (.inl rfl)]

theorem mergeRuns_eq (hl : l ≠ []) (hk : 0 < k) : mergeRuns le k l =
    (l.take k).merge ((l.drop k).take k) le ++ mergeRuns le k (l.drop (2 * k)) := by
  rw [mergeRuns, if_neg (not_or.mpr ⟨hl, Nat.ne_of_gt hk⟩)]

/-- What one pair of runs is, and what is behind it. -/
theorem take_append_take_append (k : Nat) (l : List α) :
    l.take k ++ (l.drop k).take k ++ l.drop (2 * k) = l := by
  rw [List.append_assoc, show 2 * k = k + k by omega, ← List.drop_drop, List.take_append_drop,
    List.take_append_drop]

theorem mergeRuns_perm (le : α → α → Bool) (k : Nat) (l : List α) : (mergeRuns le k l).Perm l := by
  induction l using mergeRuns.induct k with
  | case1 l h => rw [mergeRuns, if_pos h]
  | case2 l h ih =>
    rw [mergeRuns, if_neg h]
    have hpair : (List.merge (l.take k) ((l.drop k).take k) le).Perm (l.take k ++ (l.drop k).take k) :=
      List.merge_perm_append le
    have hall := hpair.append ih
    rwa [take_append_take_append] at hall

theorem runsSorted_one : RunsSorted le 1 l := fun i => by
  cases l.drop (i * 1) with
  | nil => exact .nil
  | cons x rest => exact List.pairwise_singleton _ x

theorem RunsSorted.drop (h : RunsSorted le k l) (n : Nat) : RunsSorted le k (l.drop (n * k)) :=
  fun i => by
    rw [List.drop_drop, ← Nat.add_mul]
    exact h (n + i)

/-- The two runs that are merged first are in order. -/
theorem RunsSorted.first_two (h : RunsSorted le k l) :
    (l.take k).Pairwise (fun a b => le a b) ∧ ((l.drop k).take k).Pairwise fun a b => le a b := by
  have hfirst := h 0
  have hsecond := h 1
  rw [Nat.zero_mul, List.drop_zero] at hfirst
  rw [Nat.one_mul] at hsecond
  exact ⟨hfirst, hsecond⟩

theorem mergeRuns_sorted (htrans : ∀ a b c, le a b → le b c → le a c)
    (htotal : ∀ a b, le a b || le b a) (h : RunsSorted le k l) :
    RunsSorted le (2 * k) (mergeRuns le k l) := by
  induction l using mergeRuns.induct k with
  | case1 l hl =>
    rw [mergeRuns, if_pos hl]
    rcases hl with rfl | rfl
    · simp [RunsSorted]
    · simp [RunsSorted]
  | case2 l hl ih =>
    have hmerged := List.pairwise_merge htrans htotal _ _ h.first_two.1 h.first_two.2
    rw [mergeRuns, if_neg hl]
    rcases Nat.lt_or_ge (2 * k) l.length with hlong | hshort
    · have hlength : ((l.take k).merge ((l.drop k).take k) le).length = 2 * k := by
        simp only [List.length_merge, List.length_take, List.length_drop]
        omega
      intro i
      cases i with
      | zero => rwa [Nat.zero_mul, List.drop_zero, List.take_left' hlength]
      | succ i =>
        have hnext : (i + 1) * (2 * k) = 2 * k + i * (2 * k) :=
          (Nat.succ_mul i (2 * k)).trans (Nat.add_comm _ _)
        rw [hnext, ← List.drop_drop, List.drop_left' hlength]
        exact ih (h.drop 2) i
    · rw [List.drop_eq_nil_of_le hshort, mergeRuns_nil, List.append_nil]
      exact fun i => hmerged.sublist ((List.take_sublist _ _).trans (List.drop_sublist _ _))

/-- Elements that are not told apart stay in their order. -/
theorem filter_merge (htrans : ∀ a b c, le a b → le b c → le a c) {p : α → Bool}
    (hp : ∀ a b, p a → p b → le a b) {xs : List α} (hxs : xs.Pairwise fun a b => le a b)
    (ys : List α) : (xs.merge ys le).filter p = xs.filter p ++ ys.filter p := by
  induction xs generalizing ys with
  | nil => simp
  | cons x xs ihx =>
    induction ys with
    | nil => simp
    | cons y ys ihy =>
      obtain ⟨hx, hxs'⟩ := List.pairwise_cons.mp hxs
      by_cases hle : le x y
      · by_cases hpx : p x <;> simp [hle, hpx, ihx hxs']
      · -- what is like the second head would be behind the first one
        rw [List.cons_merge_cons_neg _ _ _ hle, List.filter_cons, ihy]
        by_cases hy : p y
        · have hnone : (x :: xs).filter p = [] := by
            refine List.filter_eq_nil_iff.mpr fun z hz hpz => hle ?_
            have hzy := hp z y hpz hy
            rcases List.mem_cons.mp hz with rfl | hmem
            · exact hzy
            · exact htrans x z y (hx z hmem) hzy
          simp [hnone, hy]
        · simp [hy]

theorem filter_mergeRuns (htrans : ∀ a b c, le a b → le b c → le a c) {p : α → Bool}
    (hp : ∀ a b, p a → p b → le a b) (h : RunsSorted le k l) :
    (mergeRuns le k l).filter p = l.filter p := by
  induction l using mergeRuns.induct k with
  | case1 l hl => rw [mergeRuns, if_pos hl]
  | case2 l hl ih =>
    rw [mergeRuns, if_neg hl, List.filter_append, filter_merge htrans hp h.first_two.1,
      ih (h.drop 2), ← List.filter_append, ← List.filter_append, take_append_take_append]

theorem RunsSorted.pairwise (h : RunsSorted le k l) (hk : l.length ≤ k) :
    l.Pairwise fun a b => le a b := by
  have hfirst := h 0
  rwa [Nat.zero_mul, List.drop_zero, List.take_of_length_le hk] at hfirst

end
end MergeRuns
