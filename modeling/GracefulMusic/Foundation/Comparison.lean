import Mathlib.Data.Fintype.Card
import Mathlib.Data.List.Pairwise
import GracefulMusic.Foundation.OrderedTree

/-! Three-way comparisons that are total preorders. -/

/-- A comparison in the manner of `strcmp`: swapping its arguments swaps its sign, and
"not after" is transitive. -/
structure TotalPreorder {α : Type*} (cmp : α → α → Int) : Prop where
  swap : ∀ a b, cmp a b < 0 ↔ 0 < cmp b a
  trans : ∀ a b c, cmp a b ≤ 0 → cmp b c ≤ 0 → cmp a c ≤ 0

namespace TotalPreorder
variable {α : Type*} {cmp : α → α → Int} (h : TotalPreorder cmp) {a b c : α}
include h

theorem refl (a : α) : cmp a a = 0 := by
  have := h.swap a a
  omega

theorem eq_symm (hab : cmp a b = 0) : cmp b a = 0 := by
  have := h.swap a b
  have := h.swap b a
  omega

theorem lt_of_le_of_lt (hab : cmp a b ≤ 0) (hbc : cmp b c < 0) : cmp a c < 0 := by
  by_contra hac
  have hca : cmp c a ≤ 0 := by
    have := h.swap a c
    have := h.swap c a
    omega
  have := h.trans c a b hca hab
  have := h.swap b c
  omega

theorem lt_of_lt_of_le (hab : cmp a b < 0) (hbc : cmp b c ≤ 0) : cmp a c < 0 := by
  by_contra hac
  have hca : cmp c a ≤ 0 := by
    have := h.swap a c
    have := h.swap c a
    omega
  have := h.trans b c a hbc hca
  have := h.swap a b
  omega

theorem eq_trans (hab : cmp a b = 0) (hbc : cmp b c = 0) : cmp a c = 0 := by
  have hac := h.trans a b c (Int.le_of_eq hab) (Int.le_of_eq hbc)
  have hca := h.trans c b a (Int.le_of_eq (h.eq_symm hbc)) (Int.le_of_eq (h.eq_symm hab))
  have := h.swap a c
  have := h.swap c a
  omega

/-- A strictly sorted sequence is graded by the comparison with any key. -/
theorem graded (x : α) {l : List α} (hl : l.Pairwise fun a b => cmp a b < 0) :
    OrderedTree.Graded (cmp x) l := by
  apply hl.imp
  intro a b hab
  refine ⟨fun hxa => h.lt_of_le_of_lt hxa hab, fun hxb => ?_⟩
  have hbx : cmp b x ≤ 0 := by
    have := h.swap x b
    have := h.swap b x
    omega
  exact (h.swap a x).mp (h.lt_of_lt_of_le hab hbx)

omit h in
/-- The difference of two numbers. -/
theorem sub {β : Type*} (f : β → Int) : TotalPreorder fun a b => f a - f b :=
  ⟨fun _ _ => by omega, fun _ _ _ _ _ => by omega⟩

/-- Elements compared by a key. -/
theorem comap {β : Type*} (f : β → α) : TotalPreorder fun a b => cmp (f a) (f b) :=
  ⟨fun _ _ => h.swap _ _, fun _ _ _ => h.trans _ _ _⟩

/-- The second comparison decides among those the first one sees no difference between, and
has to be an order only there. -/
theorem lex_classes {cmp' : α → α → Int}
    (h' : ∀ x, TotalPreorder fun a b : {y // cmp x y = 0} => cmp' a b) :
    TotalPreorder fun a b => if cmp a b ≠ 0 then cmp a b else cmp' a b := by
  refine ⟨fun a b => ?_, fun a b c hab hbc => ?_⟩
  · by_cases hab : cmp a b = 0
    · simp only [hab, h.eq_symm hab, ne_eq, not_true_eq_false, if_false]
      exact (h' a).swap ⟨a, h.refl a⟩ ⟨b, hab⟩
    · have hba : cmp b a ≠ 0 := fun hba => hab (h.eq_symm hba)
      simp only [hab, hba, ne_eq, not_false_eq_true, if_true]
      exact h.swap a b
  · by_cases hab₀ : cmp a b = 0
    · by_cases hbc₀ : cmp b c = 0
      · have hac₀ := h.eq_trans hab₀ hbc₀
        rw [if_neg (not_not.mpr hab₀)] at hab
        rw [if_neg (not_not.mpr hbc₀)] at hbc
        rw [if_neg (not_not.mpr hac₀)]
        exact (h' a).trans ⟨a, h.refl a⟩ ⟨b, hab₀⟩ ⟨c, hac₀⟩ hab hbc
      · rw [if_pos hbc₀] at hbc
        have hbc' : cmp b c < 0 := by omega
        have hac := h.lt_of_le_of_lt (Int.le_of_eq hab₀) hbc'
        rw [if_pos (Int.ne_of_lt hac)]
        exact Int.le_of_lt hac
    · rw [if_pos hab₀] at hab
      have hbc' : cmp b c ≤ 0 := by
        by_cases hbc₀ : cmp b c = 0
        · exact Int.le_of_eq hbc₀
        · rwa [if_pos hbc₀] at hbc
      have hab' : cmp a b < 0 := by omega
      have hac := h.lt_of_lt_of_le hab' hbc'
      rw [if_pos (Int.ne_of_lt hac)]
      exact Int.le_of_lt hac

/-- The second comparison decides where the first one sees no difference. -/
theorem lex {cmp' : α → α → Int} (h' : TotalPreorder cmp') :
    TotalPreorder fun a b => if cmp a b ≠ 0 then cmp a b else cmp' a b :=
  h.lex_classes fun _ => h'.comap Subtype.val

/-- Comparisons with the same signs. -/
theorem of_signs {cmp' : α → α → Int}
    (hsigns : ∀ a b, (cmp' a b < 0 ↔ cmp a b < 0) ∧ (0 < cmp' a b ↔ 0 < cmp a b)) :
    TotalPreorder cmp' := by
  refine ⟨fun a b => ?_, fun a b c hab hbc => ?_⟩
  · rw [(hsigns a b).1, (hsigns b a).2]
    exact h.swap a b
  · have hac := h.trans a b c (by have := (hsigns a b).2; omega) (by have := (hsigns b c).2; omega)
    have := (hsigns a c).2
    omega

theorem neg : TotalPreorder fun a b => -cmp a b := by
  refine ⟨fun a b => ?_, fun a b c hab hbc => ?_⟩
  · have := h.swap b a
    omega
  · have hcb : cmp c b ≤ 0 := by
      have := h.swap b c
      have := h.swap c b
      omega
    have hba : cmp b a ≤ 0 := by
      have := h.swap a b
      have := h.swap b a
      omega
    have hca := h.trans c b a hcb hba
    have := h.swap a c
    omega

/-- Some element of a list that is not empty comes before all others. -/
theorem exists_first_of_list (l : List α) (hl : l ≠ []) :
    ∃ m ∈ l, ∀ a ∈ l, cmp m a ≤ 0 := by
  induction l with
  | nil => exact absurd rfl hl
  | cons x l ih =>
    by_cases hrest : l = []
    · refine ⟨x, List.mem_cons_self, fun a ha => ?_⟩
      rw [hrest, List.mem_singleton] at ha
      rw [ha, h.refl]
    · obtain ⟨m, hm, hfirst⟩ := ih hrest
      obtain hxm | hmx : cmp x m ≤ 0 ∨ cmp m x ≤ 0 := by
        have := h.swap m x
        omega
      · refine ⟨x, List.mem_cons_self, fun a ha => ?_⟩
        obtain rfl | ha := List.mem_cons.mp ha
        · exact Int.le_of_eq (h.refl a)
        · exact h.trans x m a hxm (hfirst a ha)
      · refine ⟨m, List.mem_cons_of_mem x hm, fun a ha => ?_⟩
        obtain rfl | ha := List.mem_cons.mp ha
        · exact hmx
        · exact hfirst a ha

theorem exists_first [Finite α] [Nonempty α] : ∃ m, ∀ a, cmp m a ≤ 0 := by
  obtain ⟨l, hl⟩ := Finite.exists_univ_list α
  have hne : l ≠ [] := List.ne_nil_of_mem (hl.2 (Classical.arbitrary α))
  obtain ⟨m, -, hfirst⟩ := h.exists_first_of_list l hne
  exact ⟨m, fun a => hfirst a (hl.2 a)⟩

/-- A new element that equals none is hung where it belongs. -/
theorem attach_sorted {t : OrderedTree α} {x : α}
    (ht : t.toList.Pairwise fun a b => cmp a b < 0) (hx : ∀ a ∈ t.toList, cmp x a ≠ 0) :
    ((t.attach (cmp x) x).toList.Pairwise fun a b => cmp a b < 0) ∧
      (t.attach (cmp x) x).toList.Perm (x :: t.toList) := by
  obtain ⟨front, back, hsplit, hattach, -, hgraded⟩ :=
    OrderedTree.attach_split x (OrderedTree.locate_eq_none hx)
  obtain ⟨hfront, hback⟩ := hgraded (h.graded x ht)
  rw [hsplit] at ht ⊢
  rw [hattach]
  obtain ⟨hf, hb, hfb⟩ := List.pairwise_append.mp ht
  refine ⟨List.pairwise_append.mpr ⟨hf, List.pairwise_cons.mpr ⟨hback, hb⟩, fun a ha b hab => ?_⟩,
    List.perm_middle⟩
  rcases List.mem_cons.mp hab with rfl | hab
  · exact (h.swap a b).mpr (hfront a ha)
  · exact hfb a ha b hab

/-- An element that is not found among sorted ones equals none. -/
theorem ne_of_locate {β : Type*} {f : β → α} {t : OrderedTree β} {x : α}
    (ht : t.toList.Pairwise fun a b => cmp (f a) (f b) < 0)
    (hlocate : t.locate (fun b => cmp x (f b)) = none) : ∀ b ∈ t.toList, cmp x (f b) ≠ 0 := by
  have hgraded : OrderedTree.Graded (fun b => cmp x (f b)) t.toList :=
    List.pairwise_map.mp (h.graded x (List.pairwise_map.mpr ht))
  intro b hb
  obtain ⟨front, back, hsplit, -, -, hsigns⟩ := OrderedTree.attach_split b hlocate
  obtain ⟨hfront, hback⟩ := hsigns hgraded
  rw [hsplit] at hb
  rcases List.mem_append.mp hb with hb | hb
  · exact Int.ne_of_gt (hfront b hb)
  · exact Int.ne_of_lt (hback b hb)

theorem link_sorted [DecidableEq α] (rb : OrderedTree.Balancing α) {t : OrderedTree α} {x : α}
    (ht : t.toList.Pairwise fun a b => cmp a b < 0) (hx : ∀ a ∈ t.toList, cmp x a ≠ 0) :
    ((rb.rebalance (t.attach (cmp x) x)).toList.Pairwise fun a b => cmp a b < 0) ∧
      (rb.rebalance (t.attach (cmp x) x)).toList.Perm (x :: t.toList) := by
  rw [rb.toList_rebalance]
  exact h.attach_sorted ht hx

/-- A strictly sorted sequence has no element twice. -/
theorem nodup {l : List α} (hl : l.Pairwise fun a b => cmp a b < 0) : l.Nodup := by
  refine hl.imp fun hab heq => ?_
  subst heq
  rw [h.refl] at hab
  exact Int.lt_irrefl 0 hab

theorem ne_of_sorted {l : List α} (hl : l.Pairwise fun a b => cmp a b < 0) (ha : a ∈ l)
    (hb : b ∈ l) (hab : a ≠ b) : cmp a b ≠ 0 := by
  have hsymm : Std.Symm fun a b => cmp a b ≠ 0 := ⟨fun a b hab hba => hab (h.eq_symm hba)⟩
  exact (hl.imp Int.ne_of_lt).forall ha hb hab

end TotalPreorder
