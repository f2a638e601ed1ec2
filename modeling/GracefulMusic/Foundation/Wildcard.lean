import Mathlib.Algebra.BigOperators.Group.List.Basic
import Mathlib.Algebra.Order.Ring.Int
import Mathlib.Data.List.DropRight
import Mathlib.Data.List.Infix
import Mathlib.Data.List.Induction
import Mathlib.Data.List.Nodup
import Mathlib.Data.List.TakeWhile

/-! Wildcard patterns.

A pattern is a row of tokens: one that stands for any letter, one for any word, and letters
that stand for the letters of the text they are related to. Wildcards next to each other
may be put in order, those for a letter first and then one for a word. Letters in pattern
and text have sizes, and a matcher that goes by those of the pattern keeps its place where
what it comes to is `Balanced`. -/
namespace Wildcard

inductive Token (α : Type*) where
  | one
  | any
  | lit (c : α)
  deriving DecidableEq

section
variable {α β : Type*} (R : α → β → Prop)

inductive Matches : List (Token α) → List β → Prop where
  | nil : Matches [] []
  | one {p : List (Token α)} {s : List β} (x : β) : Matches p s → Matches (.one :: p) (x :: s)
  | lit {c : α} {x : β} {p : List (Token α)} {s : List β} : R c x → Matches p s →
      Matches (.lit c :: p) (x :: s)
  | stop {p : List (Token α)} {s : List β} : Matches p s → Matches (.any :: p) s
  | more {p : List (Token α)} {s : List β} (x : β) : Matches (.any :: p) s →
      Matches (.any :: p) (x :: s)

/-- The text begins with letters that the letters stand for. -/
def Begins (ls : List α) (s : List β) : Prop := List.Forall₂ R ls (s.take ls.length)

variable {R} {p p' : List (Token α)} {s : List β}

theorem matches_nil_iff : Matches R [] s ↔ s = [] := by
  constructor
  · intro h
    cases h
    rfl
  · intro heq
    subst heq
    exact .nil

theorem matches_one_nil : ¬ Matches R (.one :: p) [] := nofun

theorem matches_one_cons {x : β} : Matches R (.one :: p) (x :: s) ↔ Matches R p s := by
  constructor
  · rintro (_ | ⟨_, h⟩)
    exact h
  · exact .one x

theorem matches_lit_nil {c : α} : ¬ Matches R (.lit c :: p) [] := nofun

theorem matches_lit_cons {c : α} {x : β} :
    Matches R (.lit c :: p) (x :: s) ↔ R c x ∧ Matches R p s := by
  constructor
  · rintro (_ | _ | ⟨hx, h⟩)
    exact ⟨hx, h⟩
  · intro h
    obtain ⟨hx, h⟩ := h
    exact .lit hx h

theorem matches_any_nil : Matches R (.any :: p) [] ↔ Matches R p [] := by
  constructor
  · rintro (_ | _ | _ | h)
    exact h
  · exact .stop

theorem matches_any_cons {x : β} :
    Matches R (.any :: p) (x :: s) ↔ Matches R p (x :: s) ∨ Matches R (.any :: p) s := by
  constructor
  · rintro (_ | _ | _ | h | ⟨_, h⟩)
    · exact .inl h
    · exact .inr h
  · rintro (h | h)
    · exact .stop h
    · exact .more x h

/-- What the rest may be matched with. -/
theorem matches_any_iff : Matches R (.any :: p) s ↔ ∃ k ≤ s.length, Matches R p (s.drop k) := by
  induction s with
  | nil =>
    rw [matches_any_nil]
    constructor
    · exact fun h => ⟨0, Nat.le_refl _, h⟩
    · intro h
      obtain ⟨k, -, h⟩ := h
      rwa [List.drop_nil] at h
  | cons x s ih =>
    rw [matches_any_cons, ih]
    constructor
    · rintro (h | ⟨k, hk, h⟩)
      · exact ⟨0, Nat.zero_le _, h⟩
      · exact ⟨k + 1, Nat.succ_le_succ hk, h⟩
    · rintro ⟨k | k, hk, h⟩
      · exact .inl h
      · exact .inr ⟨k, Nat.le_of_succ_le_succ hk, h⟩

theorem matches_any_last : Matches R [.any] s :=
  matches_any_iff.mpr ⟨s.length, Nat.le_refl _, by rw [List.drop_length]; exact .nil⟩

/-- Places that do not match may be passed over. -/
theorem matches_any_drop {n : Nat} (hn : n ≤ s.length) (hnone : ∀ j < n, ¬ Matches R p (s.drop j)) :
    Matches R (.any :: p) s ↔ Matches R (.any :: p) (s.drop n) := by
  rw [matches_any_iff, matches_any_iff, List.length_drop]
  constructor
  · intro h
    obtain ⟨k, hk, h⟩ := h
    have hge : n ≤ k := Nat.le_of_not_lt fun hlt => hnone k hlt h
    refine ⟨k - n, by omega, ?_⟩
    rwa [List.drop_drop, Nat.add_sub_cancel' hge]
  · intro h
    obtain ⟨k, hk, h⟩ := h
    rw [List.drop_drop] at h
    exact ⟨n + k, by omega, h⟩

theorem begins_nil : Begins R [] s := .nil

theorem begins_cons_nil {c : α} {ls : List α} : ¬ Begins R (c :: ls) [] := nofun

theorem begins_cons_cons {c : α} {ls : List α} {x : β} :
    Begins R (c :: ls) (x :: s) ↔ R c x ∧ Begins R ls s := List.forall₂_cons

theorem matches_lits_iff {ls : List α} :
    Matches R (ls.map .lit ++ p) s ↔ Begins R ls s ∧ Matches R p (s.drop ls.length) := by
  induction ls generalizing s with
  | nil => exact (and_iff_right begins_nil).symm
  | cons c ls ih =>
    cases s with
    | nil => exact iff_of_false matches_lit_nil fun h => begins_cons_nil h.1
    | cons x s =>
      rw [List.map_cons, List.cons_append, matches_lit_cons, ih, begins_cons_cons, and_assoc]
      rfl

theorem Begins.length_le {ls : List α} (h : Begins R ls s) : ls.length ≤ s.length := by
  have hlength := List.Forall₂.length_eq h
  rw [List.length_take] at hlength
  omega

/-! ### Order of wildcards -/

theorem matches_cons_congr (t : Token α) (h : ∀ s, Matches R p s ↔ Matches R p' s) :
    Matches R (t :: p) s ↔ Matches R (t :: p') s := by
  cases t with
  | one =>
    cases s with
    | nil => exact iff_of_false nofun nofun
    | cons x s => rw [matches_one_cons, matches_one_cons, h]
  | any =>
    rw [matches_any_iff, matches_any_iff]
    simp only [h]
  | lit c =>
    cases s with
    | nil => exact iff_of_false nofun nofun
    | cons x s => rw [matches_lit_cons, matches_lit_cons, h]

theorem matches_any_any : Matches R (.any :: .any :: p) s ↔ Matches R (.any :: p) s := by
  constructor
  · intro h
    obtain ⟨k, hk, h⟩ := matches_any_iff.mp h
    obtain ⟨l, hl, h⟩ := matches_any_iff.mp h
    rw [List.length_drop] at hl
    rw [List.drop_drop] at h
    exact matches_any_iff.mpr ⟨k + l, by omega, h⟩
  · exact .stop

theorem matches_any_one : Matches R (.any :: .one :: p) s ↔ Matches R (.one :: .any :: p) s := by
  induction s with
  | nil => exact iff_of_false (fun h => matches_one_nil (matches_any_nil.mp h)) matches_one_nil
  | cons x s ih =>
    rw [matches_any_cons, matches_one_cons, matches_one_cons, ih]
    cases s with
    | nil => exact (or_iff_left matches_one_nil).trans matches_any_nil.symm
    | cons y s => rw [matches_one_cons, matches_any_cons]

/-! ### Sizes -/

variable (R) (w : α → Nat) (v : β → Nat)

/-- A row of letters of the pattern that the matcher finds in the text has the size of what
it is found in; `a` and `b` are the sizes of the part of a row that was found already. For
a wildcard that stands for a word the matcher goes through the text from where it is, until
the rest of the pattern matches. -/
def Balanced : List (Token α) → Nat → Nat → List β → Prop
  | [], a, b, _ => a = b
  | .one :: p, a, b, s => a = b ∧ ∀ x t, s = x :: t → Balanced p 0 0 t
  | .any :: p, a, b, s => a = b ∧
    ∀ k ≤ s.length, (∀ j < k, ¬ Matches R p (s.drop j)) → Balanced p 0 0 (s.drop k)
  | .lit c :: p, a, b, s => ∀ x t, s = x :: t → R c x → Balanced p (a + w c) (b + v x) t

variable {R w v} in
theorem Balanced.drop {n : Nat} (h : Balanced R w v (.any :: p) 0 0 s) (hn : n ≤ s.length)
    (hnone : ∀ j < n, ¬ Matches R p (s.drop j)) : Balanced R w v (.any :: p) 0 0 (s.drop n) := by
  refine ⟨rfl, fun k hk hno => ?_⟩
  rw [List.length_drop] at hk
  rw [List.drop_drop]
  refine h.2 (n + k) (by omega) fun j hj hmatch => ?_
  by_cases hjn : j < n
  · exact hnone j hjn hmatch
  · refine hno (j - n) (by omega) ?_
    rwa [List.drop_drop, Nat.add_sub_cancel' (Nat.le_of_not_lt hjn)]

variable {R w v} in
/-- Where related letters have the same size every place is balanced. -/
theorem balanced_of_sizes (h : ∀ c x, .lit c ∈ p → x ∈ s → R c x → w c = v x) (a : Nat) :
    Balanced R w v p a a s := by
  induction p generalizing s a with
  | nil => rfl
  | cons t p ih =>
    cases t with
    | one =>
      refine ⟨rfl, ?_⟩
      intro x s heq
      subst heq
      exact ih (fun c y hc hy => h c y (.tail _ hc) (.tail _ hy)) 0
    | any =>
      exact ⟨rfl, fun k _ _ => ih (fun c y hc hy => h c y (.tail _ hc) (List.mem_of_mem_drop hy)) 0⟩
    | lit c =>
      rintro x s rfl hx
      rw [h c x (.head _) (.head _) hx]
      exact ih (fun c y hc hy => h c y (.tail _ hc) (.tail _ hy)) _

/-- Two patterns that a matcher does not tell apart. -/
structure Same (p p' : List (Token α)) : Prop where
  matches_iff : ∀ s, Matches R p s ↔ Matches R p' s
  balanced_iff : ∀ a b s, Balanced R w v p a b s ↔ Balanced R w v p' a b s

variable {R w v}

theorem Same.refl (p : List (Token α)) : Same R w v p p := ⟨fun _ => .rfl, fun _ _ _ => .rfl⟩

theorem Same.trans {p'' : List (Token α)} (h : Same R w v p p') (h' : Same R w v p' p'') :
    Same R w v p p'' :=
  ⟨fun s => (h.matches_iff s).trans (h'.matches_iff s),
    fun a b s => (h.balanced_iff a b s).trans (h'.balanced_iff a b s)⟩

theorem Same.cons (h : Same R w v p p') (t : Token α) : Same R w v (t :: p) (t :: p') := by
  refine ⟨fun s => matches_cons_congr t h.matches_iff, fun a b s => ?_⟩
  cases t <;> simp only [Balanced, h.balanced_iff, h.matches_iff]

theorem Same.append (h : Same R w v p p') (front : List (Token α)) :
    Same R w v (front ++ p) (front ++ p') := by
  induction front with
  | nil => exact h
  | cons t front ih => exact ih.cons t

theorem same_any_any (p : List (Token α)) : Same R w v (.any :: .any :: p) (.any :: p) := by
  refine ⟨fun s => matches_any_any, fun a b s => ?_⟩
  simp only [Balanced, true_and]
  refine and_congr_right fun _ => ⟨fun h => h 0 (Nat.zero_le _) nofun, fun h k hk hnone l hl hno => ?_⟩
  rw [List.length_drop] at hl
  rw [List.drop_drop]
  refine h (k + l) (by omega) fun j hj hmatch => ?_
  by_cases hjk : j < k
  · exact hnone j hjk (.stop hmatch)
  · refine hno (j - k) (by omega) ?_
    rwa [List.drop_drop, Nat.add_sub_cancel' (Nat.le_of_not_lt hjk)]

theorem same_any_one (p : List (Token α)) :
    Same R w v (.any :: .one :: p) (.one :: .any :: p) := by
  refine ⟨fun s => matches_any_one, fun a b s => ?_⟩
  simp only [Balanced, true_and]
  refine and_congr_right fun _ => ?_
  cases s with
  | nil =>
    refine iff_of_true (fun k _ _ x t h => ?_) nofun
    rw [List.drop_nil] at h
    cases h
  | cons y u =>
    -- a letter further on in the text than where the rest of the pattern is tried
    have hdrop : ∀ k, k ≤ u.length → ∃ x, (y :: u).drop k = x :: u.drop k := fun k hk =>
      ⟨_, List.drop_eq_getElem_cons (Nat.lt_succ_of_le hk)⟩
    have hmatch : ∀ k, k ≤ u.length →
        (Matches R (.one :: p) ((y :: u).drop k) ↔ Matches R p (u.drop k)) := fun k hk => by
      obtain ⟨x, hx⟩ := hdrop k hk
      rw [hx, matches_one_cons]
    constructor
    · rintro h x t heq k hk hnone
      cases heq
      obtain ⟨z, hz⟩ := hdrop k hk
      exact h k (Nat.le_succ_of_le hk)
        (fun j hj => (hmatch j (by omega)).not.mpr (hnone j hj)) z _ hz
    · rintro h k hk hnone x t heq
      have hlt : k ≤ u.length := by
        have hlength := congrArg List.length heq
        rw [List.length_drop, List.length_cons, List.length_cons] at hlength
        omega
      obtain ⟨z, hz⟩ := hdrop k hlt
      rw [hz] at heq
      cases heq
      exact h y u rfl k hlt fun j hj => (hmatch j (by omega)).not.mp (hnone j hj)

/-- So many wildcards for a letter, and one for a word if there is any. -/
def ordered (ones anys : Nat) : List (Token α) :=
  List.replicate ones .one ++ if anys = 0 then [] else [.any]

theorem ordered_one_append (ones : Nat) (p : List (Token α)) :
    ordered ones 0 ++ .one :: p = ordered (ones + 1) 0 ++ p := by
  simp [ordered, List.replicate_succ']

/-- One more wildcard behind those that are in order. -/
theorem same_ordered_one (ones anys : Nat) (p : List (Token α)) :
    Same R w v (ordered ones anys ++ .one :: p) (ordered (ones + 1) anys ++ p) := by
  cases anys with
  | zero =>
    rw [ordered_one_append]
    exact .refl _
  | succ anys =>
    have hfront : ordered (ones + 1) (anys + 1) ++ p =
        List.replicate ones .one ++ .one :: .any :: p := by
      simp [ordered, List.replicate_succ']
    have hback : ordered ones (anys + 1) ++ .one :: p =
        List.replicate ones .one ++ .any :: .one :: p := by simp [ordered]
    rw [hfront, hback]
    exact (same_any_one p).append _

theorem same_ordered_any (ones anys : Nat) (p : List (Token α)) :
    Same R w v (ordered ones anys ++ .any :: p) (ordered ones (anys + 1) ++ p) := by
  have hback : ordered ones (anys + 1) ++ p = List.replicate ones .one ++ .any :: p := by
    simp [ordered]
  rw [hback, ordered, List.append_assoc]
  split
  · exact .refl _
  · exact (same_any_any p).append _

/-! ### Rows of letters -/

/-- No letter at the front: where a row ends. -/
def RowEnd : List (Token α) → Prop
  | .lit _ :: _ => False
  | _ => True

theorem balanced_of_rowEnd (h : RowEnd p) {a b : Nat} :
    Balanced R w v p a b s ↔ a = b ∧ Balanced R w v p 0 0 s := by
  cases p with
  | nil => exact (and_iff_left rfl).symm
  | cons t p =>
    cases t with
    | lit c => exact h.elim
    | one => simp only [Balanced, true_and]
    | any => simp only [Balanced, true_and]

/-- A row that is found has the size of what it is found in. -/
theorem Balanced.row {ls : List α} {a b : Nat} (h : Balanced R w v (ls.map .lit ++ p) a b s)
    (hbegins : Begins R ls s) :
    Balanced R w v p (a + (ls.map w).sum) (b + ((s.take ls.length).map v).sum)
      (s.drop ls.length) := by
  induction ls generalizing a b s with
  | nil => exact h
  | cons c ls ih =>
    cases s with
    | nil => exact absurd hbegins begins_cons_nil
    | cons x s =>
      obtain ⟨hx, hrest⟩ := begins_cons_cons.mp hbegins
      have hnext := ih (h x s rfl hx) hrest
      simp only [List.map_cons, List.sum_cons, List.length_cons, List.take_succ_cons,
        List.drop_succ_cons, ← Nat.add_assoc]
      exact hnext

end

end Wildcard
