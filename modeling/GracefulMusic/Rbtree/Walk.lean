import GracefulMusic.Rbtree.Erase

/-! Walking through a tree (`rb_first`, `rb_last`, `rb_next`, `rb_prev`), and histories.

To the right and to the left are one argument: what comes next on a side of a node is what
its subtree has there, and then what its parents have. -/
namespace GracefulMusic.Rbtree
open RedBlack (Color Side ColorTree Frame Context)
open RedBlack.ColorTree RedBlack.Context

variable {P : Type} {n : P → Node P} {m : Memory P} {s : Side} {c : Color}
  {a b t u : ColorTree P} {k x y z w : P} {p : Context P}

/-- A sequence in the direction of a side. -/
def toward (s : Side) (l : List P) : List P :=
  match s with
  | .right => l
  | .left => l.reverse

@[simp] theorem toward_nil (s : Side) : toward s ([] : List P) = [] := by cases s <;> rfl

/-- What comes after a hole in the direction of a side. -/
def beyond (s : Side) (p : Context P) : List P :=
  match s with
  | .right => after p
  | .left => (before p).reverse

@[simp] theorem beyond_nil (s : Side) : beyond s ([] : Context P) = [] := by cases s <;> rfl

theorem toward_build : toward s (build s c a k b).toList =
    toward s b.toList ++ k :: toward s a.toList := by
  cases s <;> simp [toward, build, toList]

theorem beyond_same (p : Context P) : beyond s (⟨s, c, k, b⟩ :: p) = beyond s p := by
  cases s <;> simp [beyond, before, after]

theorem beyond_other (p : Context P) :
    beyond s (⟨s.other, c, k, b⟩ :: p) = k :: toward s b.toList ++ beyond s p := by
  cases s <;> simp [beyond, before, after, toward, Side.other]

theorem toward_plug : toward s (plug t p).toList =
    (beyond s.other p).reverse ++ toward s t.toList ++ beyond s p := by
  rw [toList_plug]
  cases s <;> simp [toward, beyond, Side.other]

theorem beyond_all {q : Context P} (hq : ∀ f ∈ q, f.side = s) : beyond s q = [] := by
  induction q with
  | nil => exact beyond_nil s
  | cons f q ih =>
    obtain ⟨side, c, k, b⟩ := f
    obtain rfl : side = s := hq _ (.head _)
    rw [beyond_same, ih fun f hf => hq f (.tail _ hf)]

variable [DecidableEq P]

omit [DecidableEq P] in
/-- The last node on the way to a side is the first in the other direction. -/
theorem farthest_head {rounds : Nat} (hk : ptr t = some k) (h : At n m t p)
    (hrounds : t.height ≤ rounds) :
    m.farthest s.other rounds k = (toward s t.toList).head? := by
  obtain ⟨q, c, y, u, hrun, rfl, hq⟩ := farthest_at s.other hk h hrounds
  rw [hrun, toward_plug, beyond_all hq, build_other, toward_build]
  simp [toList]

/-- The way up ends at the first parent that comes next. -/
theorem climb_head {rounds : Nat} (h : At n m t p) (hk : ptr t = some k)
    (hrounds : p.length < rounds) : m.climb s rounds k = some (beyond s p).head? := by
  induction rounds generalizing t k p with
  | zero => omega
  | succ rounds ih =>
    obtain rfl | ⟨c, a, k', b, rfl⟩ := eq_build s t
    · cases hk
    obtain rfl : k' = k := by simpa using hk
    rw [Memory.climb, h.parent]
    cases p with
    | nil => simp [above]
    | cons f p =>
      obtain ⟨side, c', z, sibling⟩ := f
      have hup := at_down.mpr h
      simp only [List.length_cons] at hrounds
      rw [above_cons]
      by_cases hside : side = s
      · subst hside
        have hchild : m.child z side = some k' := by rw [hup.near, ptr_build]
        simp only [hchild, if_true, beyond_same]
        exact ih hup (ptr_build ..) (by omega)
      · obtain rfl : side = s.other := by cases side <;> cases s <;> simp_all [Side.other]
        have hchild : m.child z s ≠ some k' := by
          have hfar := hup.far
          rw [Side.other_other] at hfar
          rw [hfar]
          intro heq
          exact h.ptr_ne (build_ne_leaf _ _ _ _ _) (heq.trans (ptr_build ..).symm)
        simp only [if_neg hchild, beyond_other, List.cons_append, List.head?_cons]

/-- `rb_next` and `rb_prev`: what comes next in a subtree, and then around it. -/
theorem rbStep_head {rounds : Nat} (h : At n m (build s c a k b) p)
    (hrounds : (plug (build s c a k b) p).height < rounds) :
    m.rbStep s rounds k = some (toward s a.toList ++ beyond s p).head? := by
  have hlength := length_le_height (build s c a k b) p
  have hself : (m.node k).parent ≠ some k := by
    rw [h.parent]
    exact fun heq => h.apart (mem_toList_build.mpr (.inl rfl)) (above_mem heq)
  rw [Memory.rbStep, if_neg hself, h.near]
  cases ha : ptr a with
  | none =>
    obtain rfl : a = .leaf := by
      cases a with
      | leaf => rfl
      | node => cases ha
    rw [climb_head h (ptr_build ..) (by omega)]
    simp [toList]
  | some k' =>
    have hheight : a.height < (build s c a k b).height := by
      cases s <;> simp only [build, height] <;> omega
    dsimp only
    rw [farthest_head (s := s) ha (at_down.mp h) (by omega)]
    have hne : toward s a.toList ≠ [] := fun hnil => by
      have hmem := mem_of_ptr ha
      cases s <;> simp_all [toward]
    obtain ⟨z, l, hz⟩ := List.exists_cons_of_ne_nil hne
    simp [hz]

/-! ### The whole tree -/

omit [DecidableEq P] in
theorem rbEnd_head {rounds : Nat} (h : At n m t []) (hrounds : t.height < rounds) :
    m.rbEnd s.other rounds = some (toward s t.toList).head? := by
  rw [Memory.rbEnd, h.root]
  cases ht : ptr t with
  | none =>
    obtain rfl : t = .leaf := by
      cases t with
      | leaf => rfl
      | node => cases ht
    simp [toList]
  | some k =>
    have hne : (toward s t.toList) ≠ [] := fun hnil => by
      have hmem := mem_of_ptr ht
      cases s <;> simp_all [toward]
    obtain ⟨z, l, hz⟩ := List.exists_cons_of_ne_nil hne
    dsimp only
    rw [farthest_head ht h (by omega), hz]
    rfl

/-- The next node in a direction is the one that follows in order. -/
theorem rbStep_next {rounds : Nat} {front back : List P} (h : At n m t [])
    (hrounds : t.height < rounds) (hlist : toward s t.toList = front ++ k :: back) :
    m.rbStep s rounds k = some back.head? := by
  have hk : k ∈ t.toList := by
    have hmem : k ∈ toward s t.toList := hlist ▸ List.mem_append_right _ (.head _)
    cases s with
    | left => exact List.mem_reverse.mp hmem
    | right => exact hmem
  obtain ⟨c, l, r, p, ht⟩ := exists_path hk
  obtain ⟨a, b, hturn⟩ := build_turn .left s c l k r
  rw [hturn] at ht
  subst ht
  have hnodup : (toward s (plug (build s c a k b) p).toList).Nodup := by
    have hnodup : (plug (build s c a k b) p).toList.Nodup := by
      simpa [keys, before, after] using h.nodup
    cases s with
    | left => exact List.nodup_reverse.mpr hnodup
    | right => exact hnodup
  have hsplit : toward s (plug (build s c a k b) p).toList =
      (beyond s.other p).reverse ++ toward s b.toList ++ k ::
        (toward s a.toList ++ beyond s p) := by
    rw [toward_plug, toward_build]
    simp
  have hfirst : k ∉ (beyond s.other p).reverse ++ toward s b.toList := by
    rw [hsplit] at hnodup
    grind
  have hrest : k ∉ toward s a.toList ++ beyond s p := by
    rw [hsplit] at hnodup
    grind
  obtain ⟨-, -, hback⟩ :=
    (List.append_cons_inj_of_notMem hfirst hrest).mp (hsplit.symm.trans hlist)
  rw [rbStep_head (at_plug.mpr h) hrounds, hback]

/-- From a node on, the loop sees all that follows. -/
theorem visit_eq {rounds loops : Nat} (h : At n m t []) (hrounds : t.height < rounds)
    (front : List P) {back : List P} (hlist : toward s t.toList = front ++ back)
    (hloops : back.length < loops) :
    Memory.visit (m.rbStep s rounds) loops back.head? = some back := by
  induction back generalizing front loops with
  | nil =>
    obtain ⟨loops, rfl⟩ : ∃ l, loops = l + 1 := ⟨loops - 1, by omega⟩
    rfl
  | cons k back ih =>
    obtain ⟨loops, rfl⟩ : ∃ l, loops = l + 1 := ⟨loops - 1, by omega⟩
    have hlist' : toward s t.toList = (front ++ [k]) ++ back := by rw [hlist]; simp
    simp only [List.head?_cons, Memory.visit, rbStep_next h hrounds hlist, bind, Option.bind_some]
    rw [ih _ hlist' (by simpa using hloops)]
    rfl

/-- Both loops over a tree see its nodes in order, and each step leads to the neighbour. -/
theorem rbForEach_visits {rounds : Nat} (hm : m.Stores t) (hrounds : t.toList.length < rounds) :
    m.rbForEach rounds = some t.toList ∧ m.rbForEachPrev rounds = some t.toList.reverse ∧
      ∀ front k back, t.toList = front ++ k :: back →
        m.rbNext rounds k = some back.head? ∧ m.rbPrev rounds k = some front.getLast? := by
  have hheight : t.height < rounds := lt_of_le_of_lt height_le_length hrounds
  have hfirst : m.rbFirst rounds = some (toward .right t.toList).head? :=
    rbEnd_head (s := .right) hm.1 hheight
  have hlast : m.rbLast rounds = some (toward .left t.toList).head? :=
    rbEnd_head (s := .left) hm.1 hheight
  refine ⟨?_, ?_, fun front k back hlist => ⟨?_, ?_⟩⟩
  · rw [Memory.rbForEach, hfirst]
    exact visit_eq (s := .right) hm.1 hheight [] rfl hrounds
  · rw [Memory.rbForEachPrev, hlast]
    exact visit_eq (s := .left) hm.1 hheight [] rfl
      ((List.length_reverse ..).trans_lt hrounds)
  · exact rbStep_next (s := .right) hm.1 hheight hlist
  · have hprev : toward .left t.toList = back.reverse ++ k :: front.reverse := by
      simp [toward, hlist]
    rw [Memory.rbPrev, rbStep_next (s := .left) hm.1 hheight hprev, List.head?_reverse]

end GracefulMusic.Rbtree
