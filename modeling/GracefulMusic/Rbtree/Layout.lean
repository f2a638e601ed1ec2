import GracefulMusic.Rbtree.Nodes

/-! How a tree lies in memory.

A tree is seen from one of its nodes: the subtree there, and the path to the root. Memory
outside of the tree is as it was. -/
namespace GracefulMusic.Rbtree
open RedBlack (Color Side ColorTree Frame Context)
open RedBlack.ColorTree RedBlack.Context

variable {P : Type}

/-! ### Nodes by sides -/

/-- A node with `near` on the side and `far` on the other. -/
def Node.build (s : Side) (parent : Option P) (color : Color) (near far : Option P) : Node P :=
  match s with
  | .left => ⟨parent, color, near, far⟩
  | .right => ⟨parent, color, far, near⟩

section
variable (s : Side) (parent : Option P) (color : Color) (near far : Option P)

@[simp] theorem Node.build_parent : (Node.build s parent color near far).parent = parent := by
  cases s <;> rfl

@[simp] theorem Node.build_color : (Node.build s parent color near far).color = color := by
  cases s <;> rfl

@[simp] theorem Node.build_near : (Node.build s parent color near far).child s = near := by
  cases s <;> rfl

@[simp] theorem Node.build_far : (Node.build s parent color near far).child s.other = far := by
  cases s <;> rfl

@[simp] theorem Node.build_setNear (c : Option P) :
    (Node.build s parent color near far).setChild s c = Node.build s parent color c far := by
  cases s <;> rfl

@[simp] theorem Node.build_setFar (c : Option P) :
    (Node.build s parent color near far).setChild s.other c = Node.build s parent color near c := by
  cases s <;> rfl

theorem Node.build_setParent (p : Option P) :
    (Node.build s parent color near far).setParent p = Node.build s p color near far := by
  cases s <;> rfl

theorem Node.build_setColor (c : Color) :
    (Node.build s parent color near far).setColor c = Node.build s parent c near far := by
  cases s <;> rfl

theorem Node.build_other :
    Node.build s.other parent color near far = Node.build s parent color far near := by
  cases s <;> rfl

end

theorem Node.setParent_setParent (n : Node P) (p q : Option P) :
    (n.setParent p).setParent q = n.setParent q := rfl

/-! ### Trees in memory -/

/-- What points to a tree. -/
def ptr : ColorTree P → Option P
  | .leaf => none
  | .node _ _ key _ => some key

@[simp] theorem ptr_build (s : Side) (c : Color) (a : ColorTree P) (k : P) (b : ColorTree P) :
    ptr (build s c a k b) = some k := by cases s <;> rfl

theorem mem_of_ptr {t : ColorTree P} {k : P} (h : ptr t = some k) : k ∈ t.toList := by
  cases t with
  | leaf => cases h
  | node c l key r =>
    cases h
    simp [toList]

/-- The nearest parent. -/
def above (p : Context P) : Option P := p.head?.map Frame.key

/-- The nodes of a tree below a parent. -/
def Holds (n : P → Node P) : Option P → ColorTree P → Prop
  | _, .leaf => True
  | parent, .node c l k r =>
    n k = ⟨parent, c, ptr l, ptr r⟩ ∧ Holds n (some k) l ∧ Holds n (some k) r

/-- The nodes around a subtree that `hole` points to. -/
def HoldsContext (m : Memory P) : Context P → Option P → Prop
  | [], hole => m.root = hole
  | f :: p, hole =>
    m.node f.key = Node.build f.side (above p) f.color hole (ptr f.sibling) ∧
      Holds m.node (some f.key) f.sibling ∧ HoldsContext m p (some f.key)

def keys (p : Context P) : List P := before p ++ after p

theorem notMem_leaf (q : P) : q ∉ (ColorTree.leaf : ColorTree P).toList := List.not_mem_nil

theorem notMem_hole (q : P) : q ∉ keys ([] : Context P) := List.not_mem_nil

theorem build_ne_leaf (s : Side) (c : Color) (a : ColorTree P) (k : P) (b : ColorTree P) :
    build s c a k b ≠ .leaf := fun h => by
  have hptr := congrArg ptr h
  rw [ptr_build] at hptr
  cases hptr

theorem mem_toList_build {s : Side} {c : Color} {a b : ColorTree P} {k q : P} :
    q ∈ (build s c a k b).toList ↔ q = k ∨ q ∈ a.toList ∨ q ∈ b.toList := by
  cases s <;> simp only [build, toList, List.mem_append, List.mem_cons] <;> tauto

theorem perm_build (s : Side) (c : Color) (a : ColorTree P) (k : P) (b : ColorTree P) :
    (build s c a k b).toList.Perm (k :: (a.toList ++ b.toList)) := by
  cases s with
  | left => exact List.perm_middle
  | right => exact List.perm_middle.trans (.cons k List.perm_append_comm)

theorem mem_keys_cons {f : Frame P} {p : Context P} {q : P} :
    q ∈ keys (f :: p) ↔ q = f.key ∨ q ∈ f.sibling.toList ∨ q ∈ keys p := by
  obtain ⟨side, c, k, sibling⟩ := f
  cases side <;> simp only [keys, before, after, List.mem_append, List.mem_cons] <;> simp <;> tauto

theorem mem_plug {t : ColorTree P} {p : Context P} {q : P} :
    q ∈ (plug t p).toList ↔ q ∈ t.toList ∨ q ∈ keys p := by
  rw [toList_plug]
  simp only [keys, List.mem_append]
  tauto

theorem perm_plug (t : ColorTree P) (p : Context P) :
    (plug t p).toList.Perm (t.toList ++ keys p) := by
  rw [toList_plug, keys, ← List.append_assoc]
  exact List.perm_append_comm.append_right _

@[simp] theorem holds_build {n : P → Node P} {parent : Option P} {s : Side} {c : Color}
    {a b : ColorTree P} {k : P} : Holds n parent (build s c a k b) ↔
      n k = Node.build s parent c (ptr a) (ptr b) ∧ Holds n (some k) a ∧ Holds n (some k) b := by
  cases s with
  | left => rfl
  | right =>
    simp only [build, Holds, Node.build]
    tauto

theorem Holds.congr {n n' : P → Node P} {parent : Option P} {t : ColorTree P}
    (h : ∀ q ∈ t.toList, n' q = n q) (ht : Holds n parent t) : Holds n' parent t := by
  induction t generalizing parent with
  | leaf => trivial
  | node c l k r hl hr =>
    refine ⟨(h k (by simp [toList])).trans ht.1, ?_, ?_⟩
    · exact hl (fun q hq => h q (by simp [toList, hq])) ht.2.1
    · exact hr (fun q hq => h q (by simp [toList, hq])) ht.2.2

theorem HoldsContext.congr {m m' : Memory P} {p : Context P} {hole : Option P}
    (hroot : m'.root = m.root) (h : ∀ q ∈ keys p, m'.node q = m.node q)
    (hp : HoldsContext m p hole) :
    HoldsContext m' p hole := by
  induction p generalizing hole with
  | nil => exact hroot.trans hp
  | cons f p ih =>
    refine ⟨(h f.key (mem_keys_cons.mpr (.inl rfl))).trans hp.1, hp.2.1.congr fun q hq => ?_, ?_⟩
    · exact h q (mem_keys_cons.mpr (.inr (.inl hq)))
    · exact ih (fun q hq => h q (mem_keys_cons.mpr (.inr (.inr hq)))) hp.2.2

/-- A tree in memory, seen from a subtree; outside of it memory is `n`. -/
structure At (n : P → Node P) (m : Memory P) (t : ColorTree P) (p : Context P) : Prop where
  tree : Holds m.node (above p) t
  path : HoldsContext m p (ptr t)
  nodup : (t.toList ++ keys p).Nodup
  others : ∀ q, q ∉ t.toList → q ∉ keys p → m.node q = n q

variable {n : P → Node P} {m : Memory P} {s : Side} {c : Color} {a b t : ColorTree P} {k : P}
  {p : Context P}

theorem perm_down : ((build s c a k b).toList ++ keys p).Perm
    (a.toList ++ keys (⟨s, c, k, b⟩ :: p)) :=
  (perm_plug _ p).symm.trans (perm_plug a (⟨s, c, k, b⟩ :: p))

/-- From a node to its child, and back. -/
theorem at_down : At n m (build s c a k b) p ↔ At n m a (⟨s, c, k, b⟩ :: p) := by
  have hmem : ∀ q, q ∈ (build s c a k b).toList ∨ q ∈ keys p ↔
      q ∈ a.toList ∨ q ∈ keys (⟨s, c, k, b⟩ :: p) := fun q => by
    rw [mem_toList_build, mem_keys_cons]
    tauto
  constructor
  · rintro ⟨htree, hpath, hnodup, hothers⟩
    obtain ⟨hk, ha, hb⟩ := holds_build.mp htree
    rw [ptr_build] at hpath
    exact ⟨ha, ⟨hk, hb, hpath⟩, perm_down.nodup_iff.mp hnodup, fun q hq hp =>
      hothers q (fun h => not_or.mpr ⟨hq, hp⟩ ((hmem q).mp (.inl h)))
        fun h => not_or.mpr ⟨hq, hp⟩ ((hmem q).mp (.inr h))⟩
  · rintro ⟨ha, ⟨hk, hb, hpath⟩, hnodup, hothers⟩
    refine ⟨holds_build.mpr ⟨hk, ha, hb⟩, ?_, perm_down.nodup_iff.mpr hnodup, fun q hq hp =>
      hothers q (fun h => not_or.mpr ⟨hq, hp⟩ ((hmem q).mpr (.inl h)))
        fun h => not_or.mpr ⟨hq, hp⟩ ((hmem q).mpr (.inr h))⟩
    rw [ptr_build]
    exact hpath

/-- To the other child. -/
theorem at_far : At n m (build s c a k b) p ↔ At n m b (⟨s.other, c, k, a⟩ :: p) := by
  rw [← at_down, build_other]

/-- The nodes of a list are left in memory as a balanced tree. -/
def EndsIn (n : P → Node P) (r : Option (Memory P)) (l : List P) : Prop :=
  ∃ m t, r = some m ∧ At n m t [] ∧ IsBalanced t ∧ t.toList = l

theorem At.node (h : At n m (build s c a k b) p) :
    m.node k = Node.build s (above p) c (ptr a) (ptr b) := (holds_build.mp h.tree).1

/-- From a subtree up to the whole tree. -/
theorem at_plug : At n m t p ↔ At n m (plug t p) [] := by
  induction p generalizing t with
  | nil => rfl
  | cons f p ih =>
    rw [plug_cons, ← ih]
    exact at_down.symm

theorem At.parent (h : At n m (build s c a k b) p) : (m.node k).parent = above p := by
  rw [h.node, Node.build_parent]

theorem At.color (h : At n m (build s c a k b) p) : (m.node k).color = c := by
  rw [h.node, Node.build_color]

theorem At.near (h : At n m (build s c a k b) p) : m.child k s = ptr a := by
  rw [Memory.child, h.node, Node.build_near]

theorem At.far (h : At n m (build s c a k b) p) : m.child k s.other = ptr b := by
  rw [Memory.child, h.node, Node.build_far]

theorem At.root (h : At n m t []) : m.root = ptr t := h.path

/-- No node is in two places. -/
theorem At.ptr_ne {f : Frame P} (h : At n m t (f :: p)) (ht : t ≠ .leaf) :
    ptr f.sibling ≠ ptr t := by
  intro heq
  obtain rfl | ⟨c, a, k, b, rfl⟩ := eq_build .left t
  · exact ht rfl
  · rw [ptr_build] at heq
    refine (List.nodup_append.mp h.nodup).2.2 k (mem_toList_build.mpr (.inl rfl)) k ?_ rfl
    exact mem_keys_cons.mpr (.inr (.inl (mem_of_ptr heq)))

/-- A parent is none of the other nodes around. -/
theorem key_ne {f : Frame P} (hnodup : (keys (f :: p)).Nodup) {q : P}
    (hq : q ∈ f.sibling.toList ∨ q ∈ keys p) : q ≠ f.key := by
  rintro rfl
  have hcons :
      (f.key :: ((ColorTree.leaf : ColorTree P).toList ++ f.sibling.toList ++ keys p)).Nodup :=
    ((perm_build f.side f.color .leaf f.key f.sibling).append_right (keys p)).nodup_iff.mp
      ((perm_down (s := f.side) (c := f.color) (a := .leaf) (k := f.key)).nodup_iff.mpr hnodup)
  refine (List.nodup_cons.mp hcons).1 ?_
  simpa [toList] using hq

/-! ### Writes -/

variable [DecidableEq P] {q x y : P} {node : Node P} {parent hole : Option P}

namespace Memory

@[simp] theorem write_self : (m.write k node).node k = node := Function.update_self ..

theorem write_other (h : q ≠ k) : (m.write k node).node q = m.node q :=
  Function.update_of_ne h ..

@[simp] theorem write_root : (m.write k node).root = m.root := rfl

@[simp] theorem setParentOf_root : (m.setParentOf hole parent).root = m.root := by
  cases hole <;> rfl

theorem setParentOf_other (h : ∀ k, hole = some k → q ≠ k) :
    (m.setParentOf hole parent).node q = m.node q := by
  cases hole with
  | none => rfl
  | some k => exact write_other (h k rfl)

end Memory

/-- A tree comes below another parent. -/
theorem Holds.setParentOf (ht : Holds m.node parent t) (hnodup : t.toList.Nodup)
    (new : Option P) : Holds (m.setParentOf (ptr t) new).node new t := by
  cases t with
  | leaf => trivial
  | node c l k r =>
    obtain ⟨hk, hl, hr⟩ := ht
    obtain ⟨-, hr', hlr⟩ := List.nodup_append.mp hnodup
    have hkl : ∀ q ∈ l.toList, q ≠ k := fun q hq => hlr q hq k (.head _)
    have hkr : ∀ q ∈ r.toList, q ≠ k := fun q hq h => (List.nodup_cons.mp hr').1 (h ▸ hq)
    refine ⟨?_, hl.congr fun q hq => Memory.write_other (hkl q hq),
      hr.congr fun q hq => Memory.write_other (hkr q hq)⟩
    exact Memory.write_self.trans (by rw [hk]; rfl)

/-- Every write to a node of the tree that leaves the links alone. -/
theorem At.rbSetColor (h : At n m (build s c a k b) p) (c' : Color) :
    At n (m.rbSetColor k c') (build s c' a k b) p := by
  obtain ⟨hk, ha, hb⟩ := holds_build.mp h.tree
  have hnodup : (k :: (a.toList ++ b.toList ++ keys p)).Nodup :=
    ((perm_build s c a k b).append_right (keys p)).nodup_iff.mp h.nodup
  have hout : ∀ q, q ∈ a.toList ∨ q ∈ b.toList ∨ q ∈ keys p → q ≠ k := by
    rintro q hq rfl
    refine (List.nodup_cons.mp hnodup).1 ?_
    simp only [List.mem_append]
    tauto
  have hother : ∀ q ≠ k, (m.rbSetColor k c').node q = m.node q := fun q => Memory.write_other
  refine ⟨holds_build.mpr ⟨?_, ha.congr fun q hq => hother q (hout q (.inl hq)),
    hb.congr fun q hq => hother q (hout q (.inr (.inl hq)))⟩, ?_, ?_, fun q hq hp => ?_⟩
  · exact Memory.write_self.trans (by rw [hk, Node.build_setColor])
  · have hpath := h.path
    rw [ptr_build] at hpath ⊢
    exact .congr (m := m) rfl (fun q hq => hother q (hout q (.inr (.inr hq)))) hpath
  · exact (((perm_build s c' a k b).append_right (keys p)).nodup_iff).mpr hnodup
  · have hne : q ≠ k := fun heq => hq (mem_toList_build.mpr (.inl heq))
    rw [hother q hne]
    exact h.others q (fun hmem => hq (mem_toList_build.mpr (mem_toList_build.mp hmem))) hp

/-- The test for a side finds the side of a hole that its sibling does not look like. -/
theorem HoldsContext.sideOf {f : Frame P} (hp : HoldsContext m (f :: p) hole)
    (hne : ptr f.sibling ≠ hole) (side : Side) : m.sideOf side hole f.key = f.side := by
  unfold Memory.sideOf Memory.child
  rw [hp.1]
  cases hs : f.side <;> cases side <;> simp [Node.build, Node.child, Side.other, hne]

/-- What pointed to a subtree points elsewhere. -/
theorem HoldsContext.relink (hp : HoldsContext m p (some k)) (hk : k ∉ keys p)
    (hnodup : (keys p).Nodup) (side : Side) (new : Option P) :
    HoldsContext (m.relink (above p) (m.sideOf side (some k)) new) p new ∧
      ∀ q ∉ keys p, (m.relink (above p) (m.sideOf side (some k)) new).node q = m.node q := by
  cases p with
  | nil => exact ⟨rfl, fun _ _ => rfl⟩
  | cons f p =>
    obtain ⟨hf, hsibling, hrest⟩ := hp
    have hside : m.sideOf side (some k) f.key = f.side :=
      HoldsContext.sideOf ⟨hf, hsibling, hrest⟩
        (fun h => hk (mem_keys_cons.mpr (.inr (.inl (mem_of_ptr h))))) side
    have hother : ∀ q ≠ f.key, (m.setChild f.key f.side new).node q = m.node q :=
      fun q => Memory.write_other
    simp only [above, List.head?_cons, Option.map_some, Memory.relink, hside]
    refine ⟨⟨?_, hsibling.congr fun q hq => hother q (key_ne hnodup (.inl hq)),
      .congr (m := m) rfl (fun q hq => hother q (key_ne hnodup (.inr hq))) hrest⟩,
      fun q hq => hother q ?_⟩
    · exact Memory.write_self.trans (by rw [hf, Node.build_setNear])
    · rintro rfl
      exact hq (mem_keys_cons.mpr (.inl rfl))

omit [DecidableEq P] in
theorem toList_rotate (s : Side) (c d : Color) (a : ColorTree P) (x : P) (b : ColorTree P) (y : P)
    (e : ColorTree P) : (build s d (build s c a x b) y e).toList =
      (build s c a x (build s d b y e)).toList := by
  cases s <;> simp [build, toList]

/-- A rotation in memory: the far child comes up, and what was between the two goes over. -/
theorem At.rbRotate {c d : Color} {e : ColorTree P}
    (h : At n m (build s c a x (build s d b y e)) p) :
    ∃ m', m.rbRotate s x = some m' ∧ At n m' (build s d (build s c a x b) y e) p := by
  obtain ⟨hx, ha, hy, hb, he⟩ := by simpa only [holds_build, ptr_build] using h.tree
  have hpath : HoldsContext m p (some x) := by simpa only [ptr_build] using h.path
  have hperm : ((build s c a x (build s d b y e)).toList ++ keys p).Perm
      (x :: y :: (a.toList ++ (b.toList ++ e.toList) ++ keys p)) :=
    (((perm_build s c a x _).trans (.cons x (((perm_build s d b y e).append_left _).trans
      List.perm_middle))).append_right _)
  have hnodup := hperm.nodup_iff.mp h.nodup
  simp only [List.nodup_cons, List.nodup_append, List.mem_cons, List.mem_append] at hnodup
  -- the writes, in order
  let m₁ := m.setChild x s.other (ptr b)
  let m₂ := m₁.setParentOf (ptr b) (some x)
  let m₃ := m₂.setChild y s (some x)
  let m₄ := m₃.rbSetParent y (above p)
  let m₅ := m₄.relink (above p) (m₄.sideOf s (some x)) (some y)
  let m₆ := m₅.rbSetParent x (some y)
  have h₁ : ∀ q ≠ x, m₁.node q = m.node q := fun q => Memory.write_other
  have h₂ : ∀ q ∉ b.toList, m₂.node q = m₁.node q := fun q hq =>
    Memory.setParentOf_other fun k hk heq => hq (heq ▸ mem_of_ptr hk)
  have h₃ : ∀ q ≠ y, m₃.node q = m₂.node q := fun q => Memory.write_other
  have h₄ : ∀ q ≠ y, m₄.node q = m₃.node q := fun q => Memory.write_other
  have hpath₄ : HoldsContext m₄ p (some x) := by
    refine .congr (m := m) ?_ (fun q hq => ?_) hpath
    · exact Memory.setParentOf_root
    · rw [h₄ q (by grind), h₃ q (by grind), h₂ q (by grind), h₁ q (by grind)]
  obtain ⟨hpath₅, h₅⟩ := hpath₄.relink (by grind) (by grind) s (some y)
  have h₆ : ∀ q ≠ x, m₆.node q = m₅.node q := fun q => Memory.write_other
  have hold : ∀ q, q ≠ x → q ≠ y → q ∉ b.toList → q ∉ keys p → m₆.node q = m.node q :=
    fun q hqx hqy hqb hqp => by
      rw [h₆ q hqx, h₅ q hqp, h₄ q hqy, h₃ q hqy, h₂ q hqb, h₁ q hqx]
  have hrun : m.rbRotate s x = some m₆ := by
    have hright : m.child x s.other = some y := by simp [Memory.child, hx]
    have hparent : (m.node x).parent = above p := by simp [hx]
    have hnear : m.child y s = ptr b := by simp [Memory.child, hy]
    have hnear₁ : m₁.child y s = ptr b := by
      rw [Memory.child, h₁ y (by grind)]
      exact hnear
    simp only [Memory.rbRotate, hright, hparent, hnear, bind, Option.bind_some]
    change some ((((((m₁.setParentOf (m₁.child y s) (some x)).setChild y s (some x)).rbSetParent y
      (above p)).relink _ _ _).rbSetParent x (some y))) = some m₆
    rw [hnear₁]
  refine ⟨m₆, hrun, holds_build.mpr ⟨?_, holds_build.mpr ⟨?_, ?_, ?_⟩, ?_⟩, ?_, ?_, ?_⟩
  · have hy₃ : m₃.node y = Node.build s (some x) d (some x) (ptr e) := by
      refine Memory.write_self.trans ?_
      rw [h₂ y (by grind), h₁ y (by grind), hy, Node.build_setNear]
    rw [h₆ y (by grind), h₅ y (by grind), ptr_build]
    exact Memory.write_self.trans (by rw [hy₃, Node.build_setParent])
  · have hx₁ : m₁.node x = Node.build s (above p) c (ptr a) (ptr b) :=
      Memory.write_self.trans (by rw [hx, Node.build_setFar])
    have hx₅ : m₅.node x = m₁.node x := by
      rw [h₅ x (by grind), h₄ x (by grind), h₃ x (by grind), h₂ x (by grind)]
    exact Memory.write_self.trans (by rw [hx₅, hx₁, Node.build_setParent])
  · exact ha.congr fun q hq => hold q (by grind) (by grind) (by grind) (by grind)
  · have hb₂ : Holds m₂.node (some x) b :=
      (hb.congr fun q hq => h₁ q (by grind)).setParentOf (by grind) _
    refine hb₂.congr fun q hq => ?_
    rw [h₆ q (by grind), h₅ q (by grind), h₄ q (by grind), h₃ q (by grind)]
  · exact he.congr fun q hq => hold q (by grind) (by grind) (by grind) (by grind)
  · rw [ptr_build]
    exact .congr (m := m₅) rfl (fun q hq => h₆ q (by grind)) hpath₅
  · rw [toList_rotate]
    exact h.nodup
  · rw [toList_rotate]
    intro q hq hp
    have hne := hq
    simp only [mem_toList_build, not_or] at hne
    rw [hold q hne.1 hne.2.2.1 hne.2.2.2.1 hp]
    exact h.others q hq hp

/-- The rotation to the other side. -/
theorem At.rbRotate_other {c d : Color} {e : ColorTree P}
    (h : At n m (build s c (build s d e y b) x a) p) :
    ∃ m', m.rbRotate s.other x = some m' ∧ At n m' (build s d e y (build s c b x a)) p := by
  have hother : At n m (build s.other c a x (build s.other d b y e)) p := by
    rw [build_other, build_other]
    exact h
  obtain ⟨m', hrun, h'⟩ := hother.rbRotate
  rw [build_other, build_other] at h'
  exact ⟨m', hrun, h'⟩

theorem At.sideOf {f : Frame P} (h : At n m t (f :: p)) (ht : t ≠ .leaf) (side : Side) :
    m.sideOf side (ptr t) f.key = f.side := h.path.sideOf (h.ptr_ne ht) side

end GracefulMusic.Rbtree
