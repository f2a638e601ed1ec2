import GracefulMusic.Rbtree.Layout

/-! Adding a node (`rb_insert_color`, and the searches of its callers).

The new node is red. Where its parent is red too, either both children of the grandparent
become black and the grandparent is the node to go on with, or the rotations end it. -/
namespace GracefulMusic.Rbtree
open RedBlack (Color Side ColorTree Frame Context)
open RedBlack.ColorTree RedBlack.Context

variable {P : Type} [DecidableEq P] {n : P → Node P} {m : Memory P} {s : Side} {c : Color}
  {a b t u : ColorTree P} {k x y z : P} {p : Context P} {h₀ : Nat}

theorem At.rbSetColor_far {d : Color} {e : ColorTree P} {s' : Side}
    (h : At n m (build s c a x (build s' d b y e)) p) (c' : Color) :
    At n (m.rbSetColor y c') (build s c a x (build s' c' b y e)) p :=
  at_far.mpr ((at_far.mp h).rbSetColor c')

theorem At.rbSetColor_near {d : Color} {e : ColorTree P} {s' : Side}
    (h : At n m (build s c (build s' d b y e) x a) p) (c' : Color) :
    At n (m.rbSetColor y c') (build s c (build s' c' b y e) x a) p :=
  at_down.mpr ((at_down.mp h).rbSetColor c')

theorem At.blackenRoot (h : At n m t []) (ht : t ≠ .leaf) :
    ∃ m', m.blackenRoot = some m' ∧ At n m' t.blacken [] := by
  cases t with
  | leaf => exact absurd rfl ht
  | node c l k r =>
    refine ⟨m.rbSetColor k .black, ?_, h.rbSetColor (s := .left) .black⟩
    rw [Memory.blackenRoot, h.root]
    rfl

omit [DecidableEq P] in
/-- The uncle, where it is red. -/
theorem Holds.filter_red {parent : Option P} (h : Holds m.node parent t) :
    (ptr t).filter (fun u => (m.node u).color = .red) = if t.color = .red then ptr t else none := by
  cases t with
  | leaf => rfl
  | node c l k r =>
    obtain ⟨hk, -⟩ := h
    cases c <;> simp [ptr, ColorTree.color, hk]

/-- At the root or below a black node the loop ends. -/
theorem rbInsertColor_done (rounds : Nat) (h : At n m (build s .red a x b) p)
    (hvalid : Valid h₀ (build s .red a x b)) (hfits : Fits h₀ p) (hend : p = [] ∨ TopBlack p) :
    ∃ m' t', m.rbInsertColor (rounds + 1) x = some m' ∧ At n m' t' [] ∧ IsBalanced t' ∧
      t'.toList = (plug (build s .red a x b) p).toList := by
  have hwhole := at_plug.mp h
  have hne : plug (build s .red a x b) p ≠ .leaf := fun hleaf => by
    have hmem : x ∈ (plug (build s .red a x b) p).toList :=
      mem_plug.mpr (.inl (mem_toList_build.mpr (.inl rfl)))
    rw [hleaf] at hmem
    cases hmem
  obtain ⟨m', hrun, h'⟩ := hwhole.blackenRoot hne
  have hloop : m.rbInsertColor (rounds + 1) x = m.blackenRoot := by
    cases p with
    | nil => simp [Memory.rbInsertColor, h.parent, above]
    | cons f p =>
      have hblack : f.color = .black := hend.resolve_left (by simp)
      have hcolor : (m.node f.key).color = .black := by rw [h.path.1, Node.build_color, hblack]
      simp [Memory.rbInsertColor, h.parent, above, hcolor]
  refine ⟨m', _, hloop.trans hrun, h', ?_, toList_blacken _⟩
  rcases hend with rfl | htop
  · exact hvalid.blacken
  · obtain ⟨hcolor, k, hplug⟩ := balanced_plug.mpr ⟨h₀, hvalid, .inr htop, hfits⟩
    exact hplug.blacken

/-- The node is on the same side as its parent: one rotation. -/
theorem insertRotate_outer (h : At n m (build s .black (build s .red t y b) z u) p)
    (ht : ptr t = some x) : ∃ m', m.insertRotate s x y z = some (x, m') ∧
      At n m' (build s .black t y (build s .red b z u)) p := by
  have hne : t ≠ .leaf := by
    rintro rfl
    cases ht
  have hfar : m.child y s.other ≠ some x := by
    rw [(at_down.mp h).far, ← ht]
    exact (at_down.mp (at_down.mp h)).ptr_ne hne
  have hblack := h.rbSetColor_near .black
  obtain ⟨m', hrun, h'⟩ := (hblack.rbSetColor .red).rbRotate_other
  exact ⟨m', by simp [Memory.insertRotate, hfar, hrun], h'⟩

/-- The node is on the other side: it comes up before the grandparent goes down. -/
theorem insertRotate_inner {t₁ t₂ : ColorTree P}
    (h : At n m (build s .black (build s .red a y (build s .red t₁ x t₂)) z u) p) :
    ∃ m', m.insertRotate s x y z = some (y, m') ∧
      At n m' (build s .black (build s .red a y t₁) x (build s .red t₂ z u)) p := by
  have hfar : m.child y s.other = some x := by rw [(at_down.mp h).far, ptr_build]
  obtain ⟨m₁, hrun₁, h₁⟩ := (at_down.mp h).rbRotate
  have hblack := (at_down.mpr h₁).rbSetColor_near .black
  obtain ⟨m', hrun, h'⟩ := (hblack.rbSetColor .red).rbRotate_other
  exact ⟨m', by simp [Memory.insertRotate, hfar, hrun₁, hrun], h'⟩

omit [DecidableEq P] in
theorem plug_congr {t' : ColorTree P} (h : t.toList = t'.toList) :
    (plug t p).toList = (plug t' p).toList := by
  rw [toList_plug, toList_plug, h]

omit [DecidableEq P] in
theorem toList_recolor (s : Side) (c c' : Color) (a : ColorTree P) (k : P) (b : ColorTree P) :
    (build s c a k b).toList = (build s c' a k b).toList := by cases s <;> rfl

omit [DecidableEq P] in
theorem toList_near {t' : ColorTree P} (h : t.toList = t'.toList) (s : Side) (c : Color) (k : P)
    (b : ColorTree P) : (build s c t k b).toList = (build s c t' k b).toList := by
  cases s <;> simp [build, toList, h]

omit [DecidableEq P] in
theorem toList_far {t' : ColorTree P} (h : t.toList = t'.toList) (s : Side) (c : Color) (k : P)
    (a : ColorTree P) : (build s c a k t).toList = (build s c a k t').toList := by
  cases s <;> simp [build, toList, h]

omit [DecidableEq P] in
/-- A node seen from the other side. -/
theorem build_turn (s s' : Side) (c : Color) (a : ColorTree P) (k : P) (b : ColorTree P) :
    ∃ a' b', build s c a k b = build s' c a' k b' := by
  cases s <;> cases s'
  exacts [⟨a, b, rfl⟩, ⟨b, a, rfl⟩, ⟨b, a, rfl⟩, ⟨a, b, rfl⟩]

omit [DecidableEq P] in
theorem above_cons (f : Frame P) (p : Context P) : above (f :: p) = some f.key := rfl

/-- One round below a red parent. -/
theorem rbInsertColor_red {rounds : Nat} {s₁ s₂ : Side} {b₁ : ColorTree P}
    (h : At n m (build s .red a x b) (⟨s₁, .red, y, b₁⟩ :: ⟨s₂, .black, z, u⟩ :: p)) :
    m.rbInsertColor (rounds + 1) x =
      match if u.color = .red then ptr u else none with
      | some w => (((m.rbSetColor w .black).rbSetColor y .black).rbSetColor z .red).rbInsertColor
          rounds z
      | none => (m.insertRotate s₂ x y z).bind fun r => r.2.rbInsertColor rounds r.1 := by
  have hne : build s₁ .red (build s .red a x b) y b₁ ≠ .leaf := build_ne_leaf _ _ _ _ _
  have hparent : (m.node x).parent = some y := h.parent
  have hup := at_down.mpr h
  have hside : m.sideOf .left (some y) z = s₂ := by
    have hside := hup.sideOf hne .left
    rwa [ptr_build] at hside
  have huncle : m.child z s₂.other = ptr u := (at_down.mpr hup).far
  have hgparent : (m.node y).parent = some z := hup.parent
  rw [Memory.rbInsertColor, hparent]
  simp only [hup.color, hgparent, bind, Option.bind_some, hside, huncle, hup.path.2.1.filter_red]
  rfl

/-- A red uncle: the black of the grandparent goes down to its children. -/
theorem At.recolour {s₁ s₂ s₃ : Side} {b₁ d e : ColorTree P} {w : P}
    (h : At n m t (⟨s₁, .red, y, b₁⟩ :: ⟨s₂, .black, z, build s₃ .red d w e⟩ :: p)) :
    At n (((m.rbSetColor w .black).rbSetColor y .black).rbSetColor z .red)
      (build s₂ .red (build s₁ .black t y b₁) z (build s₃ .black d w e)) p :=
  (((at_down.mpr (at_down.mpr h)).rbSetColor_far _).rbSetColor_near _).rbSetColor _

/-- The loop, from a red node whose subtree is valid. -/
theorem rbInsertColor_at {rounds : Nat} (hrounds : p.length < rounds)
    (h : At n m (build s .red a x b) p) (hvalid : Valid h₀ (build s .red a x b))
    (hfits : Fits h₀ p) :
    ∃ m' t', m.rbInsertColor rounds x = some m' ∧ At n m' t' [] ∧ IsBalanced t' ∧
      t'.toList = (plug (build s .red a x b) p).toList := by
  induction rounds generalizing m s a x b p h₀ with
  | zero => omega
  | succ rounds ih =>
    by_cases hend : p = [] ∨ TopBlack p
    · exact rbInsertColor_done rounds h hvalid hfits hend
    obtain ⟨hp, htop⟩ := not_or.mp hend
    obtain ⟨⟨s₁, c₁, y, b₁⟩, p, rfl⟩ := List.exists_cons_of_ne_nil hp
    obtain rfl : c₁ = .red := by
      cases c₁ with
      | red => rfl
      | black => exact absurd rfl htop
    obtain ⟨hb₁, hblack₁, htop', hfits'⟩ := hfits
    cases p with
    | nil => exact htop'.elim
    | cons g p =>
      obtain ⟨s₂, c₂, z, u⟩ := g
      obtain rfl : c₂ = .black := htop'
      obtain ⟨hu, hp'⟩ := hfits'
      rw [rbInsertColor_red h]
      simp only [List.length_cons] at hrounds
      by_cases hred : u.color = .red
      · obtain rfl | ⟨c₃, d, w, e, rfl⟩ := eq_build .left u
        · cases hred
        obtain rfl : c₃ = .red := by simpa using hred
        obtain ⟨-, -, hd, he⟩ := valid_red.mp (show Valid h₀ (build .left .red d w e) from hu)
        have h' := h.recolour
        have hvalid' : Valid (h₀ + 1) (build s₂ .red
            (build s₁ .black (build s .red a x b) y b₁) z (build .left .black d w e)) := by
          simp only [valid_red (s := s₂), color_build, valid_black]
          exact ⟨trivial, trivial, ⟨h₀, rfl, hvalid, hb₁⟩, h₀, rfl, hd, he⟩
        obtain ⟨m', t', hrun, ht', hbalanced, hlist⟩ := ih (by omega) h' hvalid' hp'
        rw [if_pos hred, ptr_build]
        refine ⟨m', t', hrun, ht', hbalanced, hlist.trans (plug_congr ?_)⟩
        cases s₁ <;> cases s₂ <;> rfl
      · have hblack : u.color = .black := by
          cases hc : u.color with
          | red => exact absurd hc hred
          | black => rfl
        rw [if_neg hred]
        have hgrand := at_down.mpr (at_down.mpr h)
        obtain ⟨rounds, rfl⟩ : ∃ r, rounds = r + 1 := ⟨rounds - 1, by omega⟩
        by_cases hsame : s₁ = s₂
        · subst hsame
          obtain ⟨m₁, hrun₁, h₁⟩ := insertRotate_outer hgrand (ptr_build ..)
          have hfits₁ : Fits h₀ (⟨s₁, .black, y, build s₁ .red b₁ z u⟩ :: p) :=
            ⟨valid_red.mpr ⟨hblack₁, hblack, hb₁, hu⟩, hp'⟩
          obtain ⟨m', t', hrun, ht', hbalanced, hlist⟩ :=
            rbInsertColor_done rounds (at_down.mp h₁) hvalid hfits₁ (.inr rfl)
          refine ⟨m', t', by simpa [hrun₁] using hrun, ht', hbalanced, hlist.trans ?_⟩
          simp only [plug_cons]
          exact plug_congr (by cases s₁ <;> simp [Frame.plug, build, toList])
        · obtain rfl : s₁ = s₂.other := by
            cases s₁ <;> cases s₂ <;> simp_all [Side.other]
          obtain ⟨t₁, t₂, heq⟩ := build_turn s s₂ Color.red a x b
          rw [heq] at hgrand hvalid ⊢
          rw [build_other] at hgrand
          obtain ⟨m₁, hrun₁, h₁⟩ := insertRotate_inner hgrand
          obtain ⟨hred₁, hred₂, ht₁, ht₂⟩ := valid_red.mp hvalid
          have hfits₁ : Fits h₀ (⟨s₂, .black, x, build s₂ .red t₂ z u⟩ :: p) :=
            ⟨valid_red.mpr ⟨hred₂, hblack, ht₂, hu⟩, hp'⟩
          obtain ⟨m', t', hrun, ht', hbalanced, hlist⟩ :=
            rbInsertColor_done rounds (at_down.mp h₁)
              (valid_red.mpr ⟨hblack₁, hred₁, hb₁, ht₁⟩) hfits₁ (.inr rfl)
          refine ⟨m', t', by simpa [hrun₁] using hrun, ht', hbalanced, hlist.trans ?_⟩
          simp only [plug_cons]
          exact plug_congr (by cases s₂ <;> simp [Frame.plug, build, toList, Side.other])

/-! ### Searching and linking -/

/-- Where a hole was read from. -/
def linkOf (p : Context P) : Option (P × Side) := p.head?.map fun f => (f.key, f.side)

theorem At.rbLinkNode (h : At n m .leaf p) (hx : x ∉ keys p) :
    At n (m.rbLinkNode x (linkOf p)) (build .left .red .leaf x .leaf) p := by
  have hnodup : (keys p).Nodup := h.nodup
  cases p with
  | nil =>
    refine ⟨⟨Memory.write_self, trivial, trivial⟩, rfl, hnodup.cons hx, fun q hq hp => ?_⟩
    have hne : q ≠ x := fun heq => hq (heq ▸ .head _)
    rw [← h.others q (notMem_leaf q) hp]
    exact Memory.write_other hne
  | cons f p =>
    obtain ⟨hf, hsibling, hpath⟩ := h.path
    have hne : ∀ q ∈ keys (f :: p), q ≠ x := fun q hq heq => hx (heq ▸ hq)
    have hfx : f.key ≠ x := hne _ (mem_keys_cons.mpr (.inl rfl))
    let m₁ := m.write x ⟨some f.key, .red, none, none⟩
    let m₂ := m₁.setChild f.key f.side (some x)
    have h₁ : ∀ q ≠ x, m₁.node q = m.node q := fun q => Memory.write_other
    have h₂ : ∀ q ≠ f.key, m₂.node q = m₁.node q := fun q => Memory.write_other
    have hold : ∀ q, q ∈ f.sibling.toList ∨ q ∈ keys p → m₂.node q = m.node q := fun q hq => by
      rw [h₂ q (key_ne hnodup hq), h₁ q (hne q (mem_keys_cons.mpr (.inr hq)))]
    change At n m₂ _ _
    refine ⟨⟨?_, trivial, trivial⟩, ⟨?_, hsibling.congr fun q hq => hold q (.inl hq),
      .congr (m := m) rfl (fun q hq => hold q (.inr hq)) hpath⟩, hnodup.cons hx, fun q hq hp => ?_⟩
    · rw [h₂ x hfx.symm]
      exact Memory.write_self
    · exact Memory.write_self.trans (by rw [h₁ _ hfx, hf, Node.build_setNear]; rfl)
    · have hqx : q ≠ x := fun heq => hq (heq ▸ .head _)
      rw [h₂ q fun heq => hp (mem_keys_cons.mpr (.inl heq)), h₁ q hqx]
      exact h.others q (notMem_leaf q) hp

omit [DecidableEq P] in
/-- A search from a subtree on. -/
theorem search_at {rounds : Nat} (probe : P → Int) (h : At n m t p) (hrounds : t.height < rounds) :
    (∃ k, t.shape.locate probe = some k ∧
      m.search probe rounds (linkOf p) (ptr t) = some (.taken k)) ∨
    t.shape.locate probe = none ∧ ∃ p', At n m .leaf p' ∧ plug .leaf p' = plug t p ∧
      m.search probe rounds (linkOf p) (ptr t) = some (.free (linkOf p')) ∧
      ∀ x, before p' ++ x :: after p' = before p ++ (t.shape.attach probe x).toList ++ after p := by
  induction t generalizing p rounds with
  | leaf =>
    obtain ⟨rounds, rfl⟩ : ∃ r, rounds = r + 1 := ⟨rounds - 1, by omega⟩
    refine .inr ⟨rfl, p, h, rfl, rfl, fun x => ?_⟩
    simp [shape, OrderedTree.attach, OrderedTree.toList]
  | node c l k r hl hr =>
    obtain ⟨rounds, rfl⟩ : ∃ r, rounds = r + 1 := ⟨rounds - 1, by omega⟩
    have hleft : m.child k .left = ptr l := At.near (s := .left) h
    have hright : m.child k .right = ptr r := At.far (s := .left) h
    simp only [height] at hrounds
    simp only [ptr, Memory.search, hleft, hright, shape, OrderedTree.locate, OrderedTree.attach]
    by_cases hlt : probe k < 0
    · simp only [if_pos hlt]
      rcases hl (at_down (s := .left).mp h) (by omega : l.height < rounds) with h' | ⟨hnone, p', h'⟩
      · exact .inl h'
      · refine .inr ⟨hnone, p', h'.1, h'.2.1, h'.2.2.1, fun x => ?_⟩
        rw [h'.2.2.2 x]
        simp [before, after, OrderedTree.toList]
    · by_cases hgt : probe k > 0
      · simp only [if_neg hlt, if_pos hgt]
        rcases hr (at_far (s := .left).mp h) (by omega : r.height < rounds) with
          h' | ⟨hnone, p', h'⟩
        · exact .inl h'
        · refine .inr ⟨hnone, p', h'.1, h'.2.1, h'.2.2.1, fun x => ?_⟩
          rw [h'.2.2.2 x]
          simp [before, after, OrderedTree.toList, Side.other]
      · exact .inl ⟨k, by simp [hlt, hgt]⟩

/-- A balanced tree in memory. -/
def Memory.Stores (m : Memory P) (t : ColorTree P) : Prop := At m.node m t [] ∧ IsBalanced t

omit [DecidableEq P] in
theorem At.stores (h : At n m t []) (hb : IsBalanced t) : m.Stores t :=
  ⟨⟨h.tree, h.path, h.nodup, fun _ _ _ => rfl⟩, hb⟩

omit [DecidableEq P] in
theorem attach_of_locate {probe : P → Int} {t : OrderedTree P} (h : t.locate probe = some k)
    (x : P) : t.attach probe x = t := by
  induction t with
  | leaf => cases h
  | node l key r hl hr =>
    simp only [OrderedTree.locate] at h
    simp only [OrderedTree.attach]
    split at h
    · rw [if_pos ‹_›, hl h]
    · rw [if_neg ‹_›]
      split at h
      · rw [if_pos ‹_›, hr h]
      · rw [if_neg ‹_›]

/-- A node is linked where a subtree was empty, and the tree is balanced again. -/
theorem rbLinkNode_stores {rounds : Nat} (h : At m.node m .leaf p) (hb : IsBalanced (plug .leaf p))
    (hx : x ∉ keys p) (hrounds : p.length < rounds) :
    ∃ m' t', (m.rbLinkNode x (linkOf p)).rbInsertColor rounds x = some m' ∧ m'.Stores t' ∧
      t'.toList = before p ++ x :: after p ∧ ∀ q ∉ t'.toList, m'.node q = m.node q := by
  obtain ⟨n₀, hvalid, -, hfits⟩ := balanced_plug.mp hb
  obtain rfl : n₀ = 0 := valid_leaf.mp hvalid
  obtain ⟨m', t', hrun, ht', hb', hlist⟩ := rbInsertColor_at hrounds (h.rbLinkNode hx)
    (valid_red.mpr ⟨rfl, rfl, .leaf, .leaf⟩) hfits
  refine ⟨m', t', hrun, ht'.stores hb', ?_, fun q hq => ht'.others q hq (notMem_hole q)⟩
  rw [hlist, toList_plug]
  simp [build, toList]

/-- A search that finds the node leaves the tree alone; otherwise the node is linked where
the search ended, and the tree is balanced again. Rounds for twice the logarithm of its size
are enough. -/
theorem rbInsert_stores {rounds : Nat} (probe : P → Int) (hm : m.Stores t) (hx : x ∉ t.toList)
    (hrounds : 2 * Nat.log 2 (t.toList.length + 1) < rounds) :
    ∃ m' t', m.rbInsert rounds probe x = some (t.shape.locate probe, m') ∧ m'.Stores t' ∧
      t'.toList = (t.shape.attach probe x).toList ∧ ∀ q ∉ t'.toList, m'.node q = m.node q := by
  obtain ⟨h, hb⟩ := hm
  have hheight : t.height < rounds := lt_of_le_of_lt hb.height_le hrounds
  rcases search_at probe h hheight with ⟨k, hk, hsearch⟩ | ⟨hnone, p, hp, hplug, hsearch, hattach⟩
  · refine ⟨m, t, ?_, ⟨h, hb⟩, ?_, fun _ _ => rfl⟩
    · rw [Memory.rbInsert, h.root]
      simp [show m.search probe rounds none (ptr t) = _ from hsearch, hk]
    · rw [attach_of_locate hk, toList_shape]
  · rw [plug_nil] at hplug
    have hxp : x ∉ keys p := fun hmem => hx (by rw [← hplug]; exact mem_plug.mpr (.inr hmem))
    have hlength := length_le_height .leaf p
    rw [hplug] at hlength
    obtain ⟨m', t', hrun, hm', hlist, hframe⟩ :=
      rbLinkNode_stores hp (hplug ▸ hb) hxp (by omega : p.length < rounds)
    refine ⟨m', t', ?_, hm', ?_, hframe⟩
    · rw [Memory.rbInsert, h.root]
      simp [show m.search probe rounds none (ptr t) = _ from hsearch, hnone, hrun]
    · rw [hlist, hattach x]
      simp [before, after]

end GracefulMusic.Rbtree
