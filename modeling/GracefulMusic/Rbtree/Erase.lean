import GracefulMusic.Rbtree.Insert

/-! Taking a node out (`rb_erase`, `_rb_erase_color`).

When a black node is gone, the ways through its place lack one black node. The loop goes up
until a red node can become black, or until the rotations around a sibling make up for it. -/
namespace GracefulMusic.Rbtree
open RedBlack (Color Side ColorTree Frame Context)
open RedBlack.ColorTree RedBlack.Context

variable {P : Type} [DecidableEq P] {n : P → Node P} {m : Memory P} {s : Side} {c : Color}
  {a b t u : ColorTree P} {k x y z w : P} {p : Context P} {h₀ : Nat}

/-- A subtree in whose place one black node is missing, and that is red where making it black
makes up for that. -/
def Lacks (h₀ : Nat) (t : ColorTree P) : Prop :=
  (t.color = .black ∧ Valid h₀ t) ∨ (t.color = .red ∧ Valid (h₀ + 1) t.blacken)

omit [DecidableEq P] in
theorem blacken_blacken (t : ColorTree P) : t.blacken.blacken = t.blacken := by cases t <;> rfl

omit [DecidableEq P] in
theorem blacken_build (s : Side) (c : Color) (a : ColorTree P) (k : P) (b : ColorTree P) :
    (build s c a k b).blacken = build s .black a k b := by cases s <;> rfl

omit [DecidableEq P] in
theorem blacken_color (t : ColorTree P) : t.blacken.color = .black := by
  cases t <;> rfl

omit [DecidableEq P] in
theorem At.isBlack (h : At n m t p) : m.isBlack (ptr t) = true ↔ t.color = .black := by
  obtain rfl | ⟨c, a, k, b, rfl⟩ := eq_build .left t
  · simp [Memory.isBlack, ptr, ColorTree.color]
  · rw [ptr_build, color_build]
    simp [Memory.isBlack, h.color]

/-- The node where the loop ends becomes black. -/
theorem At.blackenNode (h : At n m t p) : At n (m.blackenNode (ptr t)) t.blacken p := by
  cases t with
  | leaf => exact h
  | node c l k r => exact h.rbSetColor (s := .left) .black

/-- At a red node the loop ends, and at the root. -/
theorem rbEraseColor_end {rounds : Nat} (h : At n m t p) (ht : Lacks h₀ t) (hp : Fits (h₀ + 1) p)
    (hend : t.color = .red ∨ p = []) :
    EndsIn n (m.rbEraseColor (rounds + 1) (ptr t) (above p)) (plug t p).toList := by
  have hstop : ¬ (m.isBlack (ptr t) = true ∧ ptr t ≠ m.root) := by
    rw [h.isBlack]
    rcases hend with hred | rfl
    · simp [hred]
    · simp [h.root]
  refine ⟨_, plug t.blacken p, ?_, at_plug.mp h.blackenNode, ?_, plug_congr (toList_blacken t)⟩
  · rw [Memory.rbEraseColor, Memory.eraseLoop, if_neg hstop]
    rfl
  · rcases hend with hred | rfl
    · rcases ht with ⟨hblack, -⟩ | ⟨-, hvalid⟩
      · cases hred.symm.trans hblack
      · exact balanced_plug.mpr ⟨_, hvalid, .inl (blacken_color t), hp⟩
    · rcases ht with ⟨-, hvalid⟩ | ⟨-, hvalid⟩
      · exact hvalid.blacken
      · exact blacken_blacken t ▸ hvalid.blacken

/-- The rotations when the far child of the sibling is red: it becomes black for the node that
is missing. -/
theorem eraseRotate_far {d e : ColorTree P} {s' : Side}
    (h : At n m (build s c t k (build s .black a w (build s' .red d z e))) p) :
    ∃ m', m.eraseRotate s k w = some m' ∧
      At n m' (build s c (build s .black t k a) w (build s' .black d z e)) p := by
  have hsibling := at_far.mp h
  have hfar : m.child w s.other = some z := by rw [hsibling.far, ptr_build]
  have hred : m.isBlack (some z) = false := by
    have := (at_far.mp hsibling).isBlack
    rw [ptr_build, color_build] at this
    simpa using this
  have hcolor : (m.node k).color = c := h.color
  have h₁ := (h.rbSetColor_far c).rbSetColor .black
  have hfar₁ : ((m.rbSetColor w c).rbSetColor k .black).child w s.other = some z := by
    rw [(at_far.mp h₁).far, ptr_build]
  have h₂ := at_far.mpr ((at_far.mp h₁).rbSetColor_far .black)
  obtain ⟨m', hrun, h'⟩ := h₂.rbRotate
  refine ⟨m', ?_, h'⟩
  simp [Memory.eraseRotate, hfar, hred, hcolor, Memory.blackenChild, hfar₁, hrun]

/-- A red near child and a black far one: the near child becomes the sibling first. -/
theorem eraseRotate_near {d e : ColorTree P} (hb : b.color = .black)
    (h : At n m (build s c t k (build s .black (build s .red d z e) w b)) p) :
    ∃ m', m.eraseRotate s k w = some m' ∧
      At n m' (build s c (build s .black t k d) z (build s .black e w b)) p := by
  have hsibling := at_far.mp h
  have hfar : m.isBlack (m.child w s.other) = true := by
    rw [hsibling.far]
    exact (at_far.mp hsibling).isBlack.mpr hb
  have hnear : m.child w s = some z := by rw [hsibling.near, ptr_build]
  have h₁ := (hsibling.rbSetColor_near .black).rbSetColor .red
  obtain ⟨m₁, hrun₁, hup⟩ := h₁.rbRotate_other
  have h₂ := at_far.mpr hup
  have hother : m₁.child k s.other = some z := by rw [h₂.far, ptr_build]
  have hred : m₁.isBlack (m₁.child z s.other) = false := by
    have hz := at_far.mp h₂
    rw [hz.far]
    have := (at_far.mp hz).isBlack
    rw [color_build] at this
    simpa using this
  obtain ⟨m', hrun, h'⟩ := eraseRotate_far h₂
  refine ⟨m', ?_, h'⟩
  rw [← hrun]
  simp [Memory.eraseRotate, hfar, hred, Memory.blackenChild, hnear, hrun₁, hother]

/-- A tree in whose place a node of the right colour stands again is balanced. -/
theorem ends_balanced {f : Frame P} {t' : ColorTree P} {m' : Memory P} (hf : Fits (h₀ + 1) (f :: p))
    (h : At n m' (build f.side f.color a w b) p) (ha : Valid (h₀ + 1) a) (hb : Valid (h₀ + 1) b)
    (hblack : a.color = .black ∧ b.color = .black)
    (hlist : (build f.side f.color a w b).toList = t'.toList) :
    EndsIn n (some (m'.blackenNode m'.root)) (plug t' p).toList := by
  have hb : IsBalanced (plug (build f.side f.color a w b) p) := by
    obtain ⟨s, c, k, sibling⟩ := f
    cases c with
    | red => exact balanced_plug.mpr ⟨h₀ + 1, valid_red.mpr ⟨hblack.1, hblack.2, ha, hb⟩,
        .inr hf.2.2.1, hf.2.2.2⟩
    | black => exact balanced_plug.mpr ⟨h₀ + 2, valid_black.mpr ⟨_, rfl, ha, hb⟩,
        .inl (color_build ..), hf.2⟩
  have hwhole := at_plug.mp h
  refine ⟨_, _, rfl, hwhole.root ▸ hwhole.blackenNode, hb.2.choose_spec.blacken, ?_⟩
  rw [toList_blacken]
  exact plug_congr hlist

/-- A round at a black sibling, with what the loop does at the parent. -/
theorem eraseBlack_at (loop : Option P → Option P → Memory P → Option (Option P × Memory P))
    (h : At n m t (⟨s, c, k, build s .black a w b⟩ :: p)) (ht : Valid h₀ t)
    (hfits : Fits (h₀ + 1) (⟨s, c, k, build s .black a w b⟩ :: p))
    (hloop : ∀ m', a.color = .black → b.color = .black →
      At n m' (build s c t k (build s .red a w b)) p →
      EndsIn n ((loop (some k) (above p) m').map fun r => r.2.blackenNode r.1)
        (plug (build s c t k (build s .red a w b)) p).toList) :
    EndsIn n ((m.eraseBlack loop s k w).map fun r => r.2.blackenNode r.1)
      (plug t (⟨s, c, k, build s .black a w b⟩ :: p)).toList := by
  obtain ⟨h₁, heq, ha, hb⟩ := valid_black.mp hfits.1
  obtain rfl : h₀ = h₁ := by omega
  have hup := at_down.mpr h
  have hsibling := at_far.mp hup
  have hchildren : (m.isBlack (m.child w .left) = true ∧ m.isBlack (m.child w .right) = true) ↔
      a.color = .black ∧ b.color = .black := by
    have hnear := (at_down.mp hsibling).isBlack
    have hfar := (at_far.mp hsibling).isBlack
    rw [← hsibling.near] at hnear
    rw [← hsibling.far] at hfar
    cases s with
    | left => rw [← hnear, ← hfar]; rfl
    | right => rw [← hnear, ← hfar, and_comm]; rfl
  rw [Memory.eraseBlack]
  by_cases hboth : a.color = .black ∧ b.color = .black
  · rw [if_pos (hchildren.mpr hboth)]
    have h' := hup.rbSetColor_far .red
    have hparent : ((m.rbSetColor w .red).node k).parent = above p := h'.parent
    have hends := hloop _ hboth.1 hboth.2 h'
    rw [← hparent] at hends
    have hlist : (plug (build s c t k (build s .red a w b)) p).toList =
        (plug t (⟨s, c, k, build s .black a w b⟩ :: p)).toList :=
      plug_congr (by cases s <;> rfl)
    rw [← hlist]
    exact hends
  · rw [if_neg (fun hc => hboth (hchildren.mp hc))]
    by_cases hred : b.color = .red
    · obtain rfl | ⟨c', d, z, e, rfl⟩ := eq_build s b
      · cases hred
      obtain rfl : c' = .red := by simpa using hred
      obtain ⟨-, -, hd, he⟩ := valid_red.mp hb
      obtain ⟨m', hrun, h'⟩ := eraseRotate_far hup
      rw [hrun, plug_cons]
      exact ends_balanced (f := ⟨s, c, k, _⟩) hfits h' (valid_black.mpr ⟨h₀, rfl, ht, ha⟩)
        (valid_black.mpr ⟨h₀, rfl, hd, he⟩) ⟨color_build .., color_build ..⟩
        (by cases s <;> simp [Frame.plug, build, toList])
    · have hblack' : b.color = .black := by
        cases hc : b.color with
        | red => exact absurd hc hred
        | black => rfl
      obtain rfl | ⟨c', d, z, e, rfl⟩ := eq_build s a
      · exact absurd ⟨rfl, hblack'⟩ hboth
      obtain rfl : c' = .red := by
        cases c' with
        | red => rfl
        | black => exact absurd ⟨color_build .., hblack'⟩ hboth
      obtain ⟨-, -, hd, he⟩ := valid_red.mp ha
      obtain ⟨m', hrun, h'⟩ := eraseRotate_near hblack' hup
      rw [hrun, plug_cons]
      exact ends_balanced (f := ⟨s, c, k, _⟩) hfits h' (valid_black.mpr ⟨h₀, rfl, ht, hd⟩)
        (valid_black.mpr ⟨h₀, rfl, he, hb⟩) ⟨color_build .., color_build ..⟩
        (by cases s <;> simp [Frame.plug, build, toList])

omit [DecidableEq P] in
/-- Some node around is the root. -/
theorem HoldsContext.root {hole : Option P} (hp : HoldsContext m p hole) (hne : p ≠ []) :
    ∃ k ∈ keys p, m.root = some k := by
  induction p generalizing hole with
  | nil => exact absurd rfl hne
  | cons f p ih =>
    by_cases hnil : p = []
    · subst hnil
      exact ⟨f.key, mem_keys_cons.mpr (.inl rfl), hp.2.2⟩
    · obtain ⟨k, hk, hroot⟩ := ih hp.2.2 hnil
      exact ⟨k, mem_keys_cons.mpr (.inr (.inr hk)), hroot⟩

omit [DecidableEq P] in
theorem At.not_root (h : At n m t p) (hne : p ≠ []) : ptr t ≠ m.root := by
  obtain ⟨k, hk, hroot⟩ := h.path.root hne
  intro heq
  exact (List.nodup_append.mp h.nodup).2.2 k (mem_of_ptr (heq.trans hroot)) k hk rfl

/-- The loop, from a place in which a black node is missing. -/
theorem rbEraseColor_at {rounds : Nat} (hrounds : p.length < rounds) (h : At n m t p)
    (ht : Lacks h₀ t) (hfits : Fits (h₀ + 1) p) :
    EndsIn n (m.rbEraseColor rounds (ptr t) (above p)) (plug t p).toList := by
  induction rounds generalizing m t p h₀ with
  | zero => omega
  | succ rounds ih =>
    by_cases hend : t.color = .red ∨ p = []
    · exact rbEraseColor_end h ht hfits hend
    obtain ⟨hred, hp⟩ := not_or.mp hend
    obtain ⟨hblack, hvalid⟩ := ht.resolve_right (fun h => hred h.1)
    obtain ⟨⟨s, c, k, sibling⟩, p, rfl⟩ := List.exists_cons_of_ne_nil hp
    obtain rfl | ⟨c', a, w, b, rfl⟩ := eq_build s sibling
    · cases valid_leaf.mp hfits.1
    simp only [List.length_cons] at hrounds
    have hside : m.sideOf .left (ptr t) k = s := by
      refine h.path.sideOf (fun heq => ?_) .left
      by_cases hleaf : t = .leaf
      · subst hleaf
        rw [ptr_build] at heq
        cases heq
      · exact h.ptr_ne hleaf heq
    have hother : m.child k s.other = some w := by rw [(at_down.mpr h).far, ptr_build]
    have hstep : m.rbEraseColor (rounds + 1) (ptr t) (above (⟨s, c, k, build s c' a w b⟩ :: p)) =
        ((m.eraseSibling s k w).bind fun r => r.2.eraseBlack (Memory.eraseLoop rounds) s k r.1).map
          fun r => r.2.blackenNode r.1 := by
      have hcond : m.isBlack (ptr t) = true ∧ ptr t ≠ m.root :=
        ⟨h.isBlack.mpr hblack, h.not_root hp⟩
      rw [Memory.rbEraseColor, Memory.eraseLoop, if_pos hcond, above_cons]
      simp only [bind, Option.bind_some, hside, hother]
    rw [hstep]
    cases c' with
    | black =>
      have hcolor : (m.node w).color = .black := (at_far.mp (at_down.mpr h)).color
      simp only [Memory.eraseSibling, hcolor, reduceCtorEq, if_false, Option.bind_some]
      refine eraseBlack_at _ h hvalid hfits fun m' ha hb h' => ?_
      obtain ⟨h₁, heq, hva, hvb⟩ := valid_black.mp hfits.1
      obtain rfl : h₀ = h₁ := by omega
      have hsibling : Valid h₀ (build s .red a w b) := valid_red.mpr ⟨ha, hb, hva, hvb⟩
      rw [← ptr_build s c t k (build s .red a w b)]
      cases c with
      | red =>
        refine ih (by omega) h' (.inr ⟨color_build .., ?_⟩) hfits.2.2.2
        rw [blacken_build]
        exact valid_black.mpr ⟨h₀, rfl, hvalid, hsibling⟩
      | black =>
        exact ih (by omega) h'
          (.inl ⟨color_build .., valid_black.mpr ⟨h₀, rfl, hvalid, hsibling⟩⟩) hfits.2
    | red =>
      -- the parent is black, and red after a rotation: the loop ends there
      cases c with
      | red => cases (color_build s .red a w b).symm.trans hfits.2.1
      | black =>
        obtain ⟨ha, hb, hva, hvb⟩ := valid_red.mp hfits.1
        have hup := at_down.mpr h
        have hcolor : (m.node w).color = .red := (at_far.mp hup).color
        obtain ⟨m₁, hrun, h₁⟩ := ((hup.rbSetColor_far .black).rbSetColor .red).rbRotate
        obtain rfl | ⟨c₁, a₁, v, a₂, rfl⟩ := eq_build s a
        · cases valid_leaf.mp hva
        obtain rfl : c₁ = .black := by simpa using ha
        have hdown := at_down.mp (at_down.mp h₁)
        have hnear : m₁.child k s.other = some v := by rw [(at_down.mp h₁).far, ptr_build]
        have hsib : m.eraseSibling s k w = some (v, m₁) := by
          simp [Memory.eraseSibling, hcolor, hrun, hnear]
        rw [hsib]
        have hfits₁ : Fits (h₀ + 1) (⟨s, .red, k, build s .black a₁ v a₂⟩ ::
            ⟨s, .black, w, b⟩ :: p) :=
          ⟨hva, color_build .., rfl, hvb, hfits.2⟩
        have hround := eraseBlack_at (Memory.eraseLoop rounds) hdown hvalid hfits₁
          fun m' ha hb h' => by
            obtain ⟨h₂, heq, hva₁, hva₂⟩ := valid_black.mp hva
            obtain rfl : h₀ = h₂ := by omega
            obtain ⟨rounds, rfl⟩ : ∃ r, rounds = r + 1 := ⟨rounds - 1, by omega⟩
            rw [← ptr_build s .red t k (build s .red a₁ v a₂)]
            refine rbEraseColor_end h' (.inr ⟨color_build .., ?_⟩) ⟨hvb, hfits.2⟩
              (.inl (color_build ..))
            rw [blacken_build]
            exact valid_black.mpr ⟨h₀, rfl, hvalid, valid_red.mpr ⟨ha, hb, hva₁, hva₂⟩⟩
        have hlist :
            (plug (build s .black (build s .red t k (build s .black a₁ v a₂)) w b) p).toList =
              (plug (build s .black t k (build s .red (build s .black a₁ v a₂) w b)) p).toList :=
          plug_congr (by cases s <;> simp [build, toList])
        exact hlist ▸ hround

/-! ### Unlinking -/

omit [DecidableEq P] in
theorem At.apart (h : At n m t p) {q : P} (hq : q ∈ t.toList) : q ∉ keys p := fun hp =>
  (List.nodup_append.mp h.nodup).2.2 q hq q hp rfl

omit [DecidableEq P] in
theorem above_mem {z : P} (h : above p = some z) : z ∈ keys p := by
  cases p with
  | nil => cases h
  | cons f p =>
    cases h
    exact mem_keys_cons.mpr (.inl rfl)

namespace Memory

theorem node_rbSetParent (m : Memory P) (k q : P) (v : Option P) :
    (m.rbSetParent k v).node q = if q = k then (m.node q).setParent v else m.node q := by
  by_cases h : q = k
  · subst h
    rw [if_pos rfl]
    exact write_self
  · rw [if_neg h]
    exact write_other h

theorem node_setChild (m : Memory P) (k q : P) (s : Side) (v : Option P) :
    (m.setChild k s v).node q = if q = k then (m.node q).setChild s v else m.node q := by
  by_cases h : q = k
  · subst h
    rw [if_pos rfl]
    exact write_self
  · rw [if_neg h]
    exact write_other h

theorem node_write (m : Memory P) (k q : P) (v : Node P) :
    (m.write k v).node q = if q = k then v else m.node q := Function.update_apply ..

theorem node_setParentOf (m : Memory P) (hole : Option P) (q : P) (v : Option P) :
    (m.setParentOf hole v).node q = if hole = some q then (m.node q).setParent v
      else m.node q := by
  cases hole with
  | none => rfl
  | some k => simp only [setParentOf, node_rbSetParent, Option.some.injEq, eq_comm]

end Memory

/-- The side on which a hole is. -/
def holeSide (p : Context P) : Side := (p.head?.map Frame.side).getD .left

theorem HoldsContext.node_relink (hp : HoldsContext m p (some x)) (hx : x ∉ keys p) (new : Option P)
    (q : P) : (m.relink (above p) (m.sideOf .left (some x)) new).node q =
      if above p = some q then (m.node q).setChild (holeSide p) new else m.node q := by
  cases p with
  | nil => rfl
  | cons f p =>
    have hside := hp.sideOf (fun h => hx (mem_keys_cons.mpr (.inr (.inl (mem_of_ptr h))))) .left
    simp only [above_cons, Memory.relink, hside, Memory.node_setChild, Option.some.injEq, eq_comm,
      holeSide, List.head?_cons, Option.map_some, Option.getD_some]

theorem relink_root (m : Memory P) (parent : Option P) (side : P → Side) (new : Option P) :
    (m.relink parent side new).root = if parent = none then new else m.root := by
  cases parent <;> rfl

/-- The only child takes the place of a node, which is then out of the tree. -/
theorem replaceByChild_at (h : At n m (build s c t x .leaf) p) :
    ∃ m', m.replaceByChild x (ptr t) = (ptr t, above p, c, m') ∧
      At (Function.update n x (m.node x)) m' t p ∧
      m'.root = (if above p = none then ptr t else m.root) ∧ ∀ q, m'.node q =
        if above p = some q then (m.node q).setChild (holeSide p) (ptr t)
        else if ptr t = some q then (m.node q).setParent (above p) else m.node q := by
  obtain ⟨hx, ht, -⟩ := holds_build.mp h.tree
  have hpath : HoldsContext m p (some x) := by simpa only [ptr_build] using h.path
  have hnodup : (x :: (t.toList ++ keys p)).Nodup := by
    simpa [toList] using ((perm_build s c t x .leaf).append_right (keys p)).nodup_iff.mp h.nodup
  simp only [List.nodup_cons, List.nodup_append, List.mem_append, not_or] at hnodup
  have hmem : ∀ z, (ptr t = some z → z ∈ t.toList) ∧ (above p = some z → z ∈ keys p) :=
    fun z => ⟨mem_of_ptr, above_mem⟩
  let m₁ := m.setParentOf (ptr t) (above p)
  let m₂ := m₁.relink (above p) (m₁.sideOf .left (some x)) (ptr t)
  have h₁ : ∀ q ∉ t.toList, m₁.node q = m.node q := fun q hq =>
    Memory.setParentOf_other fun k hk heq => hq (heq ▸ mem_of_ptr hk)
  have hpath₁ : HoldsContext m₁ p (some x) :=
    .congr (m := m) Memory.setParentOf_root (fun q hq => h₁ q (by grind)) hpath
  obtain ⟨hpath₂, h₂⟩ := hpath₁.relink (by grind) (by grind) .left (ptr t)
  refine ⟨m₂, ?_, ⟨?_, hpath₂, ?_, fun q hq hp => ?_⟩, ?_, fun q => ?_⟩
  · simp [Memory.replaceByChild, h.parent, h.color, m₂, m₁]
  · exact (ht.setParentOf (by grind) _).congr fun q hq => h₂ q (by grind)
  · exact List.nodup_append.mpr hnodup.2
  · rw [h₂ q hp, h₁ q hq]
    by_cases hqx : q = x
    · rw [hqx, Function.update_self]
    · rw [Function.update_of_ne hqx]
      exact h.others q (fun hmem => (mem_toList_build.mp hmem).elim hqx fun hmem =>
        hmem.elim hq (notMem_leaf q)) hp
  · rw [relink_root, Memory.setParentOf_root]
  · rw [hpath₁.node_relink (by grind)]
    simp only [m₁, Memory.node_setParentOf]
    grind

/-- `rb_replace_node`: another node has the place of the old one, and all else is as before. -/
theorem rbReplaceNode_at (h : At n m (build .left c a x b) p)
    (hy : y ∉ (build .left c a x b).toList) (hyp : y ∉ keys p) :
    At (Function.update n x (m.node x)) (m.rbReplaceNode x y) (build .left c a y b) p := by
  obtain ⟨hx, ha, hb⟩ := holds_build.mp h.tree
  have hpath : HoldsContext m p (some x) := by simpa only [ptr_build] using h.path
  have hnodup : (x :: (a.toList ++ b.toList ++ keys p)).Nodup :=
    ((perm_build .left c a x b).append_right (keys p)).nodup_iff.mp h.nodup
  rw [mem_toList_build, not_or, not_or] at hy
  simp only [List.nodup_cons, List.nodup_append, List.mem_append, not_or] at hnodup
  let m₁ := m.relink (above p) (m.sideOf .left (some x)) (some y)
  let m₂ := m₁.setParentOf (ptr a) (some y)
  let m₃ := m₂.setParentOf (ptr b) (some y)
  let m₄ := m₃.write y (m₃.node x)
  obtain ⟨hpath₁, h₁⟩ := hpath.relink (by grind) (by grind) .left (some y)
  have h₂ : ∀ q ∉ a.toList, m₂.node q = m₁.node q := fun q hq =>
    Memory.setParentOf_other fun k hk heq => hq (heq ▸ mem_of_ptr hk)
  have h₃ : ∀ q ∉ b.toList, m₃.node q = m₂.node q := fun q hq =>
    Memory.setParentOf_other fun k hk heq => hq (heq ▸ mem_of_ptr hk)
  have h₄ : ∀ q ≠ y, m₄.node q = m₃.node q := fun q => Memory.write_other
  have hx₁ : m₁.node x = Node.build .left (above p) c (ptr a) (ptr b) :=
    (h₁ x (by grind)).trans hx
  have hx₂ : m₂.node x = Node.build .left (above p) c (ptr a) (ptr b) :=
    (h₂ x (by grind)).trans hx₁
  have hx₃ : m₃.node x = Node.build .left (above p) c (ptr a) (ptr b) :=
    (h₃ x (by grind)).trans hx₂
  have hrun : m.rbReplaceNode x y = m₄ := by
    have hleft : (m₁.node x).left = ptr a := by
      rw [hx₁]
      rfl
    have hright : (m₂.node x).right = ptr b := by
      rw [hx₂]
      rfl
    simp only [m₂, m₁] at hleft hright
    simp only [Memory.rbReplaceNode, h.parent, hleft, hright]
    rfl
  have ha₂ : Holds m₂.node (some y) a :=
    (ha.congr fun q hq => h₁ q (by grind)).setParentOf (by grind) _
  have hb₃ : Holds m₃.node (some y) b :=
    (hb.congr fun q hq => (h₂ q (by grind)).trans (h₁ q (by grind))).setParentOf (by grind) _
  rw [hrun]
  refine ⟨holds_build.mpr ⟨Memory.write_self.trans hx₃, ha₂.congr fun q hq => ?_,
    hb₃.congr fun q hq => h₄ q (by grind)⟩, ?_, ?_, fun q hq hp => ?_⟩
  · rw [h₄ q (by grind), h₃ q (by grind)]
  · rw [ptr_build]
    refine .congr (m := m₁) ?_ (fun q hq => ?_) hpath₁
    · exact Memory.setParentOf_root.trans Memory.setParentOf_root
    · rw [h₄ q (by grind), h₃ q (by grind), h₂ q (by grind)]
  · refine ((perm_build .left c a y b).append_right (keys p)).nodup_iff.mpr ?_
    simp only [List.cons_append, List.nodup_cons, List.nodup_append, List.mem_append, not_or]
    grind
  · rw [mem_toList_build, not_or, not_or] at hq
    rw [h₄ q hq.1, h₃ q hq.2.2, h₂ q hq.2.1, h₁ q hp]
    by_cases hqx : q = x
    · rw [hqx, Function.update_self]
    · rw [Function.update_of_ne hqx]
      exact h.others q (fun hmem => (mem_toList_build.mp hmem).elim hqx fun hmem =>
        hmem.elim hq.2.1 hq.2.2) hp

/-! ### The next node -/

omit [DecidableEq P] in
theorem plug_append (t : ColorTree P) (q p : Context P) : plug t (q ++ p) = plug (plug t q) p :=
  List.foldl_append

omit [DecidableEq P] in
/-- The last node on the way to a side, seen from there. -/
theorem farthest_at {rounds : Nat} (s : Side) (hne : ptr t = some k) (h : At n m t p)
    (hrounds : t.height ≤ rounds) : ∃ q c y u, m.farthest s rounds k = some y ∧
      t = plug (build s c .leaf y u) q ∧ ∀ f ∈ q, f.side = s := by
  induction rounds generalizing t k p with
  | zero =>
    cases t with
    | leaf => cases hne
    | node c l k r => simp [height] at hrounds
  | succ rounds ih =>
    obtain rfl | ⟨c, a, k', b, rfl⟩ := eq_build s t
    · cases hne
    obtain rfl : k' = k := by simpa using hne
    have hheight : a.height ≤ rounds := by
      cases s <;> simp only [build, height] at hrounds <;> omega
    rw [Memory.farthest, h.near]
    cases ha : ptr a with
    | none =>
      obtain rfl : a = .leaf := by
        cases a with
        | leaf => rfl
        | node => cases ha
      exact ⟨[], c, k', b, rfl, rfl, List.forall_mem_nil _⟩
    | some k₁ =>
      obtain ⟨q, c₁, y, u, hrun, ht, hq⟩ := ih ha (at_down.mp h) hheight
      refine ⟨q ++ [⟨s, c, k', b⟩], c₁, y, u, hrun, ?_, ?_⟩
      · rw [plug_append, ← ht]
        rfl
      · simp only [List.mem_append, List.mem_singleton]
        rintro f (hf | rfl)
        · exact hq f hf
        · rfl

omit [DecidableEq P] in
theorem at_append {q : Context P} : At n m t (q ++ p) ↔ At n m (plug t q) p := by
  induction q generalizing t with
  | nil => rfl
  | cons f q ih =>
    rw [List.cons_append, plug_cons, ← ih]
    exact at_down.symm

omit [DecidableEq P] in
theorem perm_hole (s : Side) (c : Color) (y : P) (u : ColorTree P) (q : Context P) :
    (plug (build s c .leaf y u) q).toList.Perm (y :: (plug u q).toList) := by
  refine (perm_plug _ q).trans (((perm_build s c .leaf y u).append_right _).trans ?_)
  exact .cons y (perm_plug u q).symm

omit [DecidableEq P] in
theorem At.congr {n' : P → Node P} {m' : Memory P} (h : At n m t p) (hroot : m'.root = m.root)
    (hnode : ∀ q, q ∈ t.toList ∨ q ∈ keys p → m'.node q = m.node q)
    (hout : ∀ q, q ∉ t.toList → q ∉ keys p → m'.node q = n' q) : At n' m' t p :=
  ⟨h.tree.congr fun q hq => hnode q (.inl hq),
    h.path.congr hroot fun q hq => hnode q (.inr hq), h.nodup, hout⟩

/-- The memory after `rb_replace_node`. -/
theorem node_rbReplaceNode (h : At n m (build .left c a x b) p) (y q : P) :
    (m.rbReplaceNode x y).node q =
      if q = y then Node.build .left (above p) c (ptr a) (ptr b)
      else if ptr a = some q ∨ ptr b = some q then (m.node q).setParent (some y)
      else if above p = some q then (m.node q).setChild (holeSide p) (some y) else m.node q := by
  have hpath : HoldsContext m p (some x) := by simpa only [ptr_build] using h.path
  have hnodup : (x :: (a.toList ++ b.toList ++ keys p)).Nodup :=
    ((perm_build .left c a x b).append_right (keys p)).nodup_iff.mp h.nodup
  simp only [List.nodup_cons, List.nodup_append, List.mem_append, not_or] at hnodup
  have hmem : ∀ z, (ptr a = some z → z ∈ a.toList) ∧ (ptr b = some z → z ∈ b.toList) ∧
      (above p = some z → z ∈ keys p) := fun z => ⟨mem_of_ptr, mem_of_ptr, above_mem⟩
  have hrelink := hpath.node_relink (by grind) (some y)
  have hx₁ := (hrelink x).trans (if_neg (by grind)) |>.trans h.node
  have hleft : ((m.relink (above p) (m.sideOf .left (some x)) (some y)).node x).left = ptr a := by
    rw [hx₁]
    rfl
  have hx₂ := (Memory.node_setParentOf (m.relink (above p) (m.sideOf .left (some x)) (some y))
    (ptr a) x (some y)).trans (if_neg (by grind)) |>.trans hx₁
  have hright : (((m.relink (above p) (m.sideOf .left (some x)) (some y)).setParentOf (ptr a)
      (some y)).node x).right = ptr b := by
    rw [hx₂]
    rfl
  simp only [Memory.rbReplaceNode, h.parent, hleft, hright, Memory.node_write]
  split
  · exact (Memory.node_setParentOf _ (ptr b) x (some y)).trans (if_neg (by grind)) |>.trans hx₂
  · simp only [Memory.node_setParentOf, hrelink]
    grind

theorem takePlace_eq {parent : Option P} {color : Color} {r : Option P}
    (hx : m.node x = Node.build .left parent color (some w) r) (hxy : x ≠ y) (hwy : w ≠ y) :
    ∃ m', m.takePlace x y = some m' ∧ m'.root = m.root ∧ ∀ q, m'.node q =
      if q = y then Node.build .left parent color (some w) (m.node y).right
      else if q = w then (m.node q).setParent (some y) else m.node q := by
  let m₁ := m.write y (((m.node y).setParent parent).setColor color)
  let m₂ := m₁.setChild y .left (some w)
  have hx₁ : m₁.node x = m.node x := Memory.write_other hxy
  have hx₂ : m₂.node x = m.node x := (Memory.write_other hxy).trans hx₁
  refine ⟨m₂.rbSetParent w (some y), ?_, rfl, fun q => ?_⟩
  · have hparent : (m.node x).parent = parent := by rw [hx, Node.build_parent]
    have hcolor : (m.node x).color = color := by rw [hx, Node.build_color]
    have hleft₁ : (m₁.node x).left = some w := by rw [hx₁, hx]; rfl
    have hleft₂ : (m₂.node x).left = some w := by rw [hx₂, hx]; rfl
    simp only [m₂, m₁] at hleft₁ hleft₂
    simp only [Memory.takePlace, hparent, hcolor, hleft₁, hleft₂, bind, Option.bind_some]
    rfl
  · simp only [m₂, m₁, Memory.node_rbSetParent, Memory.node_setChild, Memory.node_write]
    split_ifs <;> first | rfl | grind

theorem root_rbReplaceNode (m : Memory P) (x y : P) :
    (m.rbReplaceNode x y).root = if (m.node x).parent = none then some y else m.root := by
  rw [Memory.rbReplaceNode, Memory.write_root, Memory.setParentOf_root, Memory.setParentOf_root,
    relink_root]

/-- What `rb_erase` does when the next node is the right child. -/
theorem replaceByNext_child {rounds : Nat} {l : ColorTree P} {c' : Color}
    (h : At n m (build .left c l x (build .left c' .leaf y u)) p) (hl : ptr l = some w)
    (hrun : m.farthest .left rounds y = some y) :
    ∃ m', m.replaceByNext rounds x y = some (ptr u, some y, c', m') ∧
      m'.root = (if above p = none then some y else m.root) ∧ ∀ q, m'.node q =
        if q = y then Node.build .left (above p) c (some w) (ptr u)
        else if q = w then (m.node q).setParent (some y)
        else if above p = some q then (m.node q).setChild (holeSide p) (some y) else m.node q := by
  have hpath : HoldsContext m p (some x) := by simpa only [ptr_build] using h.path
  have hnodup : (x :: (l.toList ++ y :: u.toList ++ keys p)).Nodup :=
    (((perm_build .left c l x _).trans (.cons x ((perm_build ..).append_left _))).append_right
      (keys p)).nodup_iff.mp h.nodup
  simp only [List.nodup_cons, List.nodup_append, List.mem_append, List.mem_cons, not_or] at hnodup
  have hw : w ∈ l.toList := mem_of_ptr hl
  have habove : ∀ z, above p = some z → z ∈ keys p := fun z => above_mem
  have hrelink := hpath.node_relink (by grind) (some y)
  let m₁ := m.relink (above p) (m.sideOf .left (some x)) (some y)
  have hx₁ : m₁.node x = Node.build .left (above p) c (some w) (some y) := by
    refine (hrelink x).trans (if_neg (by grind)) |>.trans ?_
    rw [h.node, hl, ptr_build]
  have hy₁ : m₁.node y = Node.build .left (some x) c' none (ptr u) :=
    (hrelink y).trans (if_neg (by grind)) |>.trans (at_far.mp h).node
  obtain ⟨m', hplace, hroot, hnode⟩ := takePlace_eq (y := y) hx₁ (by grind) (by grind)
  refine ⟨m', ?_, hroot.trans (relink_root ..), fun q => ?_⟩
  · have hparent : (m₁.node y).parent = some x := by rw [hy₁, Node.build_parent]
    have hcolor : (m₁.node y).color = c' := by rw [hy₁, Node.build_color]
    have hright : (m₁.node y).right = ptr u := by rw [hy₁]; rfl
    simp only [m₁] at hparent hcolor hright hplace
    simp only [Memory.replaceByNext, hrun, bind, Option.bind_some, h.parent, hparent, if_true,
      hcolor, hright, hplace, Option.map_some]
  · rw [hnode, hy₁]
    simp only [m₁, hrelink]
    split_ifs <;> first | rfl | grind

omit [DecidableEq P] in
theorem mem_around {q : Context P} {z : P} : z ∈ t.toList ∨ z ∈ keys (q ++ ⟨s, c, k, b⟩ :: p) ↔
    z = k ∨ z ∈ (plug t q).toList ∨ z ∈ b.toList ∨ z ∈ keys p := by
  rw [← mem_plug, plug_append, plug_cons, mem_plug, Frame.plug, mem_toList_build]
  tauto

omit [DecidableEq P] in
theorem ptr_plug_mem {f : Frame P} {q : Context P} (h : ptr (plug t (f :: q)) = some k) :
    k ∈ keys (f :: q) := by
  induction q generalizing t f with
  | nil =>
    rw [plug_cons, plug_nil, Frame.plug, ptr_build] at h
    cases h
    exact mem_keys_cons.mpr (.inl rfl)
  | cons g q ih => exact mem_keys_cons.mpr (.inr (.inr (ih (t := f.plug t) h)))

omit [DecidableEq P] in
/-- The root of a tree is the same whatever stands in a hole below it. -/
theorem ptr_plug {f : Frame P} {q : Context P} (t u : ColorTree P) :
    ptr (plug t (f :: q)) = ptr (plug u (f :: q)) := by
  induction q generalizing t u f with
  | nil => simp only [plug_cons, plug_nil, Frame.plug, ptr_build]
  | cons g q ih => exact ih (f.plug t) (f.plug u)

omit [DecidableEq P] in
theorem Holds.parent_eq {parent : Option P} (h : Holds m.node parent t) (hk : ptr t = some k) :
    (m.node k).parent = parent := by
  cases t with
  | leaf => cases hk
  | node c l k' r =>
    cases hk
    rw [h.1]

/-- What `rb_erase` does when the next node is a left child. -/
theorem replaceByNext_below {rounds : Nat} {l : ColorTree P} {c' : Color} {g : Frame P}
    {q : Context P}
    (h : At n m (build .left c l x (plug (build .left c' .leaf y u) (g :: q))) p)
    (hl : ptr l = some w) (hr : ptr (plug (build .left c' .leaf y u) (g :: q)) = some k)
    (hrun : m.farthest .left rounds k = some y) :
    ∃ m', m.replaceByNext rounds x k = some (ptr u, some g.key, c', m') ∧
      m'.root = (if above p = none then some y else m.root) ∧ ∀ z, m'.node z =
        if z = y then Node.build .left (above p) c (some w) (some k)
        else if z = w then (m.node z).setParent (some y)
        else if above p = some z then (m.node z).setChild (holeSide p) (some y)
        else if ptr u = some z then (m.node z).setParent (some g.key)
        else if z = k then
          (if z = g.key then (m.node z).setChild .left (ptr u) else m.node z).setParent (some y)
        else if z = g.key then (m.node z).setChild .left (ptr u) else m.node z := by
  have hpath : HoldsContext m p (some x) := by simpa only [ptr_build] using h.path
  have hnodup : (x :: (l.toList ++ y :: (u.toList ++ keys (g :: q)) ++ keys p)).Nodup :=
    (((perm_build .left c l x _).trans (.cons x (((perm_hole ..).trans
      (.cons y (perm_plug u (g :: q)))).append_left _))).append_right (keys p)).nodup_iff.mp h.nodup
  simp only [List.nodup_cons, List.nodup_append, List.mem_append, List.mem_cons, not_or] at hnodup
  have hy := at_append.mpr (at_far.mp h)
  have hw : w ∈ l.toList := mem_of_ptr hl
  have hg : g.key ∈ keys (g :: q) := mem_keys_cons.mpr (.inl rfl)
  have hk : k ∈ keys (g :: q) := ptr_plug_mem hr
  have hu : ∀ z, ptr u = some z → z ∈ u.toList := fun z => mem_of_ptr
  have habove : ∀ z, above p = some z → z ∈ keys p := fun z => above_mem
  have hrelink := hpath.node_relink (by grind) (some y)
  let m₁ := m.relink (above p) (m.sideOf .left (some x)) (some y)
  have hx : m.node x = Node.build .left (above p) c (some w) (some k) := by
    rw [h.node, hl, hr]
  have hx₁ : m₁.node x = m.node x := (hrelink x).trans (if_neg (by grind))
  have hy₁ : m₁.node y = Node.build .left (some g.key) c' none (ptr u) :=
    (hrelink y).trans (if_neg (by grind)) |>.trans hy.node
  let m₂ := m₁.setParentOf (ptr u) (some g.key)
  let m₃ := m₂.setChild g.key .left (ptr u)
  let m₄ := m₃.setChild y .right (some k)
  let m₅ := m₄.rbSetParent k (some y)
  have hx₂ : m₂.node x = m.node x :=
    (Memory.node_setParentOf ..).trans (if_neg (by grind)) |>.trans hx₁
  have hx₃ : m₃.node x = m.node x :=
    (Memory.node_setChild ..).trans (if_neg (by grind)) |>.trans hx₂
  have hx₄ : m₄.node x = m.node x :=
    (Memory.node_setChild ..).trans (if_neg (by grind)) |>.trans hx₃
  have hx₅ : m₅.node x = Node.build .left (above p) c (some w) (some k) :=
    (Memory.node_rbSetParent ..).trans (if_neg (by grind)) |>.trans (hx₄.trans hx)
  obtain ⟨m', hplace, hroot, hnode⟩ := takePlace_eq (y := y) hx₅ (by grind) (by grind)
  have hroot₅ : m₅.root = m₁.root := Memory.setParentOf_root
  refine ⟨m', ?_, (hroot.trans hroot₅).trans (relink_root ..), fun q => ?_⟩
  · have hparent : (m₁.node y).parent = some g.key := by rw [hy₁, Node.build_parent]
    have hcolor : (m₁.node y).color = c' := by rw [hy₁, Node.build_color]
    have hright : (m₁.node y).right = ptr u := by rw [hy₁]; rfl
    have hright₃ : (m₃.node x).right = some k := by rw [hx₃, hx]; rfl
    have hright₄ : (m₄.node x).right = some k := by rw [hx₄, hx]; rfl
    have hne : some g.key ≠ some x := by grind
    simp only [m₅, m₄, m₃, m₂, m₁] at hparent hcolor hright hright₃ hright₄ hplace
    simp only [Memory.replaceByNext, hrun, bind, Option.bind_some, h.parent, hparent, if_neg hne,
      hcolor, hright, hright₃, hright₄, hplace, Option.map_some]
  · rw [hnode]
    have hy₅ : (m₅.node y).right = some k := by
      rw [Memory.node_rbSetParent, if_neg (by grind), Memory.node_setChild, if_pos rfl]
      rfl
    rw [hy₅]
    simp only [m₅, m₄, m₃, m₂, m₁, Memory.node_rbSetParent, Memory.node_setChild,
      Memory.node_setParentOf, hrelink]
    split_ifs <;> first | rfl | grind

/-- A node is gone from the place of a subtree: its colour is missing there, and the other nodes
are in order. -/
structure Gone (l : List P) (c : Color) (t : ColorTree P) (p : Context P) : Prop where
  fits : ∃ h₀ s y, Valid h₀ (build s c t y .leaf) ∧ Fits h₀ p
  list : (plug t p).toList = l

omit [DecidableEq P] in
theorem fits_rename {q : Context P} :
    Fits h₀ (q ++ ⟨s, c, x, b⟩ :: p) → Fits h₀ (q ++ ⟨s, c, y, b⟩ :: p) := by
  induction q generalizing h₀ with
  | nil => exact id
  | cons f q ih =>
    obtain ⟨s', c', k, sibling⟩ := f
    cases c' with
    | red =>
      rintro ⟨hs, hblack, htop, hq⟩
      refine ⟨hs, hblack, ?_, ih hq⟩
      cases q <;> exact htop
    | black => exact fun h => ⟨h.1, ih h.2⟩

omit [DecidableEq P] in
theorem before_left {q : Context P} (hq : ∀ f ∈ q, f.side = .left) : before q = [] := by
  induction q with
  | nil => rfl
  | cons f q ih =>
    rw [before, ih fun f hf => hq f (.tail _ hf), hq f (.head _)]
    rfl

omit [DecidableEq P] in
/-- The next node has the place of the old one, and its colour is missing where it was. -/
theorem gone_next {l : ColorTree P} {q : Context P} {c' : Color}
    (hb : IsBalanced (plug (build .left c l x (plug (build .left c' .leaf y u) q)) p))
    (hq : ∀ f ∈ q, f.side = .left) :
    Gone (before p ++ (l.toList ++ (plug (build .left c' .leaf y u) q).toList) ++ after p) c' u
      (q ++ ⟨.right, c, y, l⟩ :: p) := by
  have hwhole : IsBalanced (plug (build .left c' .leaf y u) (q ++ ⟨.right, c, x, l⟩ :: p)) := by
    rw [plug_append]
    exact hb
  obtain ⟨h₀, hvalid, -, hfits⟩ := balanced_plug.mp hwhole
  refine ⟨⟨h₀, .right, y, hvalid, fits_rename hfits⟩, ?_⟩
  rw [plug_append, plug_cons, toList_plug]
  simp [Frame.plug, build, toList, toList_plug, before_left hq]

/-- The memory after a node is replaced by the next one: it is as if that one were unlinked
first, and then had the place of the other. -/
theorem replaceByNext_at {rounds : Nat} {l r : ColorTree P} (h : At n m (build .left c l x r) p)
    (hb : IsBalanced (plug (build .left c l x r) p)) (hl : ptr l = some w) (hr : ptr r = some k)
    (hrounds : r.height ≤ rounds) :
    ∃ n' m' t' p' c', m.replaceByNext rounds x k = some (ptr t', above p', c', m') ∧
      At n' m' t' p' ∧ (∀ q ≠ x, n' q = n q) ∧
      Gone (before p ++ (l.toList ++ r.toList) ++ after p) c' t' p' ∧
      p'.length ≤ (plug (build .left c l x r) p).height := by
  obtain ⟨q, c', y, u, hrun, hru, hq⟩ := farthest_at .left hr (at_far.mp h) hrounds
  subst hru
  have hgone := gone_next hb hq
  have hlength : (q ++ ⟨.right, c, y, l⟩ :: p).length ≤
      (plug (build .left c l x (plug (build .left c' .leaf y u) q)) p).height := by
    have hle := length_le_height (build .left c' .leaf y u) (q ++ ⟨.right, c, x, l⟩ :: p)
    rw [plug_append] at hle
    simp only [List.length_append, List.length_cons] at hle ⊢
    exact (Nat.le_add_right ..).trans hle
  have hy := at_append.mpr (at_far.mp h)
  have hpath : HoldsContext m p (some x) := by simpa only [ptr_build] using h.path
  have hnodup : (x :: (l.toList ++ y :: (plug u q).toList ++ keys p)).Nodup :=
    (((perm_build .left c l x _).trans (.cons x ((perm_hole ..).append_left _))).append_right
      (keys p)).nodup_iff.mp h.nodup
  have hu : ∀ z, ptr u = some z → z ∈ (plug u q).toList := fun z hz =>
    mem_plug.mpr (.inl (mem_of_ptr hz))
  have hw : w ∈ l.toList := mem_of_ptr hl
  simp only [List.nodup_cons, List.nodup_append, List.mem_append, List.mem_cons, not_or] at hnodup
  obtain ⟨m₁, -, h₁, hroot₁, hnode₁⟩ := replaceByChild_at (s := .right) (t := u) hy
  have hup := at_far.mpr (at_append.mp h₁)
  have hout : y ∉ (build .left c l x (plug u q)).toList := by
    rw [mem_toList_build]
    grind
  have h₂ := rbReplaceNode_at hup hout (by grind)
  have hnode₂ := node_rbReplaceNode hup y
  have hroot₂ : (m₁.rbReplaceNode x y).root = if above p = none then some y else m.root := by
    have hQ : above (q ++ ⟨Side.left.other, c, x, l⟩ :: p) ≠ none := by cases q <;> simp [above]
    rw [root_rbReplaceNode, hup.parent, hroot₁, if_neg hQ]
  suffices hsame : ∃ m', m.replaceByNext rounds x k =
      some (ptr u, above (q ++ ⟨.right, c, y, l⟩ :: p), c', m') ∧
      m'.root = (if above p = none then some y else m.root) ∧
      ∀ z ≠ x, m'.node z = (m₁.rbReplaceNode x y).node z by
    obtain ⟨m', hrun', hroot', hnode'⟩ := hsame
    have h₃ := at_append.mpr (at_far.mp h₂)
    refine ⟨Function.update n x (m'.node x), m', u, _, c', hrun', ?_, fun z hz =>
      Function.update_of_ne hz .., hgone, hlength⟩
    refine h₃.congr (hroot'.trans hroot₂.symm) (fun z hz => hnode' z ?_) fun z hz hp => ?_
    · rw [mem_around] at hz
      grind
    · have hz' := not_or.mpr ⟨hz, hp⟩
      rw [mem_around] at hz'
      by_cases hzx : z = x
      · rw [hzx, Function.update_self]
      · rw [hnode' z hzx, h₃.others z hz hp, Function.update_of_ne hzx, Function.update_of_ne hzx,
          Function.update_of_ne fun h => hz' (.inl h)]
  cases q with
  | nil =>
    obtain rfl : y = k := by
      rw [plug_nil, ptr_build] at hr
      exact Option.some.inj hr
    obtain ⟨m', hrun', hroot', hnode'⟩ := replaceByNext_child h hl hrun
    refine ⟨m', hrun', hroot', fun z hz => ?_⟩
    rw [plug_nil] at h hu hnodup
    have hsame : ptr u = some z → (m.node z).setParent (some y) = m.node z := fun hz => by
      have hparent := (at_far.mp (at_far.mp h)).tree.parent_eq hz
      rw [above_cons] at hparent
      rw [← hparent]
      rfl
    have habove : ∀ z, above p = some z → z ∈ keys p := fun z => above_mem
    rw [hnode', hnode₂, hnode₁, hl]
    simp only [List.nil_append, above_cons, plug_nil, Option.some.injEq]
    split_ifs <;> first | rfl | grind [Node.setParent_setParent]
  | cons g q =>
    obtain ⟨m', hrun', hroot', hnode'⟩ := replaceByNext_below h hl hr hrun
    refine ⟨m', hrun', hroot', fun z hz => ?_⟩
    have hg' : g.key ∈ keys (g :: q) := mem_keys_cons.mpr (.inl rfl)
    have hg : g.key ∈ (plug u (g :: q)).toList := mem_plug.mpr (.inr hg')
    have hk : k ∈ (plug u (g :: q)).toList := mem_plug.mpr (.inr (ptr_plug_mem hr))
    have hapart : ∀ z ∈ keys (g :: q), ptr u ≠ some z := fun z hz heq =>
      (List.nodup_append.mp ((perm_plug u (g :: q)).nodup_iff.mp (by grind))).2.2 z (mem_of_ptr heq)
        z hz rfl
    have hgu := hapart _ hg'
    have hku := hapart _ (ptr_plug_mem hr)
    have habove : ∀ z, above p = some z → z ∈ keys p := fun z => above_mem
    have hside : holeSide (g :: q ++ ⟨Side.left.other, c, x, l⟩ :: p) = .left := hq g (.head _)
    rw [hnode', hnode₂, hnode₁, hside, ptr_plug u (build .left c' .leaf y u), hr, hl]
    simp only [List.cons_append, above_cons, Option.some.injEq]
    split_ifs <;> first | rfl | grind

/-! ### `rb_erase` -/

omit [DecidableEq P] in
theorem exists_path (hx : x ∈ t.toList) : ∃ c l r p, t = plug (build .left c l x r) p := by
  induction t with
  | leaf => cases hx
  | node c l k r hl hr =>
    simp only [toList, List.mem_append, List.mem_cons] at hx
    rcases hx with hx | rfl | hx
    · obtain ⟨c', l', r', p, rfl⟩ := hl hx
      exact ⟨c', l', r', p ++ [⟨.left, c, k, r⟩], by rw [plug_append]; rfl⟩
    · exact ⟨c, l, r, [], rfl⟩
    · obtain ⟨c', l', r', p, rfl⟩ := hr hx
      exact ⟨c', l', r', p ++ [⟨.right, c, k, l⟩], by rw [plug_append]; rfl⟩

omit [DecidableEq P] in
theorem lacks_of_valid (h : Valid h₀ t) : Lacks h₀ t := by
  cases h with
  | leaf => exact .inl ⟨rfl, .leaf⟩
  | red _ _ hl hr => exact .inr ⟨rfl, .black hl hr⟩
  | black hl hr => exact .inl ⟨rfl, .black hl hr⟩

/-- What is done about the colour that is missing. -/
theorem Gone.ends {rounds : Nat} {list : List P} (hg : Gone list c t p) (h : At n m t p)
    (hrounds : p.length < rounds) :
    EndsIn n (if c = .black then m.rbEraseColor rounds (ptr t) (above p) else some m) list := by
  obtain ⟨⟨h₀, s, y, hvalid, hfits⟩, rfl⟩ := hg
  cases c with
  | red =>
    obtain ⟨hblack, -, ht, -⟩ := valid_red.mp hvalid
    exact ⟨m, _, rfl, at_plug.mp h, balanced_plug.mpr ⟨h₀, ht, .inl hblack, hfits⟩, rfl⟩
  | black =>
    obtain ⟨h₁, rfl, ht, -⟩ := valid_black.mp hvalid
    exact rbEraseColor_at hrounds h (lacks_of_valid ht) hfits

omit [DecidableEq P] in
theorem gone_child (hb : IsBalanced (plug (build s c t x .leaf) p)) :
    Gone (before p ++ t.toList ++ after p) c t p := by
  obtain ⟨h₀, hvalid, -, hfits⟩ := balanced_plug.mp hb
  exact ⟨⟨h₀, s, x, hvalid, hfits⟩, toList_plug ..⟩

theorem unlink_at {rounds : Nat} {l r : ColorTree P} (h : At n m (build .left c l x r) p)
    (hb : IsBalanced (plug (build .left c l x r) p))
    (hrounds : (plug (build .left c l x r) p).height < rounds) :
    ∃ n' m' t' p' c', m.unlink rounds x = some (ptr t', above p', c', m') ∧ At n' m' t' p' ∧
      (∀ q ≠ x, n' q = n q) ∧ Gone (before p ++ (l.toList ++ r.toList) ++ after p) c' t' p' ∧
      p'.length < rounds := by
  have hlength := length_le_height (build .left c l x r) p
  have hnode := h.node
  have hleft : (m.node x).left = ptr l := by rw [hnode]; rfl
  have hright : (m.node x).right = ptr r := by rw [hnode]; rfl
  rw [Memory.unlink, hleft, hright]
  cases l with
  | leaf =>
    obtain ⟨m', hrun, h', -⟩ := replaceByChild_at (s := .right) (t := r) h
    refine ⟨_, m', r, p, c, congrArg some hrun, h', fun q hq => Function.update_of_ne hq .., ?_,
      by omega⟩
    simpa [toList] using gone_child (s := .right) (t := r) hb
  | node cl ll kl rl =>
    cases r with
    | leaf =>
      obtain ⟨m', hrun, h', -⟩ := replaceByChild_at h
      refine ⟨_, m', _, p, c, congrArg some hrun, h', fun q hq => Function.update_of_ne hq .., ?_,
        by omega⟩
      simpa [toList] using gone_child hb
    | node cr lr kr rr =>
      have hr : (node cr lr kr rr).height ≤ rounds := by
        have hstep : (node cr lr kr rr).height ≤ (build .left c (node cl ll kl rl) x
            (node cr lr kr rr)).height := by
          simp only [build, height]
          omega
        omega
      obtain ⟨n', m', t', p', c', hrun, h', hn', hg, hp'⟩ :=
        replaceByNext_at h hb (w := kl) (k := kr) rfl rfl hr
      exact ⟨n', m', t', p', c', hrun, h', hn', hg, by omega⟩

/-- A node of a balanced tree is taken out, and the tree is balanced again. Rounds for twice the
logarithm of its size are enough. -/
theorem rbErase_stores {rounds : Nat} (hm : m.Stores t) (hx : x ∈ t.toList)
    (hrounds : 2 * Nat.log 2 (t.toList.length + 1) < rounds) :
    ∃ m' t', m.rbErase rounds x = some m' ∧ m'.Stores t' ∧ t'.toList = t.toList.erase x ∧
      ∀ q ∉ t.toList, m'.node q = m.node q := by
  obtain ⟨h, hb⟩ := hm
  have hheight : t.height < rounds := lt_of_le_of_lt hb.height_le hrounds
  obtain ⟨c, l, r, p, rfl⟩ := exists_path hx
  have hnodup : (plug (build .left c l x r) p).toList.Nodup := by
    simpa [keys, before, after] using h.nodup
  have hlist : (plug (build .left c l x r) p).toList.erase x =
      before p ++ (l.toList ++ r.toList) ++ after p := by
    rw [toList_plug] at hnodup ⊢
    simp only [build, toList, List.append_assoc, List.cons_append] at hnodup ⊢
    rw [List.erase_append_right _ fun hmem => ?_, List.erase_append_right _ fun hmem => ?_,
      List.erase_cons_head]
    · grind
    · grind
  obtain ⟨n', m', t', p', c', hrun, hat', hn', hg, hp'⟩ := unlink_at (at_plug.mpr h) hb hheight
  obtain ⟨m'', t'', hrun', h'', hb'', hlist''⟩ := hg.ends hat' hp'
  refine ⟨m'', t'', ?_, h''.stores hb'', hlist''.trans hlist.symm, fun q hq => ?_⟩
  · rw [Memory.rbErase, hrun]
    exact hrun'
  · have hqx : q ≠ x := fun heq => hq (heq ▸ hx)
    have hq'' : q ∉ t''.toList := by
      rw [hlist'', ← hlist]
      exact fun hmem => hq (List.mem_of_mem_erase hmem)
    rw [h''.others q hq'' (notMem_hole q), hn' q hqx]

end GracefulMusic.Rbtree
