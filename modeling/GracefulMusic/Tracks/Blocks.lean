import GracefulMusic.Foundation.Comparison
import GracefulMusic.Tracks.Editable

/-! A list and its index tree as a sequence of blocks.

Every node of the tree heads a block: the stretch of the list from its track up to
the next track that has a node. `Represents` says that a list and a tree are made
of the same blocks and that the marks tell the heads from the rest. It is kept by
additions and removals on any tree, sorted or not; `Ordered` adds that the blocks
are the runs of equal tracks in order, and is kept as well. -/
namespace GracefulMusic.Tracks
variable {P : Type}

/-- The list the blocks make. -/
def flat (bs : List (P × List P)) : List P := bs.flatMap fun b => b.1 :: b.2

/-- The tracks that have a tree node, in order. -/
def heads (bs : List (P × List P)) : List P := bs.map Prod.fst

@[simp] theorem flat_nil : flat ([] : List (P × List P)) = [] := rfl

@[simp] theorem flat_cons (b : P × List P) (bs : List (P × List P)) :
    flat (b :: bs) = b.1 :: (b.2 ++ flat bs) := rfl

@[simp] theorem flat_append (a b : List (P × List P)) : flat (a ++ b) = flat a ++ flat b :=
  List.flatMap_append

@[simp] theorem heads_nil : heads ([] : List (P × List P)) = [] := rfl

@[simp] theorem heads_cons (b : P × List P) (bs : List (P × List P)) :
    heads (b :: bs) = b.1 :: heads bs := rfl

@[simp] theorem heads_append (a b : List (P × List P)) : heads (a ++ b) = heads a ++ heads b :=
  List.map_append

theorem heads_subset {bs : List (P × List P)} {t : P} (h : t ∈ heads bs) : t ∈ flat bs := by
  obtain ⟨b, hb, rfl⟩ := List.mem_map.mp h
  exact List.mem_flatMap.mpr ⟨b, hb, List.mem_cons_self ..⟩

theorem head?_flat (bs : List (P × List P)) : (flat bs).head? = (heads bs).head? := by
  cases bs <;> rfl

theorem flat_eq_cons {bs : List (P × List P)} {t : P} {l : List P} (h : flat bs = t :: l) :
    ∃ m back, bs = (t, m) :: back := by
  cases bs with
  | nil => cases h
  | cons b back =>
    obtain ⟨rfl, -⟩ := List.cons.inj h
    exact ⟨b.2, back, rfl⟩

theorem split_head {bs : List (P × List P)} {t : P} (h : t ∈ heads bs) :
    ∃ front m back, bs = front ++ (t, m) :: back := by
  obtain ⟨⟨t, m⟩, hb, rfl⟩ := List.mem_map.mp h
  obtain ⟨front, back, rfl⟩ := List.append_of_mem hb
  exact ⟨front, m, back, rfl⟩

/-- A track of the list heads its block or follows the head in it. -/
theorem split_flat {bs : List (P × List P)} {t : P} (h : t ∈ flat bs) :
    (∃ front m back, bs = front ++ (t, m) :: back) ∨
      ∃ front r m₁ m₂ back, bs = front ++ (r, m₁ ++ t :: m₂) :: back := by
  obtain ⟨⟨r, m⟩, hb, ht⟩ := List.mem_flatMap.mp h
  obtain ⟨front, back, rfl⟩ := List.append_of_mem hb
  rcases List.mem_cons.mp ht with rfl | ht
  · exact .inl ⟨front, m, back, rfl⟩
  · obtain ⟨m₁, m₂, rfl⟩ := List.append_of_mem ht
    exact .inr ⟨front, r, m₁, m₂, back, rfl⟩

theorem heads_split {bs : List (P × List P)} {front back : List P}
    (h : heads bs = front ++ back) :
    ∃ fs ks, bs = fs ++ ks ∧ heads fs = front ∧ heads ks = back :=
  List.map_eq_append_iff.mp h

/-- The list and the tree are made of the blocks, and a track's mark is set exactly
when it does not head one. -/
structure Represents (s : Index P) (bs : List (P × List P)) : Prop where
  head : s.head = flat bs
  tree : s.tree.toList = heads bs
  nodup : (flat bs).Nodup
  marks : ∀ t ∈ flat bs, s.clear t = true ↔ t ∉ heads bs

/-- The blocks are runs of equal tracks, in strictly ascending order. -/
structure Ordered (cmp : P → P → Int) (bs : List (P × List P)) : Prop where
  strict : (heads bs).Pairwise fun a b => cmp a b < 0
  equal : ∀ b ∈ bs, ∀ t ∈ b.2, cmp b.1 t = 0

/-- A block's head may give way to an equal track. -/
theorem Ordered.replace {cmp : P → P → Int} (hcmp : TotalPreorder cmp)
    {front back : List (P × List P)} {r r' : P} {m m' : List P}
    (h : Ordered cmp (front ++ (r, m) :: back)) (hr : cmp r r' = 0)
    (hm : ∀ t ∈ m', cmp r' t = 0) : Ordered cmp (front ++ (r', m') :: back) := by
  obtain ⟨hstrict, hequal⟩ := h
  simp only [heads_append, heads_cons, List.pairwise_append, List.pairwise_cons,
    List.mem_cons] at hstrict
  obtain ⟨hfront, ⟨hback, hbacks⟩, hcross⟩ := hstrict
  constructor
  · simp only [heads_append, heads_cons, List.pairwise_append, List.pairwise_cons, List.mem_cons]
    refine ⟨hfront, ⟨fun b hb => ?_, hbacks⟩, fun a ha b hb => ?_⟩
    · exact hcmp.lt_of_le_of_lt (Int.le_of_eq (hcmp.eq_symm hr)) (hback b hb)
    · rcases hb with rfl | hb
      · exact hcmp.lt_of_lt_of_le (hcross a ha r (.inl rfl)) (Int.le_of_eq hr)
      · exact hcross a ha b (.inr hb)
  · intro b hb
    rcases List.mem_append.mp hb with hb | hb
    · exact hequal b (List.mem_append_left _ hb)
    · rcases List.mem_cons.mp hb with rfl | hb
      · exact hm
      · exact hequal b (List.mem_append_right _ (List.mem_cons_of_mem _ hb))

/-- A block may go. -/
theorem Ordered.sublist {cmp : P → P → Int} {bs bs' : List (P × List P)} (h : Ordered cmp bs)
    (hs : bs'.Sublist bs) : Ordered cmp bs' :=
  ⟨h.strict.sublist (hs.map _), fun b hb => h.equal b (hs.subset hb)⟩

theorem Ordered.block {cmp : P → P → Int} {front back : List (P × List P)} {r : P} {m : List P}
    (h : Ordered cmp (front ++ (r, m) :: back)) : ∀ t ∈ m, cmp r t = 0 :=
  h.equal (r, m) (List.mem_append_right _ (List.mem_cons_self ..))

variable [DecidableEq P]

theorem toList_rbReplaceNode {t : OrderedTree P} {front back : List P} {victim : P} (new : P)
    (h : t.toList = front ++ victim :: back) (hf : victim ∉ front) (hb : victim ∉ back) :
    (rbReplaceNode t victim new).toList = front ++ new :: back := by
  have hkeep : ∀ l : List P, victim ∉ l →
      l.map (fun p => if p = victim then new else p) = l := by
    intro l hl
    refine (List.map_congr_left fun p hp => if_neg ?_).trans (List.map_id' l)
    intro heq
    subst heq
    exact hl hp
  rw [rbReplaceNode, OrderedTree.toList_map, h, List.map_append, List.map_cons, if_pos rfl,
    hkeep front hf, hkeep back hb]

theorem rbNext_split {t : OrderedTree P} {front back : List P} {p : P}
    (h : t.toList = front ++ p :: back) (hf : p ∉ front) : rbNext t p = back.head? := by
  rw [rbNext, h, Sequence.after_split back hf]

/-! ### Additions -/

section Add
variable {rb : OrderedTree.Balancing P} {cmp : P → P → Int} {s : Index P}
  {front back : List (P × List P)} {parent : P} {m : List P} {track : P} {tiebreak : Int}

/-- Before its equals: the track takes over the node of its block's head. -/
theorem add_before_equals (h : Represents s (front ++ (parent, m) :: back))
    (hfresh : track ∉ flat (front ++ (parent, m) :: back))
    (hl : s.tree.locate (cmp track) = some parent) (htie : tiebreak < 0) :
    Represents (sortedListAddTrack rb cmp s track tiebreak)
      (front ++ (track, parent :: m) :: back) := by
  have hperm : (flat (front ++ (track, parent :: m) :: back)).Perm
      (track :: flat (front ++ (parent, m) :: back)) := by
    simp only [flat_append, flat_cons, List.cons_append]
    exact List.perm_middle
  have hnodup := h.nodup
  have hpf : parent ∉ flat front ∧ parent ∉ flat back := by
    simp only [flat_append, flat_cons, List.nodup_middle, List.nodup_cons, List.mem_append] at hnodup
    exact ⟨fun hp => hnodup.1 (.inl hp), fun hp => hnodup.1 (.inr (.inr hp))⟩
  have hpf' : parent ∉ heads front ∧ parent ∉ heads back :=
    ⟨fun hp => hpf.1 (heads_subset hp), fun hp => hpf.2 (heads_subset hp)⟩
  simp only [sortedListAddTrack, hl, if_pos htie]
  refine ⟨?_, ?_, hperm.nodup_iff.mpr (List.nodup_cons.mpr ⟨hfresh, hnodup⟩), ?_⟩
  · have hhead : s.head = flat front ++ parent :: (m ++ flat back) := by
      rw [h.head, flat_append, flat_cons]
    have hins := Sequence.insertBefore_split track (hhead ▸ h.head ▸ hnodup)
    rw [List.head?_cons] at hins
    simp only [hhead, hins, flat_append, flat_cons, List.cons_append]
  · have htree := h.tree
    rw [heads_append, heads_cons] at htree ⊢
    exact toList_rbReplaceNode track htree hpf'.1 hpf'.2
  · intro t ht
    have hmarks := h.marks t
    have hold := List.mem_cons.mp (hperm.mem_iff.mp ht)
    have hpfresh : parent ≠ track := by
      intro heq
      subst heq
      exact hfresh (by simp)
    simp only [heads_append, heads_cons, List.mem_append, List.mem_cons, not_or] at hmarks ⊢
    simp only [Function.update_apply]
    grind

/-- Behind its equals: the track joins their block, without a node of its own. -/
theorem add_behind_equals (h : Represents s (front ++ (parent, m) :: back))
    (hfresh : track ∉ flat (front ++ (parent, m) :: back)) (hclear : s.clear track = true)
    (hl : s.tree.locate (cmp track) = some parent) (htie : ¬ tiebreak < 0) :
    Represents (sortedListAddTrack rb cmp s track tiebreak)
      (front ++ (parent, m ++ [track]) :: back) := by
  have hsplit : flat (front ++ (parent, m) :: back) = (flat front ++ parent :: m) ++ flat back := by
    simp
  have hsplit' : flat (front ++ (parent, m ++ [track]) :: back) =
      (flat front ++ parent :: m) ++ track :: flat back := by
    simp
  have hperm : (flat (front ++ (parent, m ++ [track]) :: back)).Perm
      (track :: flat (front ++ (parent, m) :: back)) := by
    rw [hsplit, hsplit']
    exact List.perm_middle
  have hnodup := h.nodup
  have hpf : parent ∉ flat front := by
    simp only [flat_append, flat_cons, List.nodup_middle, List.nodup_cons, List.mem_append] at hnodup
    exact fun hp => hnodup.1 (.inl hp)
  have hnext : rbNext s.tree parent = (flat back).head? := by
    rw [head?_flat]
    exact rbNext_split (by rw [h.tree, heads_append, heads_cons]) fun hp => hpf (heads_subset hp)
  simp only [sortedListAddTrack, hl, if_neg htie]
  refine ⟨?_, ?_, hperm.nodup_iff.mpr (List.nodup_cons.mpr ⟨hfresh, hnodup⟩), ?_⟩
  · rw [hnext, h.head, hsplit', hsplit]
    exact Sequence.insertBefore_split track (hsplit ▸ hnodup)
  · rw [h.tree]
    simp
  · intro t ht
    have hheads : heads (front ++ (parent, m ++ [track]) :: back) =
        heads (front ++ (parent, m) :: back) := by
      simp
    rw [hheads]
    rcases List.mem_cons.mp (hperm.mem_iff.mp ht) with rfl | hold
    · exact iff_of_true hclear fun ht => hfresh (heads_subset ht)
    · exact h.marks t hold

/-- Among tracks it equals none of: the track becomes a block of its own, where the
tree hangs its node. -/
theorem add_new_block {bs : List (P × List P)} (h : Represents s bs) (hfresh : track ∉ flat bs)
    (hl : s.tree.locate (cmp track) = none) :
    ∃ front back, bs = front ++ back ∧
      Represents (sortedListAddTrack rb cmp s track tiebreak) (front ++ (track, []) :: back) ∧
      (OrderedTree.Graded (cmp track) (heads bs) →
        (∀ a ∈ heads front, 0 < cmp track a) ∧ ∀ b ∈ heads back, cmp track b < 0) := by
  obtain ⟨hf, hb, hsplit, hattach, hlast, hgraded⟩ := OrderedTree.attach_split track hl
  obtain ⟨front, back, rfl, rfl, rfl⟩ := heads_split (h.tree ▸ hsplit)
  refine ⟨front, back, rfl, ?_, h.tree ▸ hgraded⟩
  have hperm : (flat (front ++ (track, []) :: back)).Perm (track :: flat (front ++ back)) := by
    simp only [flat_append, flat_cons, List.nil_append]
    exact List.perm_middle
  -- the node the track is linked in front of is the one behind it in the tree
  have hhead : (sortedListAddTrack rb cmp s track tiebreak).head =
      Sequence.insertBefore track (flat back).head? s.head := by
    rw [head?_flat]
    simp only [sortedListAddTrack, hl]
    cases hp : s.tree.lastProbed (cmp track) with
    | none =>
      rw [hp] at hlast
      simp only [hlast.2, List.head?_nil]
    | some p =>
      rw [hp] at hlast
      have hnext : rbNext (rb.rebalance (s.tree.attach (cmp track) track)) track =
          (heads back).head? := by
        refine rbNext_split (by rw [rb.toList_rebalance, hattach]) fun ht => hfresh ?_
        rw [flat_append]
        exact List.mem_append_left _ (heads_subset ht)
      rcases hlast with ⟨hneg, hback⟩ | ⟨hpos, -⟩
      · simp only [if_pos hneg, hback]
      · simp only [if_neg (show ¬ p.2 < 0 by omega), hnext]
  refine ⟨hhead.trans ?_, ?_, hperm.nodup_iff.mpr (List.nodup_cons.mpr ⟨hfresh, h.nodup⟩), ?_⟩
  · have hnodup := h.nodup
    simp only [h.head, flat_append, flat_cons, List.nil_append] at hnodup ⊢
    exact Sequence.insertBefore_split track hnodup
  · simp only [sortedListAddTrack, hl, rb.toList_rebalance, hattach, heads_append, heads_cons]
  · intro t ht
    have hmarks := h.marks t
    have hold := List.mem_cons.mp (hperm.mem_iff.mp ht)
    simp only [heads_append, heads_cons, List.mem_append, List.mem_cons, not_or] at hmarks ⊢
    simp only [sortedListAddTrack, hl, Function.update_apply]
    grind

variable (rb cmp tiebreak) in
/-- What an addition does to the blocks. A track that joins a block gets no node, and
its mark is left as it was. -/
theorem add_spec {bs : List (P × List P)} (h : Represents s bs) (hfresh : track ∉ flat bs)
    (hclear : 0 ≤ tiebreak → s.tree.locate (cmp track) ≠ none → s.clear track = true) :
    ∃ bs', Represents (sortedListAddTrack rb cmp s track tiebreak) bs' ∧
      (flat bs').Perm (track :: flat bs) ∧
      (TotalPreorder cmp → Ordered cmp bs → Ordered cmp bs') := by
  cases hl : s.tree.locate (cmp track) with
  | none =>
    obtain ⟨front, back, rfl, hrep, hgraded⟩ := add_new_block h hfresh hl
    refine ⟨_, hrep, ?_, fun hcmp hord => ⟨?_, fun b hb => ?_⟩⟩
    · simp only [flat_append, flat_cons, List.nil_append]
      exact List.perm_middle
    · obtain ⟨hbefore, hbehind⟩ := hgraded (hcmp.graded track hord.strict)
      have hstrict := hord.strict
      simp only [heads_append, heads_cons, List.pairwise_append, List.pairwise_cons,
        List.mem_cons] at hstrict ⊢
      refine ⟨hstrict.1, ⟨hbehind, hstrict.2.1⟩, fun a ha b hb => ?_⟩
      rcases hb with rfl | hb
      · exact (hcmp.swap a b).mpr (hbefore a ha)
      · exact hstrict.2.2 a ha b hb
    · simp only [List.mem_append, List.mem_cons] at hb
      rcases hb with hb | rfl | hb
      · exact hord.equal b (List.mem_append_left _ hb)
      · simp
      · exact hord.equal b (List.mem_append_right _ hb)
  | some parent =>
    obtain ⟨hmem, hequal⟩ := OrderedTree.locate_mem hl
    obtain ⟨front, m, back, rfl⟩ := split_head (h.tree ▸ hmem)
    by_cases htie : tiebreak < 0
    · refine ⟨_, add_before_equals h hfresh hl htie, ?_, fun hcmp hord => ?_⟩
      · simp only [flat_append, flat_cons, List.cons_append]
        exact List.perm_middle
      · refine hord.replace hcmp (hcmp.eq_symm hequal) fun t ht => ?_
        rcases List.mem_cons.mp ht with rfl | ht
        · exact hequal
        · exact hcmp.eq_trans hequal (hord.block t ht)
    · refine ⟨_, add_behind_equals h hfresh (hclear (by omega) (by simp [hl])) hl htie, ?_,
        fun hcmp hord => ?_⟩
      · have hsplit : flat (front ++ (parent, m ++ [track]) :: back) =
            (flat front ++ parent :: m) ++ track :: flat back := by
          simp
        rw [hsplit]
        exact List.perm_middle.trans (by simp)
      · refine hord.replace hcmp (hcmp.refl parent) fun t ht => ?_
        rcases List.mem_append.mp ht with ht | ht
        · exact hord.block t ht
        · rw [List.mem_singleton.mp ht]
          exact hcmp.eq_symm hequal

/-- An addition behind equals touches no mark but the track's own. -/
theorem add_clear {t : P} (htie : 0 ≤ tiebreak) (ht : t ≠ track) :
    (sortedListAddTrack rb cmp s track tiebreak).clear t = s.clear t := by
  simp only [sortedListAddTrack]
  split
  · rw [if_neg (by omega)]
  · exact Function.update_of_ne ht _ _

end Add

/-! ### Removals -/

section Remove
variable (rb : OrderedTree.Balancing P) {s : Index P} {front back : List (P × List P)} {t : P}

/-- The only track of its block takes its node along, and stays marked as having one. -/
theorem remove_singleton (h : Represents s (front ++ (t, []) :: back)) :
    ∃ s', sortedListRemoveTrack rb s t = some s' ∧ Represents s' (front ++ back) ∧
      s'.clear = s.clear := by
  have hhead : s.head = flat front ++ t :: flat back := by simpa using h.head
  have htree : s.tree.toList = heads front ++ t :: heads back := by simpa using h.tree
  have hnodup : (flat front ++ t :: flat back).Nodup := by simpa using h.nodup
  have htf : t ∉ flat front ++ flat back := (List.nodup_middle.mp hnodup).notMem
  have htf' : t ∉ heads front := fun ht => htf (List.mem_append_left _ (heads_subset ht))
  have hset : s.clear t = false := by
    have := h.marks t (by simp)
    simpa using this
  have hnext : Sequence.after s.head t = rbNext s.tree t := by
    rw [hhead, Sequence.after_split _ fun ht => htf (List.mem_append_left _ ht),
      rbNext_split htree htf', head?_flat]
  refine ⟨{s with head := s.head.erase t, tree := rb.remove s.tree t}, ?_, ⟨?_, ?_, ?_, ?_⟩, rfl⟩
  · simp only [sortedListRemoveTrack, hset, Bool.false_eq_true, if_false]
    rw [if_pos (by simp [htree]), ← hnext]
    cases Sequence.after s.head t <;> simp
  · rw [hhead, Sequence.erase_split _ fun ht => htf (List.mem_append_left _ ht), flat_append]
  · rw [rb.toList_remove, htree, Sequence.erase_split _ htf', heads_append]
  · rw [flat_append]
    exact (List.nodup_middle.mp hnodup).of_cons
  · intro u hu
    rw [flat_append] at hu
    have hut : u ≠ t := fun he => htf (he ▸ hu)
    simpa [hut] using h.marks u (by simpa [hut] using hu)

/-- The head of a block hands its node to the next track of the block. -/
theorem remove_head {y : P} {m : List P} (h : Represents s (front ++ (t, y :: m) :: back)) :
    ∃ s', sortedListRemoveTrack rb s t = some s' ∧ Represents s' (front ++ (y, m) :: back) ∧
      s'.clear = Function.update (Function.update s.clear y false) t true := by
  have hhead : s.head = flat front ++ t :: (y :: m ++ flat back) := by simpa using h.head
  have htree : s.tree.toList = heads front ++ t :: heads back := by simpa using h.tree
  have hnodup : (flat front ++ t :: (y :: m ++ flat back)).Nodup := by simpa using h.nodup
  have hnodup' := List.nodup_middle.mp hnodup
  have htf : t ∉ flat front ++ (y :: m ++ flat back) := hnodup'.notMem
  have htf' : t ∉ heads front := fun ht => htf (List.mem_append_left _ (heads_subset ht))
  have htb' : t ∉ heads back := fun ht =>
    htf (List.mem_append_right _ (List.mem_append_right _ (heads_subset ht)))
  have hy : y ∉ flat front ++ (m ++ flat back) := (List.nodup_middle.mp hnodup'.of_cons).notMem
  have hset : s.clear t = false := by
    have := h.marks t (by simp)
    simpa using this
  have hnext : Sequence.after s.head t = some y := by
    rw [hhead, Sequence.after_split _ fun ht => htf (List.mem_append_left _ ht)]
    rfl
  have htreeNext : rbNext s.tree t ≠ some y := by
    rw [rbNext_split htree htf']
    intro he
    exact hy (List.mem_append_right _ (List.mem_append_right _
      (heads_subset (List.mem_of_mem_head? he))))
  refine ⟨⟨s.head.erase t, rbReplaceNode s.tree t y,
    Function.update (Function.update s.clear y false) t true⟩, ?_, ⟨?_, ?_, ?_, ?_⟩, rfl⟩
  · simp only [sortedListRemoveTrack, hset, Bool.false_eq_true, if_false, hnext]
    rw [if_pos (by simp [htree]), if_pos htreeNext]
  · rw [hhead, Sequence.erase_split _ fun ht => htf (List.mem_append_left _ ht)]
    simp
  · rw [heads_append, heads_cons]
    exact toList_rbReplaceNode y htree htf' htb'
  · simpa using hnodup'.of_cons
  · intro u hu
    have hu' : u ∈ flat front ++ (y :: m ++ flat back) := by simpa using hu
    have hut : u ≠ t := fun he => htf (he ▸ hu')
    have hyt : y ≠ t := fun he => htf (he ▸ by simp)
    have hmarks := h.marks u
    have huold : u ∈ flat (front ++ (t, y :: m) :: back) := by
      simpa [hut] using hu'
    simp only [heads_append, heads_cons, List.mem_append, List.mem_cons, not_or] at hmarks ⊢
    simp only [Function.update_apply]
    have hyh : y ∉ heads front ∧ y ∉ heads back :=
      ⟨fun hm => hy (List.mem_append_left _ (heads_subset hm)), fun hm =>
        hy (List.mem_append_right _ (List.mem_append_right _ (heads_subset hm)))⟩
    grind

/-- A track behind the head just goes. -/
theorem remove_tail {r : P} {m₁ m₂ : List P}
    (h : Represents s (front ++ (r, m₁ ++ t :: m₂) :: back)) :
    ∃ s', sortedListRemoveTrack rb s t = some s' ∧
      Represents s' (front ++ (r, m₁ ++ m₂) :: back) ∧ s'.clear = s.clear := by
  have hsplit : flat (front ++ (r, m₁ ++ t :: m₂) :: back) =
      (flat front ++ r :: m₁) ++ t :: (m₂ ++ flat back) := by
    simp
  have hsplit' : flat (front ++ (r, m₁ ++ m₂) :: back) =
      (flat front ++ r :: m₁) ++ (m₂ ++ flat back) := by
    simp
  have hheads : heads (front ++ (r, m₁ ++ m₂) :: back) =
      heads (front ++ (r, m₁ ++ t :: m₂) :: back) := by
    simp
  have hnodup := List.nodup_middle.mp (hsplit ▸ h.nodup)
  have htf : t ∉ flat (front ++ (r, m₁ ++ m₂) :: back) := hsplit' ▸ hnodup.notMem
  have hset : s.clear t = true := by
    refine (h.marks t (by simp [hsplit])).mpr fun ht => htf (heads_subset ?_)
    rwa [hheads]
  refine ⟨{s with head := s.head.erase t}, ?_, ⟨?_, ?_, ?_, ?_⟩, rfl⟩
  · rw [sortedListRemoveTrack, if_pos hset]
  · rw [h.head, hsplit, hsplit']
    exact Sequence.erase_split _ fun ht => htf (hsplit' ▸ List.mem_append_left _ ht)
  · rw [h.tree, hheads]
  · rw [hsplit']
    exact hnodup.of_cons
  · intro u hu
    rw [hheads]
    refine h.marks u ?_
    rw [hsplit] at *
    rw [hsplit'] at hu
    exact (List.perm_middle.mem_iff).mpr (List.mem_cons_of_mem _ hu)

/-- A removal is always within the contract of the tree, and takes one track out of
the blocks. -/
theorem remove_spec (cmp : P → P → Int) {bs : List (P × List P)} (h : Represents s bs)
    (ht : t ∈ flat bs) :
    ∃ s' bs', sortedListRemoveTrack rb s t = some s' ∧ Represents s' bs' ∧
      flat bs' = (flat bs).erase t ∧ (TotalPreorder cmp → Ordered cmp bs → Ordered cmp bs') := by
  have hkept : ∀ s' bs', sortedListRemoveTrack rb s t = some s' → Represents s' bs' →
      flat bs' = (flat bs).erase t := by
    intro s' bs' hs' hrep
    rw [← hrep.head, ← h.head]
    simp only [sortedListRemoveTrack] at hs'
    grind
  rcases split_flat ht with ⟨front, m, back, rfl⟩ | ⟨front, r, m₁, m₂, back, rfl⟩
  · cases m with
    | nil =>
      obtain ⟨s', hs', hrep, -⟩ := remove_singleton rb h
      exact ⟨s', _, hs', hrep, hkept s' _ hs' hrep, fun _ hord => hord.sublist (by simp)⟩
    | cons y m =>
      obtain ⟨s', hs', hrep, -⟩ := remove_head rb h
      refine ⟨s', _, hs', hrep, hkept s' _ hs' hrep, fun hcmp hord => ?_⟩
      have hty := hord.block y (by simp)
      refine hord.replace hcmp hty fun u hu => ?_
      exact hcmp.eq_trans (hcmp.eq_symm hty) (hord.block u (List.mem_cons_of_mem _ hu))
  · obtain ⟨s', hs', hrep, -⟩ := remove_tail rb h
    refine ⟨s', _, hs', hrep, hkept s' _ hs' hrep, fun hcmp hord => ?_⟩
    refine hord.replace hcmp (hcmp.refl r) fun u hu => hord.block u ?_
    grind

end Remove

end GracefulMusic.Tracks
