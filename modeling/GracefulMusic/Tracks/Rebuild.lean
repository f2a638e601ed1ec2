import GracefulMusic.Tracks.Blocks

/-! Rebuilding a sorted track list.

A rebuild takes the tracks off the front of the list one by one. The last track of
a block is then alone in its block, so `rb_erase` takes its node out and leaves it
marked as having one. Where such a track is linked behind an equal one it gets no
node again, and the mark is stale. `NoStale` is the condition on the tracks and the
order they come back in that this does not happen. -/
namespace GracefulMusic.Tracks
variable {P : Type} [DecidableEq P]

/-- The next track, if there is one, has a node. -/
def Index.ClosesBlock (s : Index P) (t : P) : Prop :=
  ∀ n ∈ Sequence.after s.head t, n ∈ s.tree.toList

/-- No track that closes its block comes back behind an equal one. -/
def Index.NoStale (s : Index P) (cmp : P → P → Int) (order : List P) : Prop :=
  ∀ t ∈ s.head, s.ClosesBlock t → ∀ u ∈ Sequence.before order t, cmp t u ≠ 0

instance (s : Index P) (t : P) : Decidable (s.ClosesBlock t) := by
  unfold Index.ClosesBlock
  infer_instance

instance (s : Index P) (cmp : P → P → Int) (order : List P) : Decidable (s.NoStale cmp order) := by
  unfold Index.NoStale
  infer_instance

/-- The last track of each block. -/
def closers (bs : List (P × List P)) : List P := bs.map fun b => b.2.getLastD b.1

omit [DecidableEq P] in
theorem closers_split {bs : List (P × List P)} {t : P} (h : t ∈ closers bs) :
    ∃ front hs back, flat bs = front ++ t :: flat back ∧ heads bs = hs ++ heads back := by
  obtain ⟨⟨r, m⟩, hb, rfl⟩ := List.mem_map.mp h
  obtain ⟨fs, back, rfl⟩ := List.append_of_mem hb
  obtain ⟨m', hm'⟩ : ∃ m', r :: m = m' ++ [m.getLastD r] := by
    refine ⟨(r :: m).dropLast, ?_⟩
    rw [← List.getLast_eq_getLastD (List.cons_ne_nil r m), List.dropLast_append_getLast]
  refine ⟨flat fs ++ m', heads fs ++ [r], back, ?_, by simp⟩
  rw [flat_append, flat_cons, ← List.cons_append, hm']
  simp

theorem closesBlock_of_mem_closers {s : Index P} {bs : List (P × List P)} {t : P}
    (h : Represents s bs) (ht : t ∈ closers bs) : s.ClosesBlock t := by
  obtain ⟨front, hs, back, hflat, hheads⟩ := closers_split ht
  intro n hn
  have hnodup := h.nodup
  rw [hflat] at hnodup
  rw [h.head, hflat, Sequence.after_split _ fun hf =>
    (List.nodup_middle.mp hnodup).notMem (List.mem_append_left _ hf), head?_flat] at hn
  rw [h.tree, hheads]
  exact List.mem_append_right _ (List.mem_of_mem_head? hn)

omit [DecidableEq P] in
/-- The marks of other tracks do not matter. -/
theorem Represents.withClear {s : Index P} {bs : List (P × List P)} (h : Represents s bs)
    {clear : P → Bool} (hc : ∀ t ∈ flat bs, clear t = s.clear t) :
    Represents {s with clear} bs :=
  ⟨h.head, h.tree, h.nodup, fun t ht => by
    show clear t = true ↔ _
    rw [hc t ht, h.marks t ht]⟩

section
variable (rb : OrderedTree.Balancing P) {cmp : P → P → Int}

/-- The first track goes; unless it closed its block it is marked as having no node. -/
theorem remove_first {s : Index P} {t : P} {m : List P} {back : List (P × List P)}
    (h : Represents s ((t, m) :: back)) :
    ∃ s' bs', sortedListRemoveTrack rb s t = some s' ∧ Represents s' bs' ∧
      flat bs' = m ++ flat back ∧ closers bs' ⊆ closers ((t, m) :: back) ∧
      (∀ u, u ∉ flat ((t, m) :: back) → s'.clear u = s.clear u) ∧
      (t ∉ closers ((t, m) :: back) → s'.clear t = true) := by
  cases m with
  | nil =>
    obtain ⟨s', hs', hrep, hclear⟩ := remove_singleton rb (show Represents s ([] ++ (t, []) :: back) from h)
    refine ⟨s', back, hs', hrep, rfl, List.subset_cons_self .., fun u _ => by rw [hclear], ?_⟩
    intro ht
    simp [closers] at ht
  | cons y m =>
    obtain ⟨s', hs', hrep, hclear⟩ := 
      remove_head rb (show Represents s ([] ++ (t, y :: m) :: back) from h)
    refine ⟨s', (y, m) :: back, hs', hrep, rfl, ?_, fun u hu => ?_, fun _ => ?_⟩
    · simp [closers, List.getLast?_cons]
    · simp only [flat_cons, List.mem_cons, List.cons_append, not_or] at hu
      rw [hclear, Function.update_of_ne hu.1, Function.update_of_ne hu.2.1]
    · rw [hclear, Function.update_self]

/-- The tracks of a list are added one after the other, each with its mark cleared or
with no equal track before it. -/
theorem addAll_spec (hcmp : TotalPreorder cmp) (l : List P) {s : Index P} {bs : List (P × List P)}
    (h : Represents s bs) (hord : Ordered cmp bs) (hl : (flat bs ++ l).Nodup)
    (hclear : ∀ t ∈ l, s.clear t = true ∨ ∀ u ∈ flat bs ++ Sequence.before l t, cmp t u ≠ 0) :
    ∃ bs', Represents (l.foldl (fun s t => sortedListAddTrack rb cmp s t 0) s) bs' ∧
      (flat bs').Perm (flat bs ++ l) ∧ Ordered cmp bs' := by
  induction l generalizing s bs with
  | nil => exact ⟨bs, h, by simp, hord⟩
  | cons t l ih =>
    have htl := (List.nodup_middle.mp hl).notMem
    have hfresh : t ∉ flat bs := fun ht => htl (List.mem_append_left _ ht)
    obtain ⟨bs₁, h₁, hperm₁, hord₁⟩ := add_spec rb cmp 0 h hfresh
      fun _ hne => by
        obtain ⟨u, hu⟩ := Option.ne_none_iff_exists'.mp hne
        obtain ⟨hmem, hequal⟩ := OrderedTree.locate_mem hu
        refine (hclear t (List.mem_cons_self ..)).resolve_right fun hno => ?_
        exact hno u (List.mem_append_left _ (heads_subset (h.tree ▸ hmem))) hequal
    have hperm : (flat bs₁ ++ l).Perm (flat bs ++ t :: l) :=
      (hperm₁.append_right l).trans List.perm_middle.symm
    have hrest : ∀ v ∈ l, (sortedListAddTrack rb cmp s t 0).clear v = true ∨
        ∀ u ∈ flat bs₁ ++ Sequence.before l v, cmp v u ≠ 0 := by
      intro v hv
      have hvt : v ≠ t := fun he => htl (List.mem_append_right _ (he ▸ hv))
      have hbefore : Sequence.before (t :: l) v = t :: Sequence.before l v := by
        simp [Sequence.before, Ne.symm hvt]
      rw [add_clear (Int.le_refl 0) hvt]
      refine (hclear v (List.mem_cons_of_mem _ hv)).imp_right fun hno u hu => hno u ?_
      rw [hbefore]
      simp only [List.mem_append, List.mem_cons, hperm₁.mem_iff] at hu ⊢
      tauto
    obtain ⟨bs', h', hperm', hord'⟩ := ih h₁ (hord₁ hcmp hord) (hperm.nodup_iff.mpr hl) hrest
    exact ⟨bs', h', hperm'.trans hperm, hord'⟩

/-! ### Sorting -/

/-- One round of the rebuild keeps both lists, and the order of the new one. -/
theorem rebuildStep_spec (hcmp : TotalPreorder cmp) {old tmp : Index P} {t : P} {m : List P}
    {back bs : List (P × List P)} (hold : Represents old ((t, m) :: back))
    (htmp : Represents tmp bs) (hclear : old.clear = tmp.clear) (hord : Ordered cmp bs)
    (hdisjoint : (flat bs ++ flat ((t, m) :: back)).Nodup)
    (hstale : t ∈ closers ((t, m) :: back) → ∀ u ∈ flat bs, cmp t u ≠ 0) :
    ∃ old' tmp' back' bs', rebuildStep rb cmp (old, tmp) t = some (old', tmp') ∧
      Represents old' back' ∧ Represents tmp' bs' ∧ old'.clear = tmp'.clear ∧ Ordered cmp bs' ∧
      flat back' = m ++ flat back ∧ closers back' ⊆ closers ((t, m) :: back) ∧
      (flat bs').Perm (t :: flat bs) := by
  have hdisjoint' : ∀ u ∈ flat bs, u ∉ flat ((t, m) :: back) := fun u hu hu' =>
    (List.disjoint_of_nodup_append hdisjoint) hu hu'
  obtain ⟨old₁, back', hremove, hold₁, hflat, hclosers, hkeep, hmark⟩ :=
    remove_first rb hold
  have htmp₁ : Represents {tmp with clear := old₁.clear} bs :=
    htmp.withClear fun u hu => by rw [hkeep u (hdisjoint' u hu), hclear]
  have hfresh : t ∉ flat bs := fun ht => hdisjoint' t ht (List.mem_cons_self ..)
  obtain ⟨bs', htmp', hperm, hord'⟩ := add_spec rb cmp 0 htmp₁ hfresh fun _ hne => by
      obtain ⟨u, hu⟩ := Option.ne_none_iff_exists'.mp hne
      obtain ⟨hmem, hequal⟩ := OrderedTree.locate_mem hu
      refine hmark fun ht => hstale ht u (heads_subset ?_) hequal
      exact htmp.tree ▸ hmem
  let new := sortedListAddTrack rb cmp {tmp with clear := old₁.clear} t 0
  have hstep : rebuildStep rb cmp (old, tmp) t = some ({old₁ with clear := new.clear}, new) := by
    simp only [rebuildStep, hremove]
    rfl
  refine ⟨_, _, back', bs', hstep, hold₁.withClear fun u hu => ?_, htmp', rfl, hord' hcmp hord,
    hflat, hclosers, hperm⟩
  refine add_clear (s := {tmp with clear := old₁.clear}) (Int.le_refl 0) ?_
  intro heq
  subst heq
  have hnodup := hold.nodup
  rw [hflat] at hu
  rw [flat_cons, List.nodup_cons] at hnodup
  exact hnodup.1 hu

theorem rebuild_run (hcmp : TotalPreorder cmp) (l : List P) {old tmp : Index P}
    {back bs : List (P × List P)} (hl : flat back = l) (hold : Represents old back)
    (htmp : Represents tmp bs) (hclear : old.clear = tmp.clear) (hord : Ordered cmp bs)
    (hdisjoint : (flat bs ++ flat back).Nodup)
    (hstale : ∀ t ∈ closers back, ∀ u ∈ flat bs ++ Sequence.before l t, cmp t u ≠ 0) :
    ∃ old' tmp' bs', l.foldlM (rebuildStep rb cmp) (old, tmp) = some (old', tmp') ∧
      Represents tmp' bs' ∧ (flat bs').Perm (flat bs ++ l) ∧ Ordered cmp bs' := by
  induction l generalizing old tmp back bs with
  | nil => exact ⟨old, tmp, bs, rfl, htmp, by simp, hord⟩
  | cons t l ih =>
    obtain ⟨m, back, rfl⟩ := flat_eq_cons hl
    have hl' : m ++ flat back = l := (List.cons.inj hl).2
    obtain ⟨old₁, tmp₁, back₁, bs₁, hstep, hold₁, htmp₁, hclear₁, hord₁, hflat₁, hclosers₁,
      hperm₁⟩ := rebuildStep_spec rb hcmp hold htmp hclear hord hdisjoint
        fun ht u hu => hstale t ht u (List.mem_append_left _ hu)
    have hperm : (flat bs₁ ++ l).Perm (flat bs ++ t :: l) :=
      (hperm₁.append_right l).trans List.perm_middle.symm
    have hdisjoint₁ : (flat bs₁ ++ flat back₁).Nodup := by
      rw [hflat₁, hl']
      rw [hl] at hdisjoint
      exact hperm.nodup_iff.mpr hdisjoint
    have hstale₁ : ∀ v ∈ closers back₁, ∀ u ∈ flat bs₁ ++ Sequence.before l v, cmp v u ≠ 0 := by
      intro v hv u hu
      have hvl : v ∈ l := by
        obtain ⟨front, hs, rest, hsplit, -⟩ := closers_split hv
        rw [← hl', ← hflat₁, hsplit]
        simp
      have hvt : t ≠ v := by
        intro heq
        subst heq
        rw [hl] at hdisjoint
        exact (List.nodup_middle.mp hdisjoint).notMem (List.mem_append_right _ hvl)
      have hbefore : Sequence.before (t :: l) v = t :: Sequence.before l v := by
        simp [Sequence.before, hvt]
      refine hstale v (hclosers₁ hv) u ?_
      rw [hbefore]
      simp only [List.mem_append, List.mem_cons, hperm₁.mem_iff] at hu ⊢
      tauto
    obtain ⟨old', tmp', bs', hrun, htmp', hperm', hord'⟩ := ih (hflat₁.trans hl') hold₁ htmp₁
      hclear₁ hord₁ hdisjoint₁ hstale₁
    refine ⟨old', tmp', bs', ?_, htmp', hperm'.trans hperm, hord'⟩
    rw [List.foldlM_cons, hstep]
    exact hrun

theorem sortedListRebuild_spec (hcmp : TotalPreorder cmp) {s : Index P} {bs : List (P × List P)}
    (h : Represents s bs) (hstale : s.NoStale cmp s.head) :
    ∃ s' bs', sortedListRebuild rb cmp s = some s' ∧ Represents s' bs' ∧
      (flat bs').Perm (flat bs) ∧ Ordered cmp bs' := by
  have hempty : Represents (Index.empty s.clear) [] := ⟨rfl, rfl, List.nodup_nil, nofun⟩
  have hstale' : ∀ t ∈ closers bs, ∀ u ∈ flat [] ++ Sequence.before s.head t, cmp t u ≠ 0 := by
    intro t ht u hu
    obtain ⟨front, hs, back, hsplit, -⟩ := closers_split ht
    exact hstale t (by rw [h.head, hsplit]; simp) (closesBlock_of_mem_closers h ht) u hu
  obtain ⟨old', tmp', bs', hrun, htmp', hperm, hord⟩ := rebuild_run rb hcmp s.head
    h.head.symm h hempty rfl ⟨List.Pairwise.nil, nofun⟩ h.nodup hstale'
  refine ⟨tmp', bs', ?_, htmp', hperm.trans (by rw [h.head]; simp), hord⟩
  rw [sortedListRebuild, hrun]
  rfl

/-! ### Shuffling -/

theorem removeAll_spec (l : List P) {s : Index P} {bs : List (P × List P)} (hl : flat bs = l)
    (h : Represents s bs) :
    ∃ s', l.foldlM (sortedListRemoveTrack rb) s = some s' ∧
      (∀ u, u ∉ l → s'.clear u = s.clear u) ∧
      ∀ t ∈ l, t ∉ closers bs → s'.clear t = true := by
  induction l generalizing s bs with
  | nil => exact ⟨s, rfl, fun _ _ => rfl, nofun⟩
  | cons t l ih =>
    obtain ⟨m, back, rfl⟩ := flat_eq_cons hl
    have hnodup := h.nodup
    rw [hl, List.nodup_cons] at hnodup
    obtain ⟨s₁, bs₁, hremove, h₁, hflat, hclosers, hkeep, hmark⟩ := remove_first rb h
    obtain ⟨s', hrun, hkeep', hmark'⟩ := ih (hflat.trans (List.cons.inj hl).2) h₁
    refine ⟨s', ?_, fun u hu => ?_, fun u hu hclose => ?_⟩
    · rw [List.foldlM_cons, hremove]
      exact hrun
    · rw [hkeep' u fun hm => hu (List.mem_cons_of_mem _ hm), hkeep u (hl ▸ hu)]
    · rcases List.mem_cons.mp hu with rfl | hu
      · rw [hkeep' u hnodup.1]
        exact hmark hclose
      · exact hmark' u hu fun hc => hclose (hclosers hc)

/-- Comparing by no key. -/
theorem totalPreorder_zero {α : Type*} : TotalPreorder fun _ _ : α => 0 :=
  ⟨fun _ _ => Iff.rfl, fun _ _ _ _ h => h⟩

theorem randListRebuild_spec {s : Index P} {bs : List (P × List P)} {shuffled : List P}
    (h : Represents s bs) (hperm : shuffled.Perm s.head)
    (hstale : s.NoStale (fun _ _ => 0) shuffled) :
    ∃ s' bs', randListRebuild rb s shuffled = some s' ∧ Represents s' bs' ∧
      (flat bs').Perm (flat bs) ∧ Ordered (fun _ _ => 0) bs' := by
  obtain ⟨removed, hrun, -, hmark⟩ := removeAll_spec rb s.head h.head.symm h
  have hempty : Represents (Index.empty removed.clear) [] := ⟨rfl, rfl, List.nodup_nil, nofun⟩
  have hnodup : (flat [] ++ shuffled).Nodup := hperm.nodup_iff.mpr (h.head ▸ h.nodup)
  obtain ⟨bs', hrep, hperm', hord⟩ := addAll_spec rb totalPreorder_zero shuffled hempty
    ⟨List.Pairwise.nil, nofun⟩ hnodup fun t ht => by
      by_cases hclose : t ∈ closers bs
      · exact .inr (hstale t (hperm.mem_iff.mp ht) (closesBlock_of_mem_closers h hclose))
      · exact .inl (hmark t (hperm.mem_iff.mp ht) hclose)
  refine ⟨_, bs', ?_, hrep, hperm'.trans (h.head ▸ hperm), hord⟩
  rw [randListRebuild, hrun]
  rfl

end

end GracefulMusic.Tracks
