import Mathlib.Data.List.SplitBy
import GracefulMusic.Foundation.Runs
import GracefulMusic.Tracks.Editable
import GracefulMusic.Tracks.Rebuild

/-! The list and the index of an editable, over every run.

`Coherent` is what the list and the index promise each other. It is read off the
blocks (`Invariant`), which every operation keeps; the one way to lose it is a
rebuild that is not `NoStale`. -/
namespace GracefulMusic.Tracks
variable {P : Type}

/-- The first track of every maximal run of equal tracks. -/
def runHeads (cmp : P → P → Int) (l : List P) : List P :=
  (l.splitBy fun a b => cmp a b = 0).filterMap List.head?

namespace Ordered
variable {cmp : P → P → Int} {bs : List (P × List P)}

/-- The tracks of a block are equal. -/
theorem equal_head (hcmp : TotalPreorder cmp) (h : Ordered cmp bs) {b : P × List P} (hb : b ∈ bs)
    {t : P} (ht : t ∈ b.1 :: b.2) : cmp b.1 t = 0 := by
  rcases List.mem_cons.mp ht with rfl | ht
  · exact hcmp.refl _
  · exact h.equal b hb t ht

theorem equal_block (hcmp : TotalPreorder cmp) (h : Ordered cmp bs) {b : P × List P} (hb : b ∈ bs) :
    (b.1 :: b.2).Pairwise fun t u => cmp t u = 0 := by
  refine List.Pairwise.imp_of_mem ?_ (List.pairwise_of_forall fun _ _ => trivial)
  intro t u ht hu _
  exact hcmp.eq_trans (hcmp.eq_symm (h.equal_head hcmp hb ht)) (h.equal_head hcmp hb hu)

theorem lt_blocks (hcmp : TotalPreorder cmp) (h : Ordered cmp bs) :
    bs.Pairwise fun a b => ∀ t ∈ a.1 :: a.2, ∀ u ∈ b.1 :: b.2, cmp t u < 0 := by
  refine List.Pairwise.imp_of_mem ?_ (List.pairwise_map.mp h.strict)
  intro a b ha hb hlt t ht u hu
  have hta := Int.le_of_eq (hcmp.eq_symm (h.equal_head hcmp ha ht))
  have hbu := Int.le_of_eq (h.equal_head hcmp hb hu)
  exact hcmp.lt_of_lt_of_le (hcmp.lt_of_le_of_lt hta hlt) hbu

theorem runHeads (hcmp : TotalPreorder cmp) (h : Ordered cmp bs) :
    runHeads cmp (flat bs) = heads bs := by
  have hsplit : (flat bs).splitBy (fun a b => cmp a b = 0) = bs.map fun b => b.1 :: b.2 := by
    rw [List.splitBy_eq_iff]
    refine ⟨List.flatMap_def, by simp, fun l hl => ?_, ?_⟩
    · obtain ⟨b, hb, rfl⟩ := List.mem_map.mp hl
      exact ((h.equal_block hcmp hb).imp decide_eq_true).isChain
    · rw [List.isChain_map]
      refine ((h.lt_blocks hcmp).imp fun {a b} hlt => ?_).isChain
      have hne : a.1 :: a.2 ≠ [] := List.cons_ne_nil _ _
      refine ⟨hne, List.cons_ne_nil _ _, decide_eq_false (Int.ne_of_lt ?_)⟩
      exact hlt _ (List.getLast_mem hne) _ (List.mem_cons_self ..)
  rw [Tracks.runHeads, hsplit, List.filterMap_map]
  show bs.filterMap (some ∘ Prod.fst) = _
  rw [List.filterMap_eq_map]
  rfl

theorem sorted (hcmp : TotalPreorder cmp) (h : Ordered cmp bs) :
    (flat bs).Pairwise fun a b => cmp a b ≤ 0 := by
  rw [flat, List.pairwise_flatMap]
  refine ⟨fun b hb => (h.equal_block hcmp hb).imp Int.le_of_eq, (h.lt_blocks hcmp).imp ?_⟩
  intro a b hlt t ht u hu
  exact Int.le_of_lt (hlt t ht u hu)

/-- The comparison may change outside the list. -/
theorem congr {cmp' : P → P → Int} (h : Ordered cmp bs)
    (hsame : ∀ a ∈ flat bs, ∀ b ∈ flat bs, cmp' a b = cmp a b) : Ordered cmp' bs := by
  constructor
  · refine h.strict.imp_of_mem ?_
    intro a b ha hb hlt
    rwa [hsame a (heads_subset ha) b (heads_subset hb)]
  · intro b hb t ht
    have hmem : ∀ u ∈ b.1 :: b.2, u ∈ flat bs := fun u hu => List.mem_flatMap.mpr ⟨b, hb, hu⟩
    rw [hsame b.1 (hmem _ (List.mem_cons_self ..)) t (hmem _ (List.mem_cons_of_mem _ ht))]
    exact h.equal b hb t ht

/-- At most one track is in order under every comparison. -/
theorem of_length_le_one (h : (flat bs).length ≤ 1) : Ordered cmp bs := by
  rcases bs with _ | ⟨⟨r, m⟩, _ | ⟨b, back⟩⟩
  · exact ⟨List.Pairwise.nil, nofun⟩
  · cases m with
    | nil => exact ⟨List.pairwise_singleton .., by simp⟩
    | cons y m => simp at h
  · simp at h

end Ordered

/-- What list and index promise each other; `sorted` says that the tracks were not
shuffled since they were last sorted. -/
structure Coherent (fieldCmp : SortField → TrackInfo → TrackInfo → Int) (e : Editable P)
    (sorted : Bool) : Prop where
  tree_subset : ∀ t ∈ e.tree, t ∈ e.head
  marks : ∀ t ∈ e.head, e.index.clear t = true ↔ t ∉ e.tree
  ordered : sorted = true → e.head.Pairwise fun a b => e.trackCmp fieldCmp a b ≤ 0
  representatives : sorted = true → e.tree = runHeads (e.trackCmp fieldCmp) e.head

/-- The keys in force compare as a total preorder. -/
abbrev Comparable (fieldCmp : SortField → TrackInfo → TrackInfo → Int) (keys : List SortKey) :
    Prop :=
  TotalPreorder fun a b => trackInfoCmp fieldCmp a b keys

structure Invariant (fieldCmp : SortField → TrackInfo → TrackInfo → Int) (e : Editable P)
    (sorted : Bool) : Prop where
  comparable : Comparable fieldCmp e.sortKeys
  blocks : ∃ bs, Represents e.index bs ∧
    (sorted = true ∨ e.sortKeys = [] → Ordered (e.trackCmp fieldCmp) bs)
  count : e.nrTracks = e.head.length

namespace Invariant
variable {fieldCmp : SortField → TrackInfo → TrackInfo → Int} {e : Editable P} {sorted : Bool}

theorem trackCmp (h : Invariant fieldCmp e sorted) : TotalPreorder (e.trackCmp fieldCmp) :=
  ⟨fun _ _ => h.comparable.swap _ _, fun _ _ _ => h.comparable.trans _ _ _⟩

theorem coherent (h : Invariant fieldCmp e sorted) : Coherent fieldCmp e sorted := by
  obtain ⟨bs, hrep, hord⟩ := h.blocks
  constructor
  · intro t ht
    rw [Editable.head, hrep.head]
    exact heads_subset (hrep.tree ▸ ht)
  · intro t ht
    rw [Editable.tree, hrep.tree]
    exact hrep.marks t (hrep.head ▸ ht)
  · intro hs
    rw [Editable.head, hrep.head]
    exact (hord (.inl hs)).sorted h.trackCmp
  · intro hs
    rw [Editable.head, Editable.tree, hrep.head, hrep.tree]
    exact ((hord (.inl hs)).runHeads h.trackCmp).symm

theorem nodup (h : Invariant fieldCmp e sorted) : e.head.Nodup := by
  obtain ⟨bs, hrep, -⟩ := h.blocks
  rw [Editable.head, hrep.head]
  exact hrep.nodup

end Invariant

/-! ### Operations -/

section
variable [DecidableEq P] (rb : OrderedTree.Balancing P)
  {fieldCmp : SortField → TrackInfo → TrackInfo → Int} {e : Editable P} {sorted : Bool}

theorem initTrack_invariant (h : Invariant fieldCmp e sorted) {track : P} (ti : TrackInfo)
    (hfresh : track ∉ e.head) : Invariant fieldCmp (e.initTrack track ti) sorted := by
  obtain ⟨bs, hrep, hord⟩ := h.blocks
  have hhead : e.head = flat bs := hrep.head
  have hne : ∀ t ∈ flat bs, t ≠ track := by
    intro t ht heq
    subst heq
    exact hfresh (hhead ▸ ht)
  refine ⟨h.comparable, ⟨bs, ?_, fun hs => (hord hs).congr fun a ha b hb => ?_⟩, h.count⟩
  · exact hrep.withClear fun t ht => Function.update_of_ne (hne t ht) _ _
  · show trackInfoCmp fieldCmp (Function.update e.info track ti a)
      (Function.update e.info track ti b) e.sortKeys = _
    rw [Function.update_of_ne (hne a ha), Function.update_of_ne (hne b hb)]
    rfl

theorem doEditableAdd_invariant (h : Invariant fieldCmp e sorted) {track : P} {tiebreak : Int}
    (hfresh : track ∉ e.head) (hclear : e.index.clear track = true) :
    Invariant fieldCmp (e.doEditableAdd rb fieldCmp track tiebreak) sorted := by
  obtain ⟨bs, hrep, hord⟩ := h.blocks
  have hhead : e.head = flat bs := hrep.head
  obtain ⟨bs', hrep', hperm, hord'⟩ := add_spec rb (e.trackCmp fieldCmp) tiebreak hrep
    (hhead ▸ hfresh) fun _ _ => hclear
  refine ⟨h.comparable, ⟨bs', hrep', fun hs => hord' h.trackCmp (hord hs)⟩, ?_⟩
  show e.nrTracks + 1 =
    (sortedListAddTrack rb (e.trackCmp fieldCmp) e.index track tiebreak).head.length
  rw [hrep'.head, hperm.length_eq, List.length_cons, ← hhead, h.count]

theorem removeTrack_invariant (h : Invariant fieldCmp e sorted) {t : P} (ht : t ∈ e.head) :
    ∃ e', e.removeTrack rb t = some e' ∧ Invariant fieldCmp e' sorted ∧
      e'.head = e.head.erase t := by
  obtain ⟨bs, hrep, hord⟩ := h.blocks
  have hold : e.head = flat bs := hrep.head
  obtain ⟨s', bs', hs', hrep', hflat, hord'⟩ := remove_spec rb (e.trackCmp fieldCmp) hrep
    (hold ▸ ht)
  have hhead : s'.head = e.head.erase t := by rw [hrep'.head, hflat, hold]
  refine ⟨{e with
      index := s'
      nrTracks := e.nrTracks - 1
      nrMarked := e.nrMarked - (e.marked t).toNat
      totalTime := e.totalTime - Editable.time (e.info t)}, ?_,
    ⟨h.comparable, ⟨bs', hrep', fun hs => hord' h.trackCmp (hord hs)⟩, ?_⟩, hhead⟩
  · rw [Editable.removeTrack, hs']
    rfl
  show e.nrTracks - 1 = s'.head.length
  rw [hhead, List.length_erase_of_mem ht, h.count]

/-- Removal in a walk over the list. -/
theorem removeWhere_invariant (p : P → Bool) (h : Invariant fieldCmp e sorted) :
    ∃ e', e.removeWhere rb p = some e' ∧ Invariant fieldCmp e' sorted := by
  obtain ⟨e', hrun, h', -⟩ := Sequence.removal_walk
    Editable.head (fun e : Editable P => Invariant fieldCmp e sorted)
    (fun _ h => h.nodup) (fun _ _ h ht => removeTrack_invariant rb h ht)
    (p := fun _ => p) (fun _ _ _ => rfl) h
  exact ⟨e', hrun, h'⟩

theorem sort_invariant (h : Invariant fieldCmp e sorted) {keys : List SortKey}
    (hkeys : Comparable fieldCmp keys)
    (hstale : e.nrTracks > 1 →
      e.index.NoStale (Editable.trackCmp fieldCmp {e with sortKeys := keys}) e.head) :
    ∃ e', e.sort rb fieldCmp keys = some e' ∧ Invariant fieldCmp e' true := by
  obtain ⟨bs, hrep, -⟩ := h.blocks
  have hlen : e.nrTracks = (flat bs).length := by rw [h.count, Editable.head, hrep.head]
  by_cases hone : e.nrTracks ≤ 1
  · refine ⟨{e with sortKeys := keys}, if_pos hone, hkeys, ⟨bs, hrep, fun _ => ?_⟩, h.count⟩
    exact Ordered.of_length_le_one (hlen ▸ hone)
  · have hcmp : TotalPreorder (Editable.trackCmp fieldCmp {e with sortKeys := keys}) :=
      ⟨fun _ _ => hkeys.swap _ _, fun _ _ _ => hkeys.trans _ _ _⟩
    obtain ⟨s', bs', hs', hrep', hperm, hord'⟩ :=
      sortedListRebuild_spec rb hcmp hrep (hstale (by omega))
    refine ⟨{e with sortKeys := keys, index := s'}, ?_, hkeys, ⟨bs', hrep', fun _ => hord'⟩, ?_⟩
    · simp only [Editable.sort, if_neg hone, hs']
      rfl
    · show e.nrTracks = s'.head.length
      rw [hrep'.head, hperm.length_eq, hlen]

theorem rand_invariant (h : Invariant fieldCmp e sorted) {shuffled : List P}
    (hperm : shuffled.Perm e.head)
    (hstale : e.nrTracks > 1 → e.index.NoStale (fun _ _ => 0) shuffled) :
    ∃ e', e.rand rb shuffled = some e' ∧
      Invariant fieldCmp e' (sorted && decide (e.nrTracks ≤ 1)) := by
  by_cases hone : e.nrTracks ≤ 1
  · exact ⟨e, if_pos hone, by simpa [hone] using h⟩
  · obtain ⟨bs, hrep, -⟩ := h.blocks
    obtain ⟨s', bs', hs', hrep', hperm', hord'⟩ :=
      randListRebuild_spec rb hrep hperm (hstale (by omega))
    refine ⟨{e with index := s'}, ?_, h.comparable, ⟨bs', hrep', fun hs => ?_⟩, ?_⟩
    · simp only [Editable.rand, if_neg hone, hs']
      rfl
    · have hkeys : e.sortKeys = [] := hs.resolve_left (by simp [hone])
      refine hord'.congr fun a _ b _ => ?_
      show trackInfoCmp fieldCmp (e.info a) (e.info b) e.sortKeys = 0
      rw [hkeys]
      rfl
    · show e.nrTracks = s'.head.length
      rw [hrep'.head, hperm'.length_eq, h.count, Editable.head, hrep.head]

/-! ### Moves -/

omit [DecidableEq P] in
/-- Without keys there is one block, and the index is its head. -/
theorem single_block (h : Invariant fieldCmp e sorted) (hkeys : e.sortKeys = [])
    (hne : e.head ≠ []) :
    ∃ t m, Represents e.index [(t, m)] := by
  obtain ⟨bs, hrep, hord⟩ := h.blocks
  have hhead : e.head = flat bs := hrep.head
  have hstrict := (hord (.inr hkeys)).strict
  rcases bs with _ | ⟨⟨t, m⟩, _ | ⟨b, back⟩⟩
  · exact absurd hhead hne
  · exact ⟨t, m, hrep⟩
  · have hlt : e.trackCmp fieldCmp t b.1 < 0 := List.rel_of_pairwise_cons hstrict (by simp)
    rw [Editable.trackCmp, hkeys] at hlt
    exact absurd hlt (Int.lt_irrefl 0)

/-- A permuted list without keys: the index follows the first track. -/
theorem resetTree_invariant (h : Invariant fieldCmp e sorted) (hkeys : e.sortKeys = [])
    {head : List P} (hperm : head.Perm e.head) (hne : head ≠ []) :
    ∃ e', Editable.resetTree {e with index := {e.index with head}} = some e' ∧
      Invariant fieldCmp e' sorted ∧ e'.head = head ∧ e'.sortKeys = e.sortKeys := by
  obtain ⟨old, m, hrep⟩ := single_block h hkeys fun hnil => hne (hnil ▸ hperm).eq_nil
  obtain ⟨firstTrack, rest, rfl⟩ := List.exists_cons_of_ne_nil hne
  have htree : e.index.tree.toList = [old] := hrep.tree
  have hnodup : (firstTrack :: rest).Nodup := hperm.nodup_iff.mpr h.nodup
  have hhead : e.head = old :: m := by simpa using hrep.head
  have hordered : ∀ e' : Editable P, e'.sortKeys = [] →
      Ordered (e'.trackCmp fieldCmp) [(firstTrack, rest)] := by
    intro e' hkeys'
    refine ⟨List.pairwise_singleton .., fun b _ t _ => ?_⟩
    rw [Editable.trackCmp, hkeys']
    rfl
  have hcount : e.nrTracks = (firstTrack :: rest).length := by rw [h.count, hperm.length_eq]
  by_cases he : old = firstTrack
  · subst he
    refine ⟨{e with index := {e.index with head := old :: rest}}, ?_, ⟨h.comparable,
      ⟨[(old, rest)], ⟨by simp, hrep.tree, by simpa using hnodup, fun t ht => ?_⟩,
        fun _ => hordered _ hkeys⟩, hcount⟩, rfl, rfl⟩
    · simp [Editable.resetTree, Editable.tree, Editable.head, htree]
    · refine hrep.marks t ?_
      have := (hperm.mem_iff (a := t)).mp (by simpa using ht)
      simpa [hhead] using this
  · refine ⟨{e with index := ⟨firstTrack :: rest, rbReplaceNode e.index.tree old firstTrack,
      Function.update (Function.update e.index.clear firstTrack false) old true⟩}, ?_,
      ⟨h.comparable, ⟨[(firstTrack, rest)], ⟨by simp, ?_, by simpa using hnodup, fun t ht => ?_⟩,
        fun _ => hordered _ hkeys⟩, hcount⟩, rfl, rfl⟩
    · simp [Editable.resetTree, Editable.tree, Editable.head, htree, he]
    · exact toList_rbReplaceNode firstTrack (show _ = [] ++ old :: [] from htree) nofun nofun
    · have hmarks : t ∈ old :: m → (e.index.clear t = true ↔ t ≠ old) := by
        simpa using hrep.marks t
      have hold : t ∈ old :: m := by
        rw [← hhead]
        exact hperm.mem_iff.mp (by simpa using ht)
      simp only [Function.update_apply, heads_cons, heads_nil, List.mem_singleton]
      grind

/-- Whatever is moved behind a track that stays, the list is permuted. -/
theorem moveSel_invariant (h : Invariant fieldCmp e sorted) (hkeys : e.sortKeys = [])
    {sel after : Option P} (hsel : ∀ t, sel = some t → t ∈ e.head) (hne : e.head ≠ [])
    (hafter : ∀ a, after = some a → a ∈ e.head ∧
      if e.nrMarked ≠ 0 then e.marked a = false else sel ≠ some a) :
    ∃ e', e.moveSel sel after = some e' ∧ Invariant fieldCmp e' sorted ∧
      e'.head.Perm e.head ∧ e'.sortKeys = e.sortKeys := by
  have hfinish : ∀ rest tmp : List P, (tmp ++ rest).Perm e.head →
      (∀ a, after = some a → a ∈ rest) →
      ∃ e', Editable.resetTree {e with index := {e.index with
          head := tmp.foldl (fun head item => Sequence.insertAfter item after head) rest}} =
        some e' ∧ Invariant fieldCmp e' sorted ∧ e'.head.Perm e.head ∧
          e'.sortKeys = e.sortKeys := by
    intro rest tmp hsplit hstays
    have hperm := (Sequence.foldl_insertAfter_perm tmp (hsplit.nodup_iff.mpr h.nodup)
      hstays).trans hsplit
    obtain ⟨e', hreset, h', hhead, hkeys'⟩ :=
      resetTree_invariant h hkeys hperm fun hnil => hne (hnil ▸ hperm).nil_eq.symm
    exact ⟨e', hreset, h', by rwa [hhead], hkeys'⟩
  by_cases hmarked : e.nrMarked ≠ 0
  · simp only [Editable.moveSel, if_pos hmarked] at hafter ⊢
    refine hfinish _ _ ?_ fun a ha => ?_
    · exact ((List.reverse_perm _).append_right _).trans (List.filter_append_perm e.marked e.head)
    · obtain ⟨hmem, hun⟩ := hafter a ha
      simp [hmem, hun]
  · simp only [Editable.moveSel, if_neg hmarked] at hafter ⊢
    cases hs : sel with
    | none => exact hfinish _ _ (List.Perm.refl _) fun a ha => (hafter a ha).1
    | some t =>
      refine hfinish _ _ (List.perm_cons_erase (hsel t hs)).symm fun a ha => ?_
      obtain ⟨hmem, hne⟩ := hafter a ha
      have hat : a ≠ t := by
        intro heq
        subst heq
        exact hne hs
      exact (List.mem_erase_of_ne hat).mpr hmem

omit [DecidableEq P] in
theorem skipMarked_stays {back : List P} {a : P} (h : e.skipMarked back = some a) :
    a ∈ back ∧ e.marked a = false :=
  ⟨List.mem_of_find?_eq_some h, by simpa using List.find?_some h⟩

/-- The insertion points are the head or a track that stays. -/
theorem findInsertAfterPoint_stays (hnodup : e.head.Nodup) {item a : P} (hitem : item ∈ e.head)
    (h : e.findInsertAfterPoint item = some a) :
    a ∈ e.head ∧ if e.nrMarked ≠ 0 then e.marked a = false else some item ≠ some a := by
  obtain ⟨front, back, hsplit⟩ := List.append_of_mem hitem
  rw [hsplit] at hnodup
  have hout := (List.nodup_middle.mp hnodup).notMem
  have hfront : item ∉ front := fun hf => hout (List.mem_append_left _ hf)
  rw [Editable.findInsertAfterPoint] at h
  split at h
  · rename_i hzero
    rw [hsplit, Sequence.after_split back hfront] at h
    have hback : a ∈ back := List.mem_of_mem_head? h
    refine ⟨by rw [hsplit]; simp [hback], ?_⟩
    rw [if_neg (not_not.mpr hzero)]
    intro h
    cases h
    exact hout (List.mem_append_right _ hback)
  · rename_i hmarked
    obtain ⟨hmem, hun⟩ := skipMarked_stays h
    refine ⟨?_, by rwa [if_pos hmarked]⟩
    rw [hsplit, Sequence.before, Sequence.takeWhile_split back hfront] at hmem
    rw [hsplit]
    simp only [List.mem_cons, List.mem_reverse, List.mem_append] at hmem ⊢
    tauto

theorem findInsertBeforePoint_stays (hnodup : e.head.Nodup) (hlen : 1 < e.head.length) {item a : P}
    (hitem : item ∈ e.head) (h : e.findInsertBeforePoint item = some a) :
    a ∈ e.head ∧ if e.nrMarked ≠ 0 then e.marked a = false else some item ≠ some a := by
  obtain ⟨front, back, hsplit⟩ := List.append_of_mem hitem
  rw [hsplit] at hnodup
  have hout := (List.nodup_middle.mp hnodup).notMem
  have hfront : item ∉ front := fun hf => hout (List.mem_append_left _ hf)
  have hbefore : Sequence.before e.head item = front := by
    rw [hsplit, Sequence.before, Sequence.takeWhile_split back hfront]
  have hstays : ∀ b, b ∈ front ++ back → b ∈ e.head ∧ some item ≠ some b := by
    intro b hb
    refine ⟨?_, fun hib => hout (Option.some.inj hib ▸ hb)⟩
    rw [hsplit]
    exact List.perm_middle.mem_iff.mpr (List.mem_cons_of_mem _ hb)
  simp only [Editable.findInsertBeforePoint, hbefore] at h
  split at h
  · rename_i hzero
    rw [if_neg (not_not.mpr hzero)]
    cases hf : front.reverse with
    | nil =>
      obtain rfl := List.reverse_eq_nil_iff.mp hf
      rw [hf] at h
      refine hstays a ?_
      have hback : back ≠ [] := by
        intro heq
        subst heq
        rw [hsplit] at hlen
        exact absurd hlen (by simp)
      simp only [hsplit, List.nil_append, List.getLast?_cons_of_ne_nil hback] at h
      exact List.mem_of_getLast? h
    | cons b rest =>
      rw [hf] at h
      refine hstays a (List.mem_append_left _ (List.mem_reverse.mp ?_))
      rw [hf]
      exact List.mem_cons_of_mem _ (List.mem_of_mem_head? h)
  · rename_i hmarked
    obtain ⟨hmem, hun⟩ := skipMarked_stays h
    rw [if_pos hmarked]
    exact ⟨(hstays a (List.mem_append_left _ (List.mem_reverse.mp hmem))).1, hun⟩

/-! ### Marks -/

theorem setMark_invariant (h : Invariant fieldCmp e sorted) (t : P) (mark : Bool) :
    Invariant fieldCmp (e.setMark t mark) sorted :=
  ⟨h.comparable, h.blocks, h.count⟩

theorem foldl_setMark_invariant (mark : Editable P → P → Bool) (l : List P)
    (h : Invariant fieldCmp e sorted) :
    Invariant fieldCmp (l.foldl (fun e t => e.setMark t (mark e t)) e) sorted := by
  induction l generalizing e with
  | nil => exact h
  | cons t l ih => exact ih (setMark_invariant h t _)

end

/-! ### Runs -/

variable [DecidableEq P]

/-- Whether the tracks are in sorted order: a shuffle loses it, a sort restores it. -/
def sortedAfter (e : Editable P) (sorted : Bool) : Op P → Bool
  | .sort _ => true
  | .rand _ => sorted && decide (e.nrTracks ≤ 1)
  | _ => sorted

def stepSorted (rb : OrderedTree.Balancing P)
    (fieldCmp : SortField → TrackInfo → TrackInfo → Int) (s : Editable P × Bool) (op : Op P) :
    Option (Editable P × Bool) :=
  (step rb fieldCmp s.1 op).map fun e => (e, sortedAfter s.1 s.2 op)

/-- The keys that come into force compare as a total preorder. -/
def Op.Comparable (fieldCmp : SortField → TrackInfo → TrackInfo → Int) : Op P → Prop
  | .sort keys => Tracks.Comparable fieldCmp keys
  | _ => True

/-- The rebuild of the operation, if it makes one, leaves no mark stale. -/
def Op.NoStale (fieldCmp : SortField → TrackInfo → TrackInfo → Int) (e : Editable P) : Op P → Prop
  | .sort keys => e.nrTracks > 1 →
    e.index.NoStale (Editable.trackCmp fieldCmp {e with sortKeys := keys}) e.head
  | .rand shuffled => e.nrTracks > 1 → e.index.NoStale (fun _ _ => 0) shuffled
  | _ => True

section
variable (rb : OrderedTree.Balancing P) {fieldCmp : SortField → TrackInfo → TrackInfo → Int}

theorem step_invariant {e : Editable P} {sorted : Bool} {op : Op P}
    (h : Invariant fieldCmp e sorted) (hlegal : op.Legal e) (hcmp : op.Comparable fieldCmp)
    (hstale : op.NoStale fieldCmp e) :
    ∃ e', step rb fieldCmp e op = some e' ∧ Invariant fieldCmp e' (sortedAfter e sorted op) := by
  have hlen : ∀ {n}, ¬ e.nrTracks ≤ n → n < e.head.length := fun hn => by
    rw [← h.count]
    omega
  cases op with
  | add track ti =>
    exact ⟨_, rfl, doEditableAdd_invariant rb (initTrack_invariant h ti hlegal) hlegal
      (Function.update_self ..)⟩
  | addBefore track ti =>
    exact ⟨_, rfl, doEditableAdd_invariant rb (initTrack_invariant h ti hlegal) hlegal
      (Function.update_self ..)⟩
  | removeTrack track =>
    obtain ⟨e', he', h', -⟩ := removeTrack_invariant rb h hlegal
    exact ⟨e', he', h'⟩
  | removeSel sel =>
    by_cases hmarked : e.nrMarked ≠ 0
    · simp only [step, Editable.removeSel, if_pos hmarked]
      exact removeWhere_invariant rb e.marked h
    · simp only [step, Editable.removeSel, if_neg hmarked]
      cases hs : sel with
      | none => exact ⟨e, rfl, h⟩
      | some t =>
        obtain ⟨e', he', h', -⟩ := removeTrack_invariant rb h (hlegal t hs)
        exact ⟨e', he', h'⟩
  | removeMatchingTracks cb => exact removeWhere_invariant rb (fun t => cb (e.info t)) h
  | clear => exact removeWhere_invariant rb (fun _ => true) h
  | sort keys => exact sort_invariant rb h hcmp hstale
  | rand shuffled => exact rand_invariant rb h hlegal hstale
  | moveAfter sel =>
    by_cases hstay : e.nrTracks ≤ 1 ∨ e.sortKeys ≠ []
    · exact ⟨e, if_pos hstay, h⟩
    · simp only [step, Editable.moveAfter, if_neg hstay]
      obtain ⟨hmany, hkeys⟩ := not_or.mp hstay
      cases hs : sel with
      | none => exact ⟨e, rfl, h⟩
      | some t =>
        obtain ⟨e', he', h', -⟩ := moveSel_invariant h (not_not.mp hkeys) (hs ▸ hlegal)
          (List.length_pos_iff.mp (by have := hlen hmany; omega))
          fun a ha => findInsertAfterPoint_stays h.nodup (hlegal t hs) ha
        exact ⟨e', he', h'⟩
  | moveBefore sel =>
    by_cases hstay : e.nrTracks ≤ 1 ∨ e.sortKeys ≠ []
    · exact ⟨e, if_pos hstay, h⟩
    · simp only [step, Editable.moveBefore, if_neg hstay]
      obtain ⟨hmany, hkeys⟩ := not_or.mp hstay
      cases hs : sel with
      | none => exact ⟨e, rfl, h⟩
      | some t =>
        obtain ⟨e', he', h', -⟩ := moveSel_invariant h (not_not.mp hkeys) (hs ▸ hlegal)
          (List.length_pos_iff.mp (by have := hlen hmany; omega))
          fun a ha => findInsertBeforePoint_stays h.nodup (hlen hmany) (hlegal t hs) ha
        exact ⟨e', he', h'⟩
  | toggleMark sel =>
    cases sel with
    | none => exact ⟨e, rfl, h⟩
    | some t => exact ⟨_, rfl, setMark_invariant h t _⟩
  | mark filter => exact ⟨_, rfl, foldl_setMark_invariant (fun e t => filter (e.info t)) e.head h⟩
  | unmark => exact ⟨_, rfl, foldl_setMark_invariant (fun _ _ => false) e.head h⟩
  | invertMarks => exact ⟨_, rfl, foldl_setMark_invariant (fun e t => !e.marked t) e.head h⟩

omit [DecidableEq P] in
theorem init_invariant (clear marked : P → Bool) (info : P → TrackInfo) {keys : List SortKey}
    (hkeys : Comparable fieldCmp keys) :
    Invariant fieldCmp (Editable.init clear marked info keys) true :=
  ⟨hkeys, ⟨[], ⟨rfl, rfl, List.nodup_nil, nofun⟩, fun _ => ⟨List.Pairwise.nil, nofun⟩⟩, rfl⟩

end

/-- **List and index stay coherent** through every run none of whose rebuilds brings a
track that closes its block back behind an equal one. No operation of such a run leaves
the contract of the tree. -/
theorem editable_coherent (rb : OrderedTree.Balancing P)
    (fieldCmp : SortField → TrackInfo → TrackInfo → Int) (clear marked : P → Bool)
    (info : P → TrackInfo) (keys : List SortKey) (hkeys : Comparable fieldCmp keys)
    (ops : List (Op P))
    (hops : Runs.Along (stepSorted rb fieldCmp)
      (fun s op => op.Legal s.1 ∧ op.Comparable fieldCmp ∧ op.NoStale fieldCmp s.1)
      (Editable.init clear marked info keys, true) ops) :
    ∃ e sorted, Runs.run (stepSorted rb fieldCmp) (Editable.init clear marked info keys, true) ops
      = some (e, sorted) ∧ Coherent fieldCmp e sorted := by
  have hstep : ∀ (s : Editable P × Bool) (op : Op P), Invariant fieldCmp s.1 s.2 →
      op.Legal s.1 ∧ op.Comparable fieldCmp ∧ op.NoStale fieldCmp s.1 →
      ∃ s', stepSorted rb fieldCmp s op = some s' ∧ Invariant fieldCmp s'.1 s'.2 := by
    intro s op h h
    obtain ⟨hlegal, hcmp, hstale⟩ := h
    obtain ⟨e', he', h'⟩ := step_invariant rb h hlegal hcmp hstale
    exact ⟨(e', sortedAfter s.1 s.2 op), by rw [stepSorted, he', Option.map_some], h'⟩
  obtain ⟨⟨e, sorted⟩, hrun, h⟩ :=
    Runs.run_along hstep _ ops (init_invariant clear marked info hkeys) hops
  exact ⟨e, sorted, hrun, h.coherent⟩

/-- A new editable, without keys. -/
def newEditable : Editable Nat :=
  .init (fun _ => false) (fun _ => false) (fun _ => { uid := 0, filename := [] }) []

theorem editable_coherent_two_tracks :
    ∃ e sorted, Runs.run (stepSorted OrderedTree.Balancing.none
        fun _ a b => (a.playCount : Int) - b.playCount) (newEditable, true)
      [.add 0 { uid := 1, filename := ascii "a", playCount := 7 },
        .add 1 { uid := 2, filename := ascii "b", playCount := 3 },
        .sort [⟨.playCount, false⟩]] = some (e, sorted) ∧
      Coherent (fun _ a b => (a.playCount : Int) - b.playCount) e sorted := by
  have hone : Comparable (fun _ a b => (a.playCount : Int) - b.playCount)
      [⟨.playCount, false⟩] := by
    constructor <;> intros <;> simp only [trackInfoCmp] at * <;> grind
  refine editable_coherent (P := Nat) _ _ _ _ _ _ totalPreorder_zero _ ?_
  refine ⟨⟨by decide, trivial, trivial⟩, ?_⟩
  intro _ h
  cases h
  refine ⟨⟨by decide, trivial, trivial⟩, ?_⟩
  intro _ h
  cases h
  exact ⟨⟨trivial, hone, fun _ => by decide⟩, fun _ _ => trivial⟩

/-- Two equal tracks, sorted: the second is not in the tree, but its mark says so, and
removing it next calls the tree on it. -/
theorem sort_leaves_stale_mark :
    let ops := [.add 0 { uid := 1, filename := ascii "a" },
      .add 1 { uid := 2, filename := ascii "b" }, .sort [⟨.artist, false⟩]]
    let step := stepSorted OrderedTree.Balancing.none fun _ _ _ => 0
    Runs.Along step (fun s op => op.Legal s.1 ∧ op.Comparable fun _ _ _ => 0)
        (newEditable, true) ops ∧
      ∃ e, Runs.run step (newEditable, true) ops = some (e, true) ∧
        ¬ Coherent (fun _ _ _ => 0) e true ∧
        Op.Legal e (.removeTrack 1) ∧ e.removeTrack OrderedTree.Balancing.none 1 = none := by
  refine ⟨⟨⟨by decide, trivial⟩, ?_⟩, _, rfl, fun h => ?_, by decide, by rfl⟩
  · intro _ h
    cases h
    refine ⟨⟨by decide, trivial⟩, ?_⟩
    intro _ h
    cases h
    exact ⟨⟨trivial, totalPreorder_zero⟩, fun _ _ => trivial⟩
  · have := h.marks 1 (by decide)
    revert this
    decide

end GracefulMusic.Tracks
