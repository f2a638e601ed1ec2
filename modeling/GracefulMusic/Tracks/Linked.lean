import GracefulMusic.Tracks.Coherence
import GracefulMusic.Tracks.Editable
import GracefulMusic.Tracks.Rebuild

/-! What holds of an editable whatever its tracks compare like.

Additions and removals keep list and index in step even if the order is lost (tracks
that were shuffled, or whose infos were exchanged in place): a removal is always within
the contract of the tree, and the list loses exactly the track. Without sort keys all
tracks are equal and the index has a node for the first one only. -/
namespace GracefulMusic.Tracks

variable {P : Type}

structure Linked (e : Editable P) : Prop where
  blocks : ∃ bs, Represents e.index bs
  count : e.nrTracks = e.head.length
  single : e.sortKeys = [] → e.tree.length ≤ 1

/-- Blocks of tracks that all compare equal. -/
theorem ordered_zero_iff {bs : List (P × List P)} :
    Ordered (fun _ _ => 0) bs ↔ (heads bs).length ≤ 1 := by
  constructor
  · intro h
    have hstrict := h.strict
    rcases bs with _ | ⟨b, _ | ⟨c, back⟩⟩
    · simp
    · simp
    · exact absurd (List.rel_of_pairwise_cons hstrict List.mem_cons_self) (Int.lt_irrefl 0)
  · intro h
    refine ⟨?_, fun _ _ _ _ => rfl⟩
    rcases bs with _ | ⟨b, _ | ⟨c, back⟩⟩
    · exact List.Pairwise.nil
    · exact List.pairwise_singleton ..
    · simp at h

theorem trackCmp_zero {e : Editable P} (hkeys : e.sortKeys = [])
    (fieldCmp : SortField → TrackInfo → TrackInfo → Int) : e.trackCmp fieldCmp = fun _ _ => 0 := by
  funext a b
  rw [Editable.trackCmp, hkeys]
  rfl

namespace Linked
variable {e : Editable P}

theorem nodup (h : Linked e) : e.head.Nodup := by
  obtain ⟨bs, hrep⟩ := h.blocks
  rw [Editable.head, hrep.head]
  exact hrep.nodup

theorem init (clear marked : P → Bool) (info : P → TrackInfo) (keys : List SortKey) :
    Linked (Editable.init clear marked info keys) :=
  ⟨⟨[], ⟨rfl, rfl, List.nodup_nil, nofun⟩⟩, rfl, fun _ => Nat.zero_le 1⟩

/-- Marks and infos are beside the list. -/
theorem congr {e' : Editable P} (h : Linked e) (hindex : e'.index = e.index)
    (hcount : e'.nrTracks = e.nrTracks) (hkeys : e'.sortKeys = e.sortKeys) : Linked e' :=
  ⟨hindex ▸ h.blocks, by rw [hcount, h.count, Editable.head, Editable.head, hindex],
    by rw [hkeys, Editable.tree, hindex]; exact h.single⟩

variable [DecidableEq P] (rb : OrderedTree.Balancing P)

/-- `editable_add` and `editable_add_before`. -/
theorem doEditableAdd (h : Linked e) (fieldCmp : SortField → TrackInfo → TrackInfo → Int)
    {track : P} (ti : TrackInfo) (tiebreak : Int) (hfresh : track ∉ e.head) :
    Linked ((e.initTrack track ti).doEditableAdd rb fieldCmp track tiebreak) ∧
      ((e.initTrack track ti).doEditableAdd rb fieldCmp track tiebreak).head.Perm
        (track :: e.head) := by
  obtain ⟨bs, hrep⟩ := h.blocks
  have hhead : e.head = flat bs := hrep.head
  have hne : ∀ t ∈ flat bs, t ≠ track := by
    intro t ht heq
    subst heq
    exact hfresh (hhead ▸ ht)
  have hinit : Represents (e.initTrack track ti).index bs :=
    hrep.withClear fun t ht => Function.update_of_ne (hne t ht) _ _
  obtain ⟨bs', hrep', hperm, hord⟩ := add_spec rb ((e.initTrack track ti).trackCmp fieldCmp) tiebreak
    hinit (hhead ▸ hfresh) fun _ _ => Function.update_self ..
  have hhead' : ((e.initTrack track ti).doEditableAdd rb fieldCmp track tiebreak).head.Perm
      (track :: e.head) := by
    show (sortedListAddTrack rb _ _ track tiebreak).head.Perm _
    rw [hrep'.head, hhead]
    exact hperm
  refine ⟨⟨⟨bs', hrep'⟩, ?_, fun hkeys => ?_⟩, hhead'⟩
  · rw [hhead'.length_eq, List.length_cons, ← h.count]
    rfl
  · have hsingle := h.single hkeys
    rw [Editable.tree, hrep.tree] at hsingle
    rw [trackCmp_zero (show (e.initTrack track ti).sortKeys = [] from hkeys)] at hord
    show (sortedListAddTrack rb _ _ track tiebreak).tree.toList.length ≤ 1
    rw [hrep'.tree]
    exact ordered_zero_iff.mp (hord totalPreorder_zero (ordered_zero_iff.mpr hsingle))

theorem add (h : Linked e) (fieldCmp : SortField → TrackInfo → TrackInfo → Int) {track : P}
    (ti : TrackInfo) (hfresh : track ∉ e.head) :
    Linked (e.add rb fieldCmp track ti) ∧
      (e.add rb fieldCmp track ti).head.Perm (track :: e.head) :=
  h.doEditableAdd rb fieldCmp ti 1 hfresh

/-- The infos of an editable that took a track, from its tracks. -/
theorem infos_perm {info : P → TrackInfo} {head head' : List P} {track : P} (ti : TrackInfo)
    (hhead : head'.Perm (track :: head)) (hfresh : track ∉ head) :
    (head'.map (Function.update info track ti)).Perm (ti :: head.map info) := by
  have hrest : head.map (Function.update info track ti) = head.map info := by
    refine List.map_congr_left fun t ht => Function.update_of_ne ?_ _ _
    intro heq
    subst heq
    exact hfresh ht
  refine (hhead.map _).trans ?_
  rw [List.map_cons, Function.update_self, hrest]

/-- What a removal takes out of the editable. -/
theorem removeTrack (h : Linked e) {t : P} (ht : t ∈ e.head) :
    ∃ e', e.removeTrack rb t = some e' ∧ Linked e' ∧ e'.head = e.head.erase t ∧
      e'.info = e.info ∧ e'.marked = e.marked := by
  obtain ⟨bs, hrep⟩ := h.blocks
  have hold : e.head = flat bs := hrep.head
  obtain ⟨s', bs', hs', hrep', hflat, hord⟩ := remove_spec rb (fun _ _ => 0) hrep (hold ▸ ht)
  have hhead : s'.head = e.head.erase t := by rw [hrep'.head, hflat, hold]
  refine ⟨{e with
      index := s'
      nrTracks := e.nrTracks - 1
      nrMarked := e.nrMarked - (e.marked t).toNat
      totalTime := e.totalTime - Editable.time (e.info t)}, ?_, ⟨⟨bs', hrep'⟩, ?_, fun hkeys => ?_⟩, hhead, rfl, rfl⟩
  · rw [Editable.removeTrack, hs']
    rfl
  · show e.nrTracks - 1 = s'.head.length
    rw [hhead, List.length_erase_of_mem ht, h.count]
  · have hsingle := h.single hkeys
    rw [Editable.tree, hrep.tree] at hsingle
    show s'.tree.toList.length ≤ 1
    rw [hrep'.tree]
    exact ordered_zero_iff.mp (hord totalPreorder_zero (ordered_zero_iff.mpr hsingle))

/-- The removal loops. -/
theorem removeWhere (h : Linked e) (p : P → Bool) :
    ∃ e', e.removeWhere rb p = some e' ∧ Linked e' ∧ e'.info = e.info ∧
      e'.head = e.head.filter fun t => !p t := by
  obtain ⟨e', hrun, ⟨h', hinfo⟩, hhead⟩ := Sequence.removal_walk
    Editable.head (fun e' : Editable P => Linked e' ∧ e'.info = e.info)
    (fun _ h => h.1.nodup) (fun e₁ t h₁ ht => by
      obtain ⟨e₂, hrun, h₂, hhead, hinfo, -⟩ := h₁.1.removeTrack rb ht
      exact ⟨e₂, hrun, ⟨h₂, hinfo.trans h₁.2⟩, hhead⟩)
    (p := fun _ => p) (fun _ _ _ => rfl) ⟨h, rfl⟩
  exact ⟨e', hrun, h', hinfo, hhead⟩

end Linked

end GracefulMusic.Tracks

/-! Moves whatever the tracks compare like.

Tracks are moved by hand only without sort keys, where all of them compare equal. So the
argument about a sorted list, with a comparison that is constantly zero, covers every
list. -/
namespace GracefulMusic.Tracks
variable {P : Type} {e : Editable P}

/-- The order that an editable without sort keys is in. -/
abbrev Plain (e : Editable P) : Prop := Invariant (fun _ _ _ => 0) e false

theorem trackInfoCmp_plain (keys : List SortKey) (a b : TrackInfo) :
    trackInfoCmp (fun _ _ _ => 0) a b keys = 0 := by
  induction keys with
  | nil => rfl
  | cons key keys ih => rw [trackInfoCmp, if_neg (not_not.mpr rfl), ih]

theorem Linked.plain (h : Linked e) : Plain e := by
  obtain ⟨bs, hrep⟩ := h.blocks
  refine ⟨?_, ⟨bs, hrep, fun hkeys => ?_⟩, h.count⟩
  · show TotalPreorder fun a b => trackInfoCmp (fun _ _ _ => 0) a b e.sortKeys
    simp only [trackInfoCmp_plain]
    exact totalPreorder_zero
  · rw [trackCmp_zero (hkeys.resolve_left Bool.false_ne_true)]
    apply ordered_zero_iff.mpr
    rw [← hrep.tree]
    exact h.single (hkeys.resolve_left Bool.false_ne_true)

theorem Linked.of_plain (h : Plain e) : Linked e := by
  obtain ⟨bs, hrep, hord⟩ := h.blocks
  refine ⟨⟨bs, hrep⟩, h.count, fun hkeys => ?_⟩
  have hzero := hord (.inr hkeys)
  rw [trackCmp_zero hkeys] at hzero
  rw [Editable.tree, hrep.tree]
  exact ordered_zero_iff.mp hzero

variable [DecidableEq P]

/-- What both commands come to, when their insertion point stays. -/
theorem Linked.moveSel (h : Linked e) (hkeys : e.sortKeys = []) {t : P} (ht : t ∈ e.head)
    {after : Option P} (hafter : ∀ a, after = some a → a ∈ e.head ∧
      if e.nrMarked ≠ 0 then e.marked a = false else some t ≠ some a) :
    ∃ e', e.moveSel (some t) after = some e' ∧ Linked e' ∧ e'.head.Perm e.head := by
  have hsel : ∀ u, some t = some u → u ∈ e.head := by
    intro u h
    cases h
    exact ht
  obtain ⟨e', hrun, h', hperm, -⟩ :=
    moveSel_invariant h.plain hkeys hsel (List.ne_nil_of_mem ht) hafter
  exact ⟨e', hrun, .of_plain h', hperm⟩

theorem Linked.moveAfter (h : Linked e) {sel : Option P} (hsel : ∀ t ∈ sel, t ∈ e.head) :
    ∃ e', e.moveAfter sel = some e' ∧ Linked e' ∧ e'.head.Perm e.head := by
  unfold Editable.moveAfter
  by_cases hstay : e.nrTracks ≤ 1 ∨ e.sortKeys ≠ []
  · exact ⟨e, if_pos hstay, h, .refl _⟩
  · rw [if_neg hstay]
    cases sel with
    | none => exact ⟨e, rfl, h, .refl _⟩
    | some t =>
      apply h.moveSel (not_not.mp (not_or.mp hstay).2) (hsel t rfl)
      exact fun a ha => findInsertAfterPoint_stays h.nodup (hsel t rfl) ha

theorem Linked.moveBefore (h : Linked e) {sel : Option P} (hsel : ∀ t ∈ sel, t ∈ e.head) :
    ∃ e', e.moveBefore sel = some e' ∧ Linked e' ∧ e'.head.Perm e.head := by
  unfold Editable.moveBefore
  by_cases hstay : e.nrTracks ≤ 1 ∨ e.sortKeys ≠ []
  · exact ⟨e, if_pos hstay, h, .refl _⟩
  · rw [if_neg hstay]
    have hmany : 1 < e.head.length := by
      rw [← h.count]
      omega
    cases sel with
    | none => exact ⟨e, rfl, h, .refl _⟩
    | some t =>
      apply h.moveSel (not_not.mp (not_or.mp hstay).2) (hsel t rfl)
      exact fun a ha => findInsertBeforePoint_stays h.nodup hmany (hsel t rfl) ha

end GracefulMusic.Tracks
