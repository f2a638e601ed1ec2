import GracefulMusic.Playlist.View
import GracefulMusic.Tracks.Linked

/-! The marked playlist exists, and the cursor is among tracks only where there are some.

An operation on the playlists either keeps all tracks, and then the cursor follows only to
a track that is in its list (`SameTracks`), or it keeps what is shown (`Frame`) and takes
tracks away. Only an update takes them from under the cursor. -/
namespace GracefulMusic.Pl
open Tracks

variable {P : Type} {s s' : Playlists P}

/-- The marked playlist exists, and the cursor is not among the tracks of an empty one. -/
structure Settled (s : Playlists P) : Prop where
  marked : s.marked ∈ s.plHead
  cursor : s.cursorInTrackWindow = true → s.head s.visible ≠ []

/-- An update that removes an info leaves the visible list a track while the cursor is
among its tracks. -/
def Op.LeavesTrack (s : Playlists P) : Op P → Prop
  | .updateTrack old none => s.cursorInTrackWindow = true →
    ∃ t ∈ s.head s.visible, (s.playlist s.visible).editable.info t ≠ old
  | _ => True

instance (s : Playlists P) (op : Op P) : Decidable (op.LeavesTrack s) := by
  apply Op.casesOn (motive := fun op => Decidable (op.LeavesTrack s)) op
  case updateTrack =>
    intro old new
    apply Option.casesOn (motive := fun new => Decidable ((Op.updateTrack old new).LeavesTrack s)) new
    · show Decidable (s.cursorInTrackWindow = true →
        ∃ t ∈ s.head s.visible, (s.playlist s.visible).editable.info t ≠ old)
      infer_instance
    · intro new
      exact isTrue trivial
  all_goals
    intros
    exact isTrue trivial

/-! ### Playing -/

/-- The playlists keep their tracks, whatever is played or shown. -/
structure SameTracks (s s' : Playlists P) : Prop where
  plHead : s'.plHead = s.plHead
  marked : s'.marked = s.marked
  head : ∀ id, s'.head id = s.head id

theorem SameTracks.trans {s₁ : Playlists P} (h : SameTracks s s₁) (h' : SameTracks s₁ s') :
    SameTracks s s' :=
  ⟨h'.plHead.trans h.plHead, h'.marked.trans h.marked, fun id => (h'.head id).trans (h.head id)⟩

theorem setRoot_same (s : Playlists P) (id : Nat) (root : List P) :
    SameTracks s (s.set id {s.playlist id with shuffleRoot := root}) := by
  refine ⟨rfl, rfl, fun i => ?_⟩
  by_cases heq : i = id
  · subst heq
    rw [head_set_self]
  · rw [head_set_of_ne s heq]

theorem plPlayTrack_same (s : Playlists P) (pl : Nat) (t : P) (forceFollow : Bool) :
    SameTracks s (s.plPlayTrack pl t forceFollow) := by
  refine ⟨?_, ?_, fun id => by rw [Playlists.head, plPlayTrack_playlist]⟩
  · unfold Playlists.plPlayTrack
    dsimp only
    split <;> rfl
  · unfold Playlists.plPlayTrack
    dsimp only
    split <;> rfl

namespace Settled

theorem of_same (h : Settled s) (hsame : SameTracks s s') (hvisible : s'.visible = s.visible)
    (hcursor : s'.cursorInTrackWindow = true → s.cursorInTrackWindow = true) : Settled s' := by
  refine ⟨by rw [hsame.plHead, hsame.marked]; exact h.marked, fun hc => ?_⟩
  rw [hsame.head, hvisible]
  exact h.cursor (hcursor hc)

/-- The cursor follows to a track that is in its list. -/
theorem plPlayTrack (h : Settled s) (pl : Nat) (t : P) (forceFollow : Bool)
    (hin : PlayingInList (s.plPlayTrack pl t forceFollow)) :
    Settled (s.plPlayTrack pl t forceFollow) := by
  have hsame := plPlayTrack_same s pl t forceFollow
  unfold Playlists.plPlayTrack at hin hsame ⊢
  dsimp only at hin hsame ⊢
  split
  · rename_i hfollow
    rw [if_pos hfollow] at hin
    obtain ⟨p, hp, ht⟩ := hin t rfl
    obtain rfl : pl = p := Option.some.inj hp
    exact ⟨h.marked, fun _ => List.ne_nil_of_mem ht⟩
  · exact ⟨h.marked, h.cursor⟩

theorem setRoot (h : Settled s) (id : Nat) (root : List P) :
    Settled (s.set id {s.playlist id with shuffleRoot := root}) :=
  h.of_same (setRoot_same s id root) rfl fun hc => hc

variable [DecidableEq P]

theorem plPlayFirstInPlPlaying (h : Settled s) {order : List P}
    (hrun : s.plPlayFirstInPlPlaying order = some s') (hin : PlayingInList s') : Settled s' := by
  unfold Playlists.plPlayFirstInPlPlaying at hrun
  dsimp only at hrun
  split at hrun
  · cases hrun
    exact ⟨h.marked, h.cursor⟩
  · obtain ⟨t, -, rfl⟩ := Option.map_eq_some_iff.mp hrun
    refine plPlayTrack ?_ _ t false hin
    have h₁ : Settled {s with playing := some (s.playing.getD s.visible)} := ⟨h.marked, h.cursor⟩
    unfold Playlists.plGetFirstTrack
    split
    · exact h₁.setRoot _ _
    · exact h₁

theorem plGetMove (h : Settled s) (forward : Bool) (pl : Nat) (cur : P) (order : List P) :
    Settled (s.plGetMove forward pl cur order).1 := by
  unfold Playlists.plGetMove
  split
  · exact h.setRoot _ _
  · split <;> exact h

theorem plGotoGeneric (h : Settled s) {forward : Bool} {order : List P}
    (hrun : s.plGotoGeneric forward order = some s') (hin : PlayingInList s') : Settled s' := by
  unfold Playlists.plGotoGeneric at hrun
  split at hrun
  · exact h.plPlayFirstInPlPlaying hrun hin
  · rename_i cur _
    split at hrun
    · cases hrun
    · rename_i pl _
      split at hrun
      · have hmove := h.plGetMove forward pl cur order
        split at hrun
        · rename_i heq
          rw [heq] at hmove
          cases hrun
          exact hmove.plPlayTrack _ _ false hin
        · rename_i heq
          rw [heq] at hmove
          cases hrun
          exact hmove
      · cases hrun

end Settled

variable [DecidableEq P]

/-- What is played in the visible list leaves it visible. -/
theorem plPlayRow_same {sel : Option P} {order : List P} (hrun : s.plPlayRow sel order = some s') :
    SameTracks s s' ∧ s'.visible = s.visible := by
  have hvisible : ∀ (s : Playlists P) (t : P) (forceFollow : Bool),
      (s.plPlayTrack s.visible t forceFollow).visible = s.visible := by
    intro s t forceFollow
    unfold Playlists.plPlayTrack
    dsimp only
    split <;> rfl
  unfold Playlists.plPlayRow at hrun
  split at hrun
  · obtain ⟨t, -, rfl⟩ := Option.map_eq_some_iff.mp hrun
    exact ⟨(setRoot_same ..).trans (plPlayTrack_same ..), hvisible _ t true⟩
  · unfold Playlists.plPlaySelectedTrack at hrun
    split at hrun
    · cases hrun
      exact ⟨⟨rfl, rfl, fun _ => rfl⟩, rfl⟩
    · obtain ⟨t, -, rfl⟩ := Option.map_eq_some_iff.mp hrun
      exact ⟨plPlayTrack_same .., hvisible s t false⟩

theorem Settled.plPlaySelectedRow (h : Settled s) {sel : Option P} {order : List P}
    (hrun : s.plPlaySelectedRow sel order = some s') : Settled s' := by
  unfold Playlists.plPlaySelectedRow at hrun
  obtain ⟨s₁, hrow, rfl⟩ := Option.map_eq_some_iff.mp hrun
  obtain ⟨hsame, hvisible⟩ := plPlayRow_same hrow
  have h₁ : Settled {s₁ with cursorInTrackWindow := s.cursorInTrackWindow} :=
    h.of_same ⟨hsame.plHead, hsame.marked, hsame.head⟩ hvisible fun hc => hc
  split
  · split
    · exact h₁.setRoot _ _
    · exact h₁
  · exact h₁

/-! ### Adding and removing -/

/-- What is shown and what is marked stays. -/
structure Frame (s s' : Playlists P) : Prop where
  visible : s'.visible = s.visible
  plHead : s'.plHead = s.plHead
  marked : s'.marked = s.marked

omit [DecidableEq P] in
theorem Settled.of_frame (h : Settled s) (hframe : Frame s s')
    (hcursor : s'.cursorInTrackWindow = true → s'.head s.visible ≠ []) : Settled s' := by
  refine ⟨by rw [hframe.plHead, hframe.marked]; exact h.marked, fun hc => ?_⟩
  rw [hframe.visible]
  exact hcursor hc

theorem plReshuffle_frame (s : Playlists P) (order : List P) :
    Frame s (s.plReshuffle order) ∧ SameTracks s (s.plReshuffle order) ∧
      (s.plReshuffle order).cursorInTrackWindow = s.cursorInTrackWindow := by
  unfold Playlists.plReshuffle
  split
  · exact ⟨⟨rfl, rfl, rfl⟩, ⟨rfl, rfl, fun _ => rfl⟩, rfl⟩
  · exact ⟨⟨rfl, rfl, rfl⟩, setRoot_same .., rfl⟩

variable (mem : Memory P)

/-- The cursor leaves the tracks before they go. -/
theorem plClearVisiblePl_frame (hrun : s.plClearVisiblePl mem = some s') :
    Frame s s' ∧ s'.cursorInTrackWindow = false := by
  unfold Playlists.plClearVisiblePl at hrun
  obtain ⟨pl, -, rfl⟩ := Option.map_eq_some_iff.mp hrun
  cases hcursor : s.cursorInTrackWindow with
  | true =>
    have hleft : s.plWinNext.cursorInTrackWindow = false := by
      rw [Playlists.plWinNext, hcursor]
      rfl
    simp only [↓reduceIte]
    split
    · exact ⟨⟨rfl, rfl, rfl⟩, hleft⟩
    · exact ⟨⟨rfl, rfl, rfl⟩, hleft⟩
  | false =>
    simp only [Bool.false_eq_true, ↓reduceIte]
    split
    · exact ⟨⟨rfl, rfl, rfl⟩, hcursor⟩
    · exact ⟨⟨rfl, rfl, rfl⟩, hcursor⟩

theorem plDeleteSelectedTrack_frame {sel : Option P}
    (hrun : s.plDeleteSelectedTrack mem sel = some s') :
    Frame s s' ∧ (s'.cursorInTrackWindow = true → s'.head s.visible ≠ []) := by
  have hleaves : ∀ s₁ : Playlists P, Frame s s₁ →
      Frame s (if s₁.plEmpty s₁.visible then s₁.plWinNext else s₁) ∧
      ((if s₁.plEmpty s₁.visible then s₁.plWinNext else s₁).cursorInTrackWindow = true →
        (if s₁.plEmpty s₁.visible then s₁.plWinNext else s₁).head s.visible ≠ []) := by
    intro s₁ hframe
    split
    · rename_i hempty
      refine ⟨⟨hframe.visible, hframe.plHead, hframe.marked⟩, fun hc => ?_⟩
      rw [Playlists.plWinNext, hempty, Bool.not_true, Bool.and_false] at hc
      cases hc
    · rename_i hempty
      refine ⟨hframe, fun _ hnil => hempty ?_⟩
      rw [Playlists.plEmpty, hframe.visible, hnil]
      rfl
  unfold Playlists.plDeleteSelectedTrack at hrun
  obtain ⟨pl, -, rfl⟩ := Option.map_eq_some_iff.mp hrun
  apply hleaves
  split <;> exact ⟨rfl, rfl, rfl⟩

omit [DecidableEq P] in
/-- The next row is shown, and marked if the deleted one was. -/
theorem plDeleteSelectedPl_settled (h : Intact s) (hs : Settled s)
    (hcursor : s.cursorInTrackWindow = false) (answer : Bool) :
    Settled (s.plDeleteSelectedPl answer) := by
  have hnodup := (List.nodup_append.mp h.wellFormed.nodup).1
  unfold Playlists.plDeleteSelectedPl
  split
  · exact hs
  · rename_i next hnext
    split
    · have hvisible : next ∈ s.plHead.erase s.visible :=
        Sequence.mem_of_neighbour hnodup h.wellFormed.visible hnext
      have hout : ¬ s.cursorInTrackWindow = true := by simp [hcursor]
      dsimp only
      by_cases hmarked : (s.select next).marked = s.visible
      · simp only [if_pos hmarked]
        split <;> exact ⟨hvisible, fun hc => absurd hc hout⟩
      · have hstays : s.marked ∈ s.plHead.erase s.visible :=
          (List.mem_erase_of_ne hmarked).mpr hs.marked
        simp only [if_neg hmarked]
        split <;> exact ⟨hstays, fun hc => absurd hc hout⟩
    · exact hs

/-- The walk of `pl_update_track`. -/
theorem plUpdateTrack_frame {old : TrackInfo} {new : Option TrackInfo}
    (hrun : s.plUpdateTrack mem old new = some s') :
    Frame s s' ∧ s'.cursorInTrackWindow = s.cursorInTrackWindow := by
  unfold Playlists.plUpdateTrack at hrun
  generalize s.plHead = l at hrun
  induction l generalizing s with
  | nil =>
    cases hrun
    exact ⟨⟨rfl, rfl, rfl⟩, rfl⟩
  | cons id l ih =>
    obtain ⟨s₁, hset, hrun⟩ := Option.bind_eq_some_iff.mp hrun
    obtain ⟨pl, -, rfl⟩ := Option.map_eq_some_iff.mp hset
    obtain ⟨hframe, hcursor⟩ := ih hrun
    exact ⟨⟨hframe.visible, hframe.plHead, hframe.marked⟩, hcursor⟩

omit [DecidableEq P] in
theorem onMarks_frame (s : Playlists P) {f : Editable P → Editable P}
    (hsame : ∀ e, (f e).index = e.index) :
    Frame s (s.onMarks f) ∧ SameTracks s (s.onMarks f) ∧
      (s.onMarks f).cursorInTrackWindow = s.cursorInTrackWindow := by
  unfold Playlists.onMarks
  split
  · refine ⟨⟨rfl, rfl, rfl⟩, ⟨rfl, rfl, fun id => ?_⟩, rfl⟩
    by_cases heq : id = s.visible
    · subst heq
      rw [head_set_self, Editable.head, hsame]
    · rw [head_set_of_ne s heq]
  · exact ⟨⟨rfl, rfl, rfl⟩, ⟨rfl, rfl, fun _ => rfl⟩, rfl⟩

omit [DecidableEq P] in
theorem plWinMv_intact (h : Intact s) (hs : Settled s) {move : Editable P → Option (Editable P)}
    (hmove : ∃ e, move (s.playlist s.visible).editable = some e ∧ Linked e ∧
      e.head.Perm (s.head s.visible)) :
    ∃ s', s.plWinMv move = some s' ∧ s'.visible = s.visible ∧ Intact s' ∧ Settled s' := by
  unfold Playlists.plWinMv
  split
  · obtain ⟨e, hrun, hlinked, hperm⟩ := hmove
    have hsound := h.wellFormed.soundOf h.wellFormed.visible
    have hpl : Sound ⟨e, (s.playlist s.visible).shuffleRoot⟩ :=
      ⟨hlinked, hsound.shuffle.trans hperm.symm⟩
    refine ⟨s.set s.visible ⟨e, (s.playlist s.visible).shuffleRoot⟩, by rw [hrun]; rfl, rfl,
      ⟨h.wellFormed.set hpl, ?_⟩, ?_⟩
    · refine h.inList.of_mono rfl rfl fun pl _ t ht => ?_
      exact (head_set_keep s (fun _ => hperm.mem_iff) pl t).mpr ht
    · refine hs.of_frame ⟨rfl, rfl, rfl⟩ fun hc hnil => hs.cursor hc ?_
      rw [head_set_self] at hnil
      have hnil : e.head = [] := hnil
      rw [hnil] at hperm
      exact hperm.nil_eq.symm
  · exact ⟨s, rfl, rfl, h, hs⟩

/-! ### Steps and runs -/

/-- The operations that may show another playlist. -/
def Op.Switches : Op P → Prop
  | .playSelectedRow .. | .goto .. | .winRemove .. | .select _ => True
  | _ => False

theorem step_visible {op : Op P} (hrun : step mem s op = some s') (hop : ¬ op.Switches) :
    s'.visible = s.visible := by
  cases op with
  | playSelectedRow | goto | winRemove | select => exact absurd trivial hop
  | reshuffle order =>
    cases hrun
    exact (plReshuffle_frame s order).1.visible
  | addTrack | create | markPlaylist | winNext | setOptions =>
    cases hrun
    rfl
  | clear =>
    have hrun : s.plClear mem = some s' := hrun
    unfold Playlists.plClear at hrun
    split at hrun
    · exact (plClearVisiblePl_frame mem hrun).1.visible
    · cases hrun
      rfl
  | reload answer =>
    simp only [step] at hrun
    split at hrun
    · exact (plClearVisiblePl_frame mem hrun).1.visible
    · cases hrun
      rfl
  | freePlaylist id =>
    obtain ⟨pl, -, rfl⟩ := Option.map_eq_some_iff.mp hrun
    rfl
  | updateTrack old new => exact (plUpdateTrack_frame mem hrun).1.visible
  | toggleMark sel =>
    cases hrun
    refine (onMarks_frame s fun e => ?_).1.visible
    cases sel <;> rfl
  | invertMarks | unmark =>
    cases hrun
    exact (onMarks_frame s fun e => (foldl_setMark_index _ _ e).1).1.visible

theorem step_settled (h : Intact s) (hs : Settled s) {op : Op P} (hlegal : op.Legal s)
    (hwindow : op.InListWindow s) (hleaves : op.LeavesTrack s) (hrun : step mem s op = some s')
    (hin : PlayingInList s') : Settled s' := by
  cases op with
  | playSelectedRow sel order => exact hs.plPlaySelectedRow hrun
  | goto forward order => exact hs.plGotoGeneric hrun hin
  | reshuffle order =>
    cases hrun
    obtain ⟨hframe, hsame, hcursor⟩ := plReshuffle_frame s order
    exact hs.of_same hsame hframe.visible fun hc => hcursor.symm.trans hc
  | addTrack id ti place =>
    cases hrun
    refine hs.of_frame ⟨rfl, rfl, rfl⟩ fun hc => ?_
    obtain ⟨t, ht⟩ := List.exists_mem_of_ne_nil _ (hs.cursor hc)
    exact List.ne_nil_of_mem (plAddTrack_mono mem h hlegal ti place ht)
  | clear =>
    have hrun : s.plClear mem = some s' := hrun
    unfold Playlists.plClear at hrun
    split at hrun
    · obtain ⟨hframe, hout⟩ := plClearVisiblePl_frame mem hrun
      exact hs.of_frame hframe fun hc => absurd (hout.symm.trans hc) Bool.false_ne_true
    · cases hrun
      exact hs
  | reload answer =>
    simp only [step] at hrun
    split at hrun
    · obtain ⟨hframe, hout⟩ := plClearVisiblePl_frame mem hrun
      exact hs.of_frame hframe fun hc => absurd (hout.symm.trans hc) Bool.false_ne_true
    · cases hrun
      exact hs
  | winRemove sel answer =>
    have hrun : s.plWinRemove mem sel answer = some s' := hrun
    unfold Playlists.plWinRemove at hrun
    split at hrun
    · obtain ⟨hframe, hcursor⟩ := plDeleteSelectedTrack_frame mem hrun
      exact hs.of_frame hframe hcursor
    · rename_i hcursor
      cases hrun
      exact plDeleteSelectedPl_settled h hs (Bool.eq_false_iff.mpr hcursor) answer
  | freePlaylist id =>
    obtain ⟨pl, -, rfl⟩ := Option.map_eq_some_iff.mp hrun
    refine hs.of_frame ⟨rfl, rfl, rfl⟩ fun hc => ?_
    have hne : s.visible ≠ id := fun heq =>
      (List.nodup_append.mp h.wellFormed.nodup).2.2 _ h.wellFormed.visible id hlegal heq
    show (s.set id pl).head s.visible ≠ []
    rw [head_set_of_ne s hne]
    exact hs.cursor hc
  | updateTrack old new =>
    obtain ⟨hframe, hcursor⟩ := plUpdateTrack_frame mem hrun
    obtain ⟨s₁, hrun₁, -, -, -, hmem⟩ := plUpdateTrack_spec mem h.wellFormed old new
    obtain rfl := Option.some.inj (hrun.symm.trans hrun₁)
    refine hs.of_frame hframe fun hc => ?_
    rw [hcursor] at hc
    cases new with
    | some new =>
      obtain ⟨t, ht⟩ := List.exists_mem_of_ne_nil _ (hs.cursor hc)
      exact List.ne_nil_of_mem ((hmem _ h.wellFormed.visible t).mpr ⟨ht, fun hgone => by
        cases hgone.1⟩)
    | none =>
      obtain ⟨t, ht, hinfo⟩ := hleaves hc
      exact List.ne_nil_of_mem ((hmem _ h.wellFormed.visible t).mpr ⟨ht, fun hgone =>
        hinfo hgone.2⟩)
  | create id clear marked info =>
    cases hrun
    have hne : s.visible ≠ id := by
      intro heq
      subst heq
      exact hlegal (List.mem_append_left _ h.wellFormed.visible)
    refine ⟨List.mem_append_left _ hs.marked, fun hc => ?_⟩
    show (s.set id _).head s.visible ≠ []
    rw [head_set_of_ne s hne]
    exact hs.cursor hc
  | select id =>
    cases hrun
    exact ⟨hs.marked, fun hc => absurd (hwindow.symm.trans hc) Bool.false_ne_true⟩
  | markPlaylist id =>
    cases hrun
    exact ⟨hlegal, hs.cursor⟩
  | winNext =>
    cases hrun
    refine hs.of_frame ⟨rfl, rfl, rfl⟩ fun hc hnil => ?_
    have hempty : s.plEmpty s.visible = true := List.isEmpty_iff.mpr hnil
    rw [Playlists.plWinNext, hempty, Bool.not_true, Bool.and_false] at hc
    cases hc
  | toggleMark sel =>
    cases hrun
    obtain ⟨hframe, hsame, hcursor⟩ := onMarks_frame s (f := fun e => e.toggleMark sel) fun e => by
      cases sel <;> rfl
    exact hs.of_same hsame hframe.visible fun hc => hcursor.symm.trans hc
  | invertMarks | unmark =>
    cases hrun
    obtain ⟨hframe, hsame, hcursor⟩ := onMarks_frame s (f := _) fun e =>
      (foldl_setMark_index _ _ e).1
    exact hs.of_same hsame hframe.visible fun hc => hcursor.symm.trans hc
  | setOptions options =>
    cases hrun
    exact ⟨hs.marked, hs.cursor⟩

end GracefulMusic.Pl
