import GracefulMusic.Playlist.Lists

/-! The playing track is in the playing playlist.

What every operation keeps is that the playlists in memory are sound and that the
playing one exists. Whether the playing track stays in its list is a matter of the two
operations that free single tracks. -/
namespace GracefulMusic.Pl
open Tracks

variable {P : Type} {s : Playlists P}

/-- `pl_playing_track` is null, or it is a track of `pl_playing`. -/
def PlayingInList (s : Playlists P) : Prop :=
  ∀ t, s.playingTrack = some t → ∃ pl, s.playing = some pl ∧ t ∈ s.head pl

instance [DecidableEq P] (s : Playlists P) : Decidable (PlayingInList s) :=
  decidable_of_iff
    ((s.playingTrack.all fun t => s.playing.any fun pl => decide (t ∈ s.head pl)) = true) (by
      unfold PlayingInList
      cases s.playingTrack <;> cases s.playing <;> simp)

/-- A removal of the selection takes the playing track only if that is the one selected,
and an update removes no info that is playing. -/
def Op.SparesPlaying (s : Playlists P) : Op P → Prop
  | .winRemove sel _ =>
    s.cursorInTrackWindow = true → s.playing = some s.visible → ∀ t ∈ s.playingTrack,
      (s.playlist s.visible).editable.nrMarked ≠ 0 →
      (s.playlist s.visible).editable.marked t = true → sel = some t
  | .updateTrack old none =>
    ∀ pl ∈ s.playing, ∀ t ∈ s.playingTrack, (s.playlist pl).editable.info t ≠ old
  | _ => True

instance [DecidableEq P] (s : Playlists P) (op : Op P) : Decidable (op.SparesPlaying s) := by
  apply Op.casesOn (motive := fun op => Decidable (op.SparesPlaying s)) op
  case winRemove =>
    intro sel answer
    show Decidable (s.cursorInTrackWindow = true →
      s.playing = some s.visible → ∀ t ∈ s.playingTrack,
        (s.playlist s.visible).editable.nrMarked ≠ 0 →
        (s.playlist s.visible).editable.marked t = true → sel = some t)
    infer_instance
  case updateTrack =>
    intro old new
    apply Option.casesOn (motive := fun new => Decidable ((Op.updateTrack old new).SparesPlaying s)) new
    · show Decidable (∀ pl ∈ s.playing, ∀ t ∈ s.playingTrack,
        (s.playlist pl).editable.info t ≠ old)
      infer_instance
    · intro new
      exact isTrue trivial
  all_goals
    intros
    exact isTrue trivial

structure WellFormed (s : Playlists P) : Prop where
  sound : ∀ id ∈ s.plHead ++ s.deleted, Sound (s.playlist id)
  nodup : (s.plHead ++ s.deleted).Nodup
  visible : s.visible ∈ s.plHead
  playing : ∀ pl ∈ s.playing, pl ∈ s.plHead

namespace WellFormed

theorem soundOf (h : WellFormed s) {id : Nat} (hid : id ∈ s.plHead) : Sound (s.playlist id) :=
  h.sound id (List.mem_append_left _ hid)

/-- An exchanged playlist. -/
theorem set (h : WellFormed s) {id : Nat} {pl : Playlist P} (hpl : Sound pl) :
    WellFormed (s.set id pl) := by
  refine ⟨fun i hi => ?_, h.nodup, h.visible, h.playing⟩
  show Sound (Function.update s.playlist id pl i)
  by_cases heq : i = id
  · subst heq
    rwa [Function.update_self]
  · rw [Function.update_of_ne heq]
    exact h.sound i hi

end WellFormed

theorem head_set_self (s : Playlists P) (id : Nat) (pl : Playlist P) :
    (s.set id pl).head id = pl.editable.head := by
  show (Function.update s.playlist id pl id).editable.head = _
  rw [Function.update_self]

theorem head_set_of_ne (s : Playlists P) {id i : Nat} (hne : i ≠ id) (pl : Playlist P) :
    (s.set id pl).head i = s.head i := by
  show (Function.update s.playlist id pl i).editable.head = _
  rw [Function.update_of_ne hne]

/-- A playlist whose tracks stay. -/
theorem head_set_keep (s : Playlists P) {id : Nat} {pl : Playlist P}
    (hpl : ∀ t, t ∈ pl.editable.head ↔ t ∈ s.head id) (i : Nat) (t : P) :
    t ∈ (s.set id pl).head i ↔ t ∈ s.head i := by
  by_cases heq : i = id
  · subst heq
    rw [head_set_self, hpl]
  · rw [head_set_of_ne s heq]

/-- The invariant as a whole. -/
structure Intact (s : Playlists P) : Prop where
  wellFormed : WellFormed s
  inList : PlayingInList s

/-- No track leaves its list, and the pointers stay. -/
theorem PlayingInList.of_mono {s' : Playlists P} (h : PlayingInList s)
    (htrack : s'.playingTrack = s.playingTrack) (hplaying : s'.playing = s.playing)
    (hmem : ∀ pl ∈ s.playing, ∀ t ∈ s.head pl, t ∈ s'.head pl) : PlayingInList s' := by
  intro t ht
  obtain ⟨pl, hpl, hin⟩ := h t (htrack ▸ ht)
  exact ⟨pl, hplaying.trans hpl, hmem pl hpl t hin⟩

theorem Intact.withCursor (h : Intact s) (b : Bool) :
    Intact {s with cursorInTrackWindow := b} :=
  ⟨⟨h.wellFormed.sound, h.wellFormed.nodup, h.wellFormed.visible, h.wellFormed.playing⟩, h.inList⟩

/-- Only the shuffle tree of a playlist changes. -/
theorem Intact.setRoot (h : Intact s) {id : Nat} (hid : id ∈ s.plHead) {root : List P}
    (hroot : root.Perm (s.playlist id).shuffleRoot) :
    Intact (s.set id {s.playlist id with shuffleRoot := root}) := by
  have hsound := h.wellFormed.soundOf hid
  refine ⟨h.wellFormed.set ⟨hsound.linked, hroot.trans hsound.shuffle⟩, ?_⟩
  refine h.inList.of_mono rfl rfl fun pl _ t ht => (head_set_keep s (fun _ => ?_) pl t).mpr ht
  exact Iff.rfl

theorem plWinNext_intact (h : Intact s) : Intact s.plWinNext := h.withCursor _

/-- Without a playing track any list may lose its tracks. -/
theorem Intact.set (h : WellFormed s) (hnone : s.playing = some s.visible → s.playingTrack = none)
    (hin : PlayingInList s) {pl : Playlist P} (hpl : Sound pl) : Intact (s.set s.visible pl) := by
  refine ⟨h.set hpl, fun t ht => ?_⟩
  obtain ⟨p, hp, hmem⟩ := hin t ht
  have hne : p ≠ s.visible := by
    intro heq
    subst heq
    cases (hnone hp).symm.trans ht
  exact ⟨p, hp, by rwa [head_set_of_ne _ hne]⟩

/-! ### Playing -/

theorem plPlayTrack_intact (h : WellFormed s) {pl : Nat} (hpl : pl ∈ s.plHead) {t : P}
    (ht : t ∈ s.head pl) (forceFollow : Bool) : Intact (s.plPlayTrack pl t forceFollow) := by
  have hin : ∀ u, some t = some u → ∃ p, some pl = some p ∧ u ∈ s.head p := by
    intro u h
    cases h
    exact ⟨pl, rfl, ht⟩
  have hplaying : ∀ p ∈ some pl, p ∈ s.plHead := by
    intro p h
    cases h
    exact hpl
  unfold Playlists.plPlayTrack
  dsimp only
  split
  · exact ⟨⟨h.sound, h.nodup, hpl, hplaying⟩, hin⟩
  · exact ⟨⟨h.sound, h.nodup, h.visible, hplaying⟩, hin⟩

theorem plPlayTrack_playlist (s : Playlists P) (pl : Nat) (t : P) (forceFollow : Bool) :
    (s.plPlayTrack pl t forceFollow).playlist = s.playlist := by
  unfold Playlists.plPlayTrack
  dsimp only
  split <;> rfl

theorem plPlaySelectedTrack_intact (h : Intact s) {sel : Option P}
    (hsel : ∀ t ∈ sel, t ∈ s.head s.visible) (hsome : s.head s.visible ≠ [] → sel ≠ none) :
    ∃ s', s.plPlaySelectedTrack sel = some s' ∧ Intact s' ∧ s'.playlist = s.playlist := by
  unfold Playlists.plPlaySelectedTrack
  by_cases hempty : s.plEmpty s.visible = true
  · exact ⟨s, if_pos hempty, h, rfl⟩
  · rw [if_neg hempty]
    have hne : s.head s.visible ≠ [] := fun hnil => hempty (List.isEmpty_iff.mpr hnil)
    obtain ⟨t, rfl⟩ := Option.ne_none_iff_exists'.mp (hsome hne)
    exact ⟨_, rfl, plPlayTrack_intact h.wellFormed h.wellFormed.visible (hsel t rfl) false,
      plPlayTrack_playlist ..⟩

variable [DecidableEq P]

/-- The first track of a shuffle list that is not empty, after a reshuffle. -/
theorem shuffleFirst_intact (h : Intact s) {pl : Nat} (hpl : pl ∈ s.plHead)
    (hne : s.head pl ≠ []) {order : List P} (horder : order.Perm (s.playlist pl).shuffleRoot) :
    ∃ root t, shuffleListGetNext s.options order (s.playlist pl).shuffleRoot none = (root, some t) ∧
      Intact (s.set pl {s.playlist pl with shuffleRoot := root}) ∧
      t ∈ (s.set pl {s.playlist pl with shuffleRoot := root}).head pl := by
  have hperm := (h.wellFormed.soundOf hpl).shuffle
  have hroot : (s.playlist pl).shuffleRoot ≠ [] := fun hnil => hne (hnil ▸ hperm).nil_eq.symm
  obtain ⟨hnext, hmem⟩ := shuffleListGetNext_spec (o := s.options) horder none
  obtain ⟨t, ht⟩ := Option.ne_none_iff_exists'.mp
    (shuffleListGetNext_first (o := s.options) horder hroot)
  refine ⟨_, t, Prod.ext rfl ht, h.setRoot hpl hnext, ?_⟩
  rw [head_set_self]
  exact hperm.mem_iff.mp (hmem t ht)

theorem plPlayFirstInPlPlaying_intact (h : Intact s) (hnone : s.playingTrack = none)
    {order : List P} (horder : order.Perm (s.playlist (s.playing.getD s.visible)).shuffleRoot) :
    ∃ s', s.plPlayFirstInPlPlaying order = some s' ∧ Intact s' := by
  have hpl : s.playing.getD s.visible ∈ s.plHead := by
    cases hp : s.playing with
    | none => exact h.wellFormed.visible
    | some pl => exact h.wellFormed.playing pl hp
  unfold Playlists.plPlayFirstInPlPlaying
  generalize s.playing.getD s.visible = pl at hpl horder ⊢
  by_cases hempty : s.plEmpty pl = true
  · refine ⟨{s with playing := none}, if_pos hempty,
      ⟨h.wellFormed.sound, h.wellFormed.nodup, h.wellFormed.visible, nofun⟩, fun t ht => ?_⟩
    cases hnone.symm.trans ht
  · simp only [if_neg hempty]
    have hne : s.head pl ≠ [] := fun hnil => hempty (List.isEmpty_iff.mpr hnil)
    have h₁ : Intact {s with playing := some pl} := by
      refine ⟨⟨h.wellFormed.sound, h.wellFormed.nodup, h.wellFormed.visible, ?_⟩, fun t ht => ?_⟩
      · intro p h
        cases h
        exact hpl
      · cases hnone.symm.trans ht
    unfold Playlists.plGetFirstTrack
    by_cases hshuffle : s.options.shuffle = true
    · obtain ⟨root, t, hfirst, h₂, ht⟩ := shuffleFirst_intact h₁ hpl hne horder
      simp only [if_pos hshuffle]
      refine ⟨_, ?_, plPlayTrack_intact h₂.wellFormed hpl ht false⟩
      simp only at hfirst
      rw [hfirst]
      rfl
    · simp only [if_neg hshuffle]
      obtain ⟨t, ht⟩ := Option.ne_none_iff_exists'.mp (mt List.head?_eq_none_iff.mp hne)
      refine ⟨_, ?_, plPlayTrack_intact h₁.wellFormed hpl (List.mem_of_mem_head? ht) false⟩
      rw [show (Playlists.head {s with playing := some pl} pl).head? = some t from ht]
      rfl

theorem plGetMove_intact (h : Intact s) (forward : Bool) {pl : Nat} (hpl : pl ∈ s.plHead) (cur : P)
    {order : List P} (horder : order.Perm (s.playlist pl).shuffleRoot) :
    Intact (s.plGetMove forward pl cur order).1 ∧
      pl ∈ (s.plGetMove forward pl cur order).1.plHead ∧
      ∀ t ∈ (s.plGetMove forward pl cur order).2,
        t ∈ (s.plGetMove forward pl cur order).1.head pl := by
  have hperm := (h.wellFormed.soundOf hpl).shuffle
  have hmove : ∀ m : List P × Option P, m.1.Perm (s.playlist pl).shuffleRoot →
      (∀ t ∈ m.2, t ∈ (s.playlist pl).shuffleRoot) →
      Intact (s.set pl {s.playlist pl with shuffleRoot := m.1}) ∧ pl ∈ s.plHead ∧
        ∀ t ∈ m.2, t ∈ (s.set pl {s.playlist pl with shuffleRoot := m.1}).head pl := by
    intro m hroot hmem
    refine ⟨h.setRoot hpl hroot, hpl, fun t ht => ?_⟩
    rw [head_set_self]
    exact hperm.mem_iff.mp (hmem t ht)
  unfold Playlists.plGetMove
  by_cases hshuffle : s.options.shuffle = true
  · simp only [if_pos hshuffle]
    cases forward with
    | true =>
      obtain ⟨hroot, hmem⟩ := shuffleListGetNext_spec (o := s.options) horder (some cur)
      exact hmove _ hroot hmem
    | false =>
      obtain ⟨hroot, hmem⟩ := shuffleListGetPrev_spec (o := s.options) horder cur
      exact hmove _ hroot hmem
  · simp only [if_neg hshuffle]
    cases forward with
    | true => exact ⟨h, hpl, fun t ht => simpleListGetNext_mem ht⟩
    | false => exact ⟨h, hpl, fun t ht => simpleListGetPrev_mem ht⟩

theorem plGotoGeneric_intact (h : Intact s) (forward : Bool) {order : List P}
    (horder : order.Perm (s.playlist (s.playing.getD s.visible)).shuffleRoot) :
    ∃ s', s.plGotoGeneric forward order = some s' ∧ Intact s' := by
  unfold Playlists.plGotoGeneric
  cases htrack : s.playingTrack with
  | none => exact plPlayFirstInPlPlaying_intact h htrack horder
  | some cur =>
    obtain ⟨pl, hpl, hcur⟩ := h.inList cur htrack
    rw [hpl] at horder
    obtain ⟨h', hpl', hmem⟩ :=
      plGetMove_intact h forward (h.wellFormed.playing pl hpl) cur horder
    simp only [hpl, if_pos hcur]
    rcases hmove : s.plGetMove forward pl cur order with ⟨s', _ | track⟩
    · rw [hmove] at h'
      exact ⟨s', rfl, h'⟩
    · rw [hmove] at h' hpl' hmem
      exact ⟨_, rfl, plPlayTrack_intact h'.wellFormed hpl' (hmem track rfl) false⟩

theorem shuffleInsert_intact (h : Intact s) {pl : Nat} (hpl : s.playing = some pl)
    {previous : Option P} {cur : P} (hcur : cur ∈ s.head pl)
    (hprevious : ∀ p ∈ previous, p ∈ s.head pl) :
    Intact (s.set pl {s.playlist pl with
      shuffleRoot := shuffleInsert (s.playlist pl).shuffleRoot previous cur}) := by
  have hsound := h.wellFormed.soundOf (h.wellFormed.playing pl hpl)
  refine h.setRoot (h.wellFormed.playing pl hpl) (shuffleInsert_perm ?_ ?_ fun p hp => ?_)
  · exact hsound.shuffle.nodup_iff.mpr hsound.linked.nodup
  · exact hsound.shuffle.mem_iff.mpr hcur
  · exact hsound.shuffle.mem_iff.mpr (hprevious p hp)

theorem plPlayRow_intact (h : Intact s) {sel : Option P} {order : List P}
    (hlegal : (Op.playSelectedRow sel order).Legal s) :
    ∃ s', s.plPlayRow sel order = some s' ∧ Intact s' ∧ ∀ i t, t ∈ s.head i → t ∈ s'.head i := by
  obtain ⟨hsel, hsome, horder⟩ := hlegal
  unfold Playlists.plPlayRow
  split
  · rename_i hcond
    have hne : s.head s.visible ≠ [] := by
      intro hnil
      have hempty : s.plEmpty s.visible = true := List.isEmpty_iff.mpr hnil
      simp [hempty] at hcond
    obtain ⟨root, t, hfirst, h₂, ht⟩ := shuffleFirst_intact h h.wellFormed.visible hne horder
    simp only [hfirst]
    refine ⟨_, rfl, plPlayTrack_intact h₂.wellFormed h₂.wellFormed.visible ht true, fun i u hu => ?_⟩
    show u ∈ ((Playlists.plPlayTrack _ _ _ _).playlist i).editable.head
    rw [plPlayTrack_playlist]
    refine (head_set_keep s (fun _ => ?_) i u).mpr hu
    exact Iff.rfl
  · obtain ⟨s', hrun, h', hlists⟩ := plPlaySelectedTrack_intact h hsel hsome
    refine ⟨s', hrun, h', fun i t ht => ?_⟩
    show t ∈ (s'.playlist i).editable.head
    rwa [hlists]

theorem plPlaySelectedRow_intact (h : Intact s) {sel : Option P} {order : List P}
    (hlegal : (Op.playSelectedRow sel order).Legal s) :
    ∃ s', s.plPlaySelectedRow sel order = some s' ∧ Intact s' := by
  obtain ⟨s₁, hrun, h₁, hkeep⟩ := plPlayRow_intact h hlegal
  unfold Playlists.plPlaySelectedRow
  rw [hrun]
  refine ⟨_, rfl, Intact.withCursor ?_ _⟩
  split
  · rename_i hcond
    split
    · rename_i pl prev cur hpl hprev hcur
      refine shuffleInsert_intact h₁ hpl ?_ ?_
      · obtain ⟨pl', hpl', hin⟩ := h₁.inList cur hcur
        obtain rfl := Option.some.inj (hpl.symm.trans hpl')
        exact hin
      · intro p h
        cases h
        obtain ⟨pl', hpl', hin⟩ := h.inList prev hprev
        obtain rfl := Option.some.inj (hpl.symm.trans (hcond.2.2.trans hpl'))
        exact hkeep _ _ hin
    · exact h₁
  · exact h₁

theorem plReshuffle_intact (h : Intact s) {order : List P}
    (horder : ∀ pl ∈ s.playing, order.Perm (s.playlist pl).shuffleRoot) :
    Intact (s.plReshuffle order) := by
  unfold Playlists.plReshuffle
  cases hpl : s.playing with
  | none => exact h
  | some pl =>
    have hplHead := h.wellFormed.playing pl hpl
    have hsound := h.wellFormed.soundOf hplHead
    have hperm := horder pl hpl
    simp only
    refine h.setRoot hplHead ?_
    cases htrack : s.playingTrack with
    | none => exact hperm
    | some t =>
      obtain ⟨pl', hpl', ht⟩ := h.inList t htrack
      obtain rfl := Option.some.inj (hpl.symm.trans hpl')
      refine (shuffleInsert_perm ?_ ?_ nofun).trans hperm
      · exact (hperm.trans hsound.shuffle).nodup_iff.mpr hsound.linked.nodup
      · exact (hperm.trans hsound.shuffle).mem_iff.mpr ht

/-! ### Adding and removing -/

variable (mem : Memory P)

/-- A list that takes a track keeps those it has. -/
theorem plAddTrack_mono (h : Intact s) {id : Nat} (hid : id ∈ s.plHead ++ s.deleted)
    (ti : TrackInfo) (place : Nat) {pl : Nat} {t : P} (ht : t ∈ s.head pl) :
    t ∈ (s.plAddTrack mem id ti place).head pl := by
  have hfresh : mem.malloc s.live ∉ s.head id := fun hmem =>
    mem.malloc_fresh _ (List.mem_flatMap.mpr ⟨id, hid, hmem⟩)
  obtain ⟨-, hperm⟩ := (h.wellFormed.sound id hid).addTrack mem hfresh ti place
  unfold Playlists.plAddTrack
  by_cases heq : pl = id
  · subst heq
    rw [head_set_self]
    exact hperm.mem_iff.mpr (List.mem_cons_of_mem _ ht)
  · rwa [head_set_of_ne _ heq]

theorem plAddTrack_intact (h : Intact s) {id : Nat} (hid : id ∈ s.plHead ++ s.deleted)
    (ti : TrackInfo) (place : Nat) : Intact (s.plAddTrack mem id ti place) := by
  have hfresh : mem.malloc s.live ∉ s.head id := fun hmem =>
    mem.malloc_fresh _ (List.mem_flatMap.mpr ⟨id, hid, hmem⟩)
  obtain ⟨hsound, -⟩ := (h.wellFormed.sound id hid).addTrack mem hfresh ti place
  refine ⟨h.wellFormed.set hsound, h.inList.of_mono rfl rfl fun pl _ t ht => ?_⟩
  exact plAddTrack_mono mem h hid ti place ht

theorem plClearVisiblePl_intact (h : Intact s) :
    ∃ s', s.plClearVisiblePl mem = some s' ∧ Intact s' := by
  unfold Playlists.plClearVisiblePl
  have h₁ : Intact (if s.cursorInTrackWindow then s.plWinNext else s) := by
    split
    · exact plWinNext_intact h
    · exact h
  generalize (if s.cursorInTrackWindow then s.plWinNext else s) = s₁ at h₁
  dsimp only
  obtain ⟨pl, hrun, hsound, -⟩ := (h₁.wellFormed.soundOf h₁.wellFormed.visible).clear mem
  by_cases hplaying : s₁.playing = some s₁.visible
  · rw [if_pos hplaying]
    refine ⟨_, by rw [show Playlist.clear mem _ = some pl from hrun]; rfl, Intact.set ?_ ?_ ?_ hsound⟩
    · exact ⟨h₁.wellFormed.sound, h₁.wellFormed.nodup, h₁.wellFormed.visible, h₁.wellFormed.playing⟩
    · exact fun _ => rfl
    · exact nofun
  · rw [if_neg hplaying, hrun]
    exact ⟨_, rfl, Intact.set h₁.wellFormed (fun hp => absurd hp hplaying) h₁.inList hsound⟩

theorem plDeleteSelectedTrack_spec (h : Intact s) {sel : Option P}
    (hsel : ∀ t ∈ sel, t ∈ s.head s.visible) :
    ∃ s', s.plDeleteSelectedTrack mem sel = some s' ∧ WellFormed s' ∧
      (PlayingInList s' ↔ (s.playing = some s.visible → ∀ t, s.playingTrack = some t →
        (s.playlist s.visible).editable.nrMarked ≠ 0 →
        (s.playlist s.visible).editable.marked t = true → sel = some t)) := by
  obtain ⟨pl, hrun, hsound, hmem⟩ := (h.wellFormed.soundOf h.wellFormed.visible).removeSel mem hsel
  -- the state after the removal, before the cursor leaves an empty list
  have hcursor : ∀ s₁ : Playlists P, WellFormed s₁ →
      WellFormed (if s₁.plEmpty s₁.visible then s₁.plWinNext else s₁) ∧
      (PlayingInList (if s₁.plEmpty s₁.visible then s₁.plWinNext else s₁) ↔ PlayingInList s₁) := by
    intro s₁ h₁
    split
    · exact ⟨⟨h₁.sound, h₁.nodup, h₁.visible, h₁.playing⟩, Iff.rfl⟩
    · exact ⟨h₁, Iff.rfl⟩
  unfold Playlists.plDeleteSelectedTrack
  by_cases hplaying : sel = s.playingTrack
  · simp only [if_pos hplaying]
    have h₁ : WellFormed {s with playingTrack := none} :=
      ⟨h.wellFormed.sound, h.wellFormed.nodup, h.wellFormed.visible, h.wellFormed.playing⟩
    obtain ⟨hwf, hiff⟩ := hcursor _ (h₁.set hsound)
    refine ⟨_, by rw [hrun]; rfl, hwf, hiff.trans (iff_of_true nofun fun _ t ht _ _ => ?_)⟩
    exact hplaying.trans ht
  · simp only [if_neg hplaying]
    obtain ⟨hwf, hiff⟩ := hcursor _ (h.wellFormed.set hsound)
    refine ⟨_, by rw [hrun]; rfl, hwf, hiff.trans ⟨fun hin hp t ht hmarked hmark => ?_,
      fun hspare t ht => ?_⟩⟩
    · obtain ⟨p, hp', htin⟩ := hin t ht
      obtain rfl := Option.some.inj (hp.symm.trans hp')
      rw [head_set_self, hmem] at htin
      refine absurd ?_ htin.2
      rw [Sound.Taken, if_pos hmarked]
      exact hmark
    · obtain ⟨p, hp, htin⟩ := h.inList t ht
      refine ⟨p, hp, ?_⟩
      by_cases hvisible : p = s.visible
      · subst hvisible
        rw [head_set_self, hmem]
        refine ⟨htin, fun htaken => ?_⟩
        unfold Sound.Taken at htaken
        split at htaken
        · rename_i hmarked
          exact hplaying ((hspare hp t ht hmarked htaken).trans ht.symm)
        · exact hplaying (htaken.trans ht.symm)
      · rwa [head_set_of_ne _ hvisible]

omit [DecidableEq P] in
theorem plDeleteSelectedPl_intact (h : Intact s) (answer : Bool) :
    Intact (s.plDeleteSelectedPl answer) := by
  have hnodup := h.wellFormed.nodup
  unfold Playlists.plDeleteSelectedPl
  split
  · exact h
  · rename_i next hnext
    split
    · have hperm : (s.plHead.erase s.visible ++ s.visible :: s.deleted).Perm
          (s.plHead ++ s.deleted) :=
        List.perm_middle.trans
          ((List.perm_cons_erase h.wellFormed.visible).symm.append_right s.deleted)
      have hsound : ∀ id ∈ s.plHead.erase s.visible ++ s.visible :: s.deleted,
          Sound (s.playlist id) := fun id hid => h.wellFormed.sound id (hperm.mem_iff.mp hid)
      have hvisible : next ∈ s.plHead.erase s.visible :=
        Sequence.mem_of_neighbour (List.nodup_append.mp hnodup).1 h.wellFormed.visible hnext
      -- the playing playlist is the deleted one, or it stays
      have hgone : ∀ s₁ : Playlists P, s₁.plHead = s.plHead.erase s.visible →
          s₁.deleted = s.visible :: s.deleted → s₁.playlist = s.playlist → s₁.visible = next →
          s₁.playing = s.playing → s₁.playingTrack = s.playingTrack →
          Intact (if s₁.playing = some s.visible then
            {s₁ with playing := none, playingTrack := none} else s₁) := by
        rintro ⟨_, _, _, _, _, _, _, _, _⟩ rfl rfl rfl rfl rfl rfl
        split
        · exact ⟨⟨hsound, hperm.nodup_iff.mpr hnodup, hvisible, nofun⟩, nofun⟩
        · rename_i hplaying
          refine ⟨⟨hsound, hperm.nodup_iff.mpr hnodup, hvisible, fun pl hpl => ?_⟩, h.inList⟩
          refine (List.mem_erase_of_ne ?_).mpr (h.wellFormed.playing pl hpl)
          intro heq
          subst heq
          exact hplaying hpl
      apply hgone <;> split <;> rfl
    · exact h

theorem plFree_intact (h : Intact s) {id : Nat} (hid : id ∈ s.deleted) :
    ∃ s', s.plFree mem id = some s' ∧ Intact s' := by
  obtain ⟨pl, hrun, hsound, -⟩ :=
    (h.wellFormed.sound id (List.mem_append_right _ hid)).clear mem
  have hsub : (s.plHead ++ s.deleted.erase id).Sublist (s.plHead ++ s.deleted) :=
    List.erase_sublist.append_left _
  have h₁ : WellFormed (s.set id pl) := h.wellFormed.set hsound
  refine ⟨{s.set id pl with deleted := s.deleted.erase id}, by rw [Playlists.plFree, hrun]; rfl,
    ⟨fun i hi => h₁.sound i (hsub.subset hi), h.wellFormed.nodup.sublist hsub, h₁.visible,
      h₁.playing⟩, fun t ht => ?_⟩
  obtain ⟨p, hp, hin⟩ := h.inList t ht
  have hne : p ≠ id := fun heq =>
    (List.nodup_append.mp h.wellFormed.nodup).2.2 p (h.wellFormed.playing p hp) id hid heq
  exact ⟨p, hp, by rwa [← head_set_of_ne s hne pl] at hin⟩

/-- The walk of `pl_update_track`. -/
theorem plUpdateTrack_spec (h : WellFormed s) (old : TrackInfo) (new : Option TrackInfo) :
    ∃ s', s.plUpdateTrack mem old new = some s' ∧ WellFormed s' ∧ s'.playing = s.playing ∧
      s'.playingTrack = s.playingTrack ∧
      ∀ id ∈ s.plHead, ∀ t, t ∈ s'.head id ↔
        t ∈ s.head id ∧ ¬ (new = none ∧ (s.playlist id).editable.info t = old) := by
  suffices hwalk : ∀ (l : List Nat) (s : Playlists P), WellFormed s → l.Nodup → l ⊆ s.plHead →
      ∃ s', l.foldlM (fun s id => ((s.playlist id).updateTrack mem old new).map (s.set id)) s
          = some s' ∧ WellFormed s' ∧ s'.playing = s.playing ∧ s'.playingTrack = s.playingTrack ∧
        (∀ id ∉ l, s'.playlist id = s.playlist id) ∧
        ∀ id ∈ l, ∀ t, t ∈ s'.head id ↔
          t ∈ s.head id ∧ ¬ (new = none ∧ (s.playlist id).editable.info t = old) by
    obtain ⟨s', hrun, h', hplaying, htrack, -, hmem⟩ :=
      hwalk s.plHead s h (List.nodup_append.mp h.nodup).1 (List.Subset.refl _)
    exact ⟨s', hrun, h', hplaying, htrack, hmem⟩
  intro l
  induction l with
  | nil => exact fun s h _ _ => ⟨s, rfl, h, rfl, rfl, fun _ _ => rfl, nofun⟩
  | cons id l ih =>
    intro s h hnodup hsub
    obtain ⟨hid, hnodup⟩ := List.nodup_cons.mp hnodup
    obtain ⟨pl, hpl, hsound, hmem⟩ := (h.soundOf (hsub (.head _))).updateTrack mem old new
    obtain ⟨s', hrun, h', hplaying, htrack, hothers, hlists⟩ :=
      ih (s.set id pl) (h.set hsound) hnodup fun i hi => hsub (.tail _ hi)
    have hset : ∀ i, i ≠ id → (s.set id pl).playlist i = s.playlist i := fun i hi =>
      Function.update_of_ne hi _ _
    refine ⟨s', by rw [List.foldlM_cons, hpl]; exact hrun, h', hplaying, htrack,
      fun i hi => ?_, fun i hi t => ?_⟩
    · obtain ⟨hne, hi⟩ := not_or.mp (mt List.mem_cons.mpr hi)
      rw [hothers i hi, hset i hne]
    · rcases List.mem_cons.mp hi with rfl | hil
      · rw [Playlists.head, hothers i hid]
        show t ∈ (s.set i pl).head i ↔ _
        rw [head_set_self, hmem]
      · have hne : i ≠ id := by
          intro heq
          subst heq
          exact hid hil
        rw [hlists i hil, head_set_of_ne _ hne, hset i hne]

omit [DecidableEq P] in
theorem plCreate_intact (h : Intact s) {id : Nat} (hid : id ∉ s.plHead ++ s.deleted)
    (clear marked : P → Bool) (info : P → TrackInfo) :
    Intact (s.plCreate id clear marked info) := by
  have hsound : Sound (P := P) ⟨.init clear marked info
      (s.playlist s.visible).editable.sortKeys, []⟩ := ⟨.init .., .refl _⟩
  have hperm : ((s.plHead ++ [id]) ++ s.deleted).Perm (id :: (s.plHead ++ s.deleted)) := by
    rw [List.append_assoc]
    exact List.perm_middle
  refine ⟨⟨fun i hi => ?_, hperm.nodup_iff.mpr (List.nodup_cons.mpr ⟨hid, h.wellFormed.nodup⟩),
    List.mem_append_left _ h.wellFormed.visible,
    fun p hp => List.mem_append_left _ (h.wellFormed.playing p hp)⟩, fun t ht => ?_⟩
  · show Sound (Function.update s.playlist id _ i)
    rcases List.mem_cons.mp (hperm.mem_iff.mp hi) with rfl | hold
    · rwa [Function.update_self]
    · have hne : i ≠ id := by
        intro heq
        subst heq
        exact hid hold
      rw [Function.update_of_ne hne]
      exact h.wellFormed.sound i hold
  · obtain ⟨p, hp, hin⟩ := h.inList t ht
    have hne : p ≠ id := by
      intro heq
      subst heq
      exact hid (List.mem_append_left _ (h.wellFormed.playing p hp))
    exact ⟨p, hp, by rwa [← head_set_of_ne s hne] at hin⟩

omit [DecidableEq P] in
/-- A change of marks. -/
theorem onMarks_intact (h : Intact s) {f : Editable P → Editable P}
    (hsame : ∀ e, (f e).index = e.index ∧ (f e).nrTracks = e.nrTracks ∧
      (f e).sortKeys = e.sortKeys) : Intact (s.onMarks f) := by
  unfold Playlists.onMarks
  split
  · have hsound := h.wellFormed.soundOf h.wellFormed.visible
    have hhead : (f (s.playlist s.visible).editable).head = s.head s.visible := by
      rw [Editable.head, (hsame _).1]
    have hpl : Sound {s.playlist s.visible with editable := f (s.playlist s.visible).editable} :=
      ⟨hsound.linked.congr (hsame _).1 (hsame _).2.1 (hsame _).2.2, by
        show (s.playlist s.visible).shuffleRoot.Perm (f (s.playlist s.visible).editable).head
        rw [hhead]
        exact hsound.shuffle⟩
    refine ⟨h.wellFormed.set hpl, h.inList.of_mono rfl rfl fun pl _ t ht => ?_⟩
    refine (head_set_keep s (fun u => ?_) pl t).mpr ht
    show u ∈ (f (s.playlist s.visible).editable).head ↔ _
    rw [hhead]
  · exact h

/-! ### Steps and runs -/

theorem foldl_setMark_index (mark : Editable P → P → Bool) (l : List P) (e : Editable P) :
    (l.foldl (fun e t => e.setMark t (mark e t)) e).index = e.index ∧
      (l.foldl (fun e t => e.setMark t (mark e t)) e).nrTracks = e.nrTracks ∧
      (l.foldl (fun e t => e.setMark t (mark e t)) e).sortKeys = e.sortKeys := by
  induction l generalizing e with
  | nil => exact ⟨rfl, rfl, rfl⟩
  | cons t l ih => exact ih _

theorem step_intact (h : Intact s) {op : Op P} (hlegal : op.Legal s) :
    ∃ s', step mem s op = some s' ∧ WellFormed s' ∧ (PlayingInList s' ↔ op.SparesPlaying s) := by
  have hkeeps : ∀ {s' : Playlists P}, Intact s' → ∃ t, some s' = some t ∧ WellFormed t ∧
      (PlayingInList t ↔ True) := fun h' => ⟨_, rfl, h'.wellFormed, iff_of_true h'.inList trivial⟩
  have hruns : ∀ {o : Option (Playlists P)}, (∃ s', o = some s' ∧ Intact s') →
      ∃ t, o = some t ∧ WellFormed t ∧ (PlayingInList t ↔ True) := fun ⟨s', hs', h'⟩ =>
    ⟨s', hs', h'.wellFormed, iff_of_true h'.inList trivial⟩
  cases op with
  | playSelectedRow sel order => exact hruns (plPlaySelectedRow_intact h hlegal)
  | goto forward order => exact hruns (plGotoGeneric_intact h forward hlegal)
  | reshuffle order => exact hkeeps (plReshuffle_intact h hlegal)
  | addTrack id ti place => exact hkeeps (plAddTrack_intact mem h hlegal ti place)
  | clear =>
    refine hruns ?_
    show ∃ s', s.plClear mem = some s' ∧ _
    unfold Playlists.plClear
    split
    · exact plClearVisiblePl_intact mem h
    · exact ⟨s, rfl, h⟩
  | reload answer =>
    refine hruns ?_
    simp only [step]
    split
    · exact plClearVisiblePl_intact mem h
    · exact ⟨s, rfl, h⟩
  | winRemove sel answer =>
    simp only [step, Playlists.plWinRemove, Op.SparesPlaying]
    by_cases hcursor : s.cursorInTrackWindow = true
    · simp only [hcursor, true_implies]
      exact plDeleteSelectedTrack_spec mem h hlegal
    · have h' := plDeleteSelectedPl_intact h answer
      rw [if_neg hcursor]
      exact ⟨_, rfl, h'.wellFormed, iff_of_true h'.inList fun hc => absurd hc hcursor⟩
  | freePlaylist id => exact hruns (plFree_intact mem h hlegal)
  | updateTrack old new =>
    obtain ⟨s', hrun, h', hplaying, htrack, hmem⟩ := plUpdateTrack_spec mem h.wellFormed old new
    refine ⟨s', hrun, h', ?_⟩
    cases new with
    | some new =>
      refine iff_of_true (h.inList.of_mono htrack hplaying fun pl hpl t ht => ?_) trivial
      exact (hmem pl (h.wellFormed.playing pl hpl) t).mpr ⟨ht, nofun⟩
    | none =>
      constructor
      · intro hin pl hpl t ht hinfo
        obtain ⟨p, hp, htin⟩ := hin t (htrack.trans ht)
        obtain rfl := Option.some.inj (hpl.symm.trans (hplaying.symm.trans hp))
        exact ((hmem pl (h.wellFormed.playing pl hpl) t).mp htin).2 ⟨rfl, hinfo⟩
      · intro hspares t ht
        obtain ⟨pl, hpl, htin⟩ := h.inList t (htrack.symm.trans ht)
        refine ⟨pl, hplaying.trans hpl, (hmem pl (h.wellFormed.playing pl hpl) t).mpr ⟨htin, ?_⟩⟩
        exact fun hgone => hspares pl hpl t (htrack.symm.trans ht) hgone.2
  | create id clear marked info => exact hkeeps (plCreate_intact h hlegal clear marked info)
  | select id =>
    exact hkeeps ⟨⟨h.wellFormed.sound, h.wellFormed.nodup, hlegal, h.wellFormed.playing⟩, h.inList⟩
  | markPlaylist id =>
    exact hkeeps ⟨⟨h.wellFormed.sound, h.wellFormed.nodup, h.wellFormed.visible,
      h.wellFormed.playing⟩, h.inList⟩
  | winNext => exact hkeeps (plWinNext_intact h)
  | toggleMark sel =>
    refine hkeeps (onMarks_intact h fun e => ?_)
    cases sel <;> exact ⟨rfl, rfl, rfl⟩
  | invertMarks =>
    exact hkeeps (onMarks_intact h fun e => foldl_setMark_index _ _ e)
  | unmark =>
    exact hkeeps (onMarks_intact h fun e => foldl_setMark_index _ _ e)
  | setOptions options =>
    exact hkeeps ⟨⟨h.wellFormed.sound, h.wellFormed.nodup, h.wellFormed.visible,
      h.wellFormed.playing⟩, h.inList⟩

/-- **The playing track is in the playing playlist** throughout a run, exactly when each
removal of the selection and each update spares it. -/
theorem pl_playing_track_in_list (mem : Memory P) (ids : List Nat) (hids : ids.Nodup) (first : Nat)
    (hfirst : first ∈ ids) (clear marked : P → Bool) (info : P → TrackInfo) (keys : List SortKey)
    (options : Options) (ops : List (Op P))
    (hlegal : Runs.Along (step mem) (fun s op => op.Legal s)
      (initial ids first clear marked info keys options) ops) :
    Runs.Always (step mem) PlayingInList (initial ids first clear marked info keys options) ops ↔
      Runs.Along (step mem) (fun s op => op.SparesPlaying s)
        (initial ids first clear marked info keys options) ops := by
  refine Runs.always_iff_along (fun s op (h : WellFormed s) hin hop => ?_) _ ops
    ⟨fun id _ => ⟨.init .., .refl _⟩, ?_, hfirst, nofun⟩ nofun hlegal
  · exact step_intact mem ⟨h, hin⟩ hop
  · show (ids ++ []).Nodup
    rwa [List.append_nil]

/-- One empty playlist, and no options. -/
def newPlaylists : Playlists Nat :=
  initial [0] 0 (fun _ => false) (fun _ => false) (fun _ => { uid := 0, filename := [] }) []
    ⟨false, false, false, false⟩

/-- Two tracks, of which the first is played. -/
def playFirst : List (Op Nat) :=
  [.addTrack 0 { uid := 1, filename := ascii "a" } 0,
    .addTrack 0 { uid := 2, filename := ascii "b" } 1, .winNext, .playSelectedRow (some 1) [1, 2]]

theorem pl_playing_track_in_list_removed :
    Runs.Always (step plainMemory) PlayingInList newPlaylists
      (playFirst ++ [.winRemove (some 1) false, .goto true [2], .clear]) :=
  (pl_playing_track_in_list plainMemory [0] (List.nodup_singleton 0) 0 (.head _) _ _ _ _ _ _
    (by decide +kernel)).mpr (by decide +kernel)

/-- A legal history that frees the first track while it is the playing track, so that the
next change of songs follows the pointer. -/
def FreesPlayingTrack (ops : List (Op Nat)) : Prop :=
  Runs.Along (step plainMemory) (fun s op => op.Legal s) newPlaylists ops ∧
    ¬ Runs.Always (step plainMemory) PlayingInList newPlaylists ops ∧
    ∃ s, Runs.run (step plainMemory) newPlaylists ops = some s ∧ s.playingTrack = some 1 ∧
      s.playing = some 0 ∧ 1 ∉ s.head 0 ∧
      step plainMemory s (.goto true (s.playlist 0).shuffleRoot) = none

theorem freesPlayingTrack_of_run {ops : List (Op Nat)}
    (hlegal : Runs.Along (step plainMemory) (fun s op => op.Legal s) newPlaylists ops)
    (hrun : (Runs.run (step plainMemory) newPlaylists ops).any (fun s =>
      decide (s.playingTrack = some 1 ∧ s.playing = some 0 ∧ 1 ∉ s.head 0) &&
        (step plainMemory s (.goto true (s.playlist 0).shuffleRoot)).isNone) = true) :
    FreesPlayingTrack ops := by
  obtain ⟨s, hs, hfacts⟩ := (Option.any_eq_true _ _).mp hrun
  rw [Bool.and_eq_true, decide_eq_true_eq, Option.isNone_iff_eq_none] at hfacts
  obtain ⟨⟨htrack, hplaying, hgone⟩, hgoto⟩ := hfacts
  refine ⟨hlegal, fun halways => ?_, s, hs, htrack, hplaying, hgone, hgoto⟩
  obtain ⟨pl, hpl, hin⟩ := halways.run hs 1 htrack
  obtain rfl := Option.some.inj (hplaying.symm.trans hpl)
  exact hgone hin

/-- The playing track is marked and another one selected when the marked ones are
removed, or its file is found dead. -/
theorem playing_track_freed :
    FreesPlayingTrack (playFirst ++ [.toggleMark (some 1), .winRemove (some 2) false]) ∧
      FreesPlayingTrack
        (playFirst ++ [.updateTrack { uid := 1, filename := ascii "a" } none]) := by
  constructor
  · exact freesPlayingTrack_of_run (by decide +kernel) (by decide +kernel)
  · exact freesPlayingTrack_of_run (by decide +kernel) (by decide +kernel)

end GracefulMusic.Pl
