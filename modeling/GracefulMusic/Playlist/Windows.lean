import GracefulMusic.Playlist.Settled

/-! What the playlist view shows is what its commands work on.

As long as the selected row, the owner of the window of the tracks and the visible
playlist are one, the view is determined by its playlists (`View.of`), and each operation
runs in the view as it does on them (`step_of`). -/
namespace GracefulMusic.Pl
open Tracks

variable {P : Type} {s s' : Playlists P}

/-- The view that shows the visible playlist in both windows. -/
def View.of (s : Playlists P) : View P := ⟨s, s.visible, s.visible⟩

/-! ### Both windows follow -/

namespace View

theorem setListSel_of (s : Playlists P) (id : Nat) : (of s).setListSel id = of (s.select id) := by
  unfold setListSel
  split
  · rename_i heq
    obtain rfl : s.visible = id := heq
    rfl
  · rfl

theorem listRowVanishes_of (s : Playlists P) (next : Nat) :
    (of s).listRowVanishes s.visible next = of (s.select next) := if_pos rfl

/-- Taking ownership first or last comes to the same. -/
theorem plSelectPlayingTrack_of (s : Playlists P) :
    (of s).plSelectPlayingTrack = of s.plSelectPlayingTrack := by
  unfold plSelectPlayingTrack Playlists.plSelectPlayingTrack
  dsimp only [of]
  cases s.playingTrack with
  | none => rfl
  | some t =>
    cases s.playing with
    | none => rfl
    | some pl =>
      show (((of s).takeOwnership pl).setListSel pl).setCursor true = _
      unfold setListSel
      split
      · rename_i heq
        obtain rfl : s.visible = pl := heq
        rfl
      · rfl

theorem plPlayTrack_of (s : Playlists P) (pl : Nat) (t : P) (forceFollow : Bool) :
    (of s).plPlayTrack pl t forceFollow = of (s.plPlayTrack pl t forceFollow) := by
  unfold plPlayTrack Playlists.plPlayTrack
  dsimp only
  split
  · rename_i hfollow
    exact (plSelectPlayingTrack_of _).trans (congrArg of (if_pos hfollow).symm)
  · rename_i hfollow
    exact congrArg of (if_neg hfollow).symm

theorem plPlaySelectedTrack_of (s : Playlists P) (sel : Option P) :
    (of s).plPlaySelectedTrack sel = (s.plPlaySelectedTrack sel).map of := by
  unfold plPlaySelectedTrack Playlists.plPlaySelectedTrack
  by_cases hempty : s.plEmpty s.visible = true
  · rw [if_pos hempty]
    exact if_pos hempty
  · rw [if_neg hempty, Option.map_map]
    refine (if_neg hempty).trans (congrArg (Option.map · sel) ?_)
    funext t
    exact plPlayTrack_of s s.visible t false

variable [DecidableEq P]

omit [DecidableEq P] in
/-- Other playlists under the same windows. -/
theorem of_with {s₁ : Playlists P} (h : s₁.visible = s.visible) :
    ({of s with lists := s₁} : View P) = of s₁ := by
  rw [of, of, h]

omit [DecidableEq P] in
theorem plPlayTrack_with {s₁ : Playlists P} (h : s₁.visible = s.visible) (pl : Nat) (t : P)
    (forceFollow : Bool) :
    ({of s with lists := s₁} : View P).plPlayTrack pl t forceFollow =
      of (s₁.plPlayTrack pl t forceFollow) := by
  rw [of_with h, plPlayTrack_of]

theorem plPlayFirstInPlPlaying_of (s : Playlists P) (order : List P) :
    (of s).plPlayFirstInPlPlaying order = (s.plPlayFirstInPlPlaying order).map of := by
  unfold plPlayFirstInPlPlaying Playlists.plPlayFirstInPlPlaying
  by_cases hempty : s.plEmpty (s.playing.getD s.visible) = true
  · simp only [if_pos hempty]
    exact if_pos hempty
  · simp only [if_neg hempty]
    refine (if_neg hempty).trans ?_
    have hvisible : ∀ (s : Playlists P) (pl : Nat),
        (s.plGetFirstTrack pl order).1.visible = s.visible := by
      intro s pl
      unfold Playlists.plGetFirstTrack
      split <;> rfl
    have hfirst := hvisible {s with playing := some (s.playing.getD s.visible)}
      (s.playing.getD s.visible)
    dsimp only [of]
    revert hfirst
    cases Playlists.plGetFirstTrack (P := P) _ _ order with
    | mk lists track =>
      intro hfirst
      cases track with
      | none => rfl
      | some t => exact congrArg some (plPlayTrack_with hfirst ..)

theorem plGotoGeneric_of (s : Playlists P) (forward : Bool) (order : List P) :
    (of s).plGotoGeneric forward order = (s.plGotoGeneric forward order).map of := by
  unfold plGotoGeneric Playlists.plGotoGeneric
  dsimp only [of]
  cases s.playingTrack with
  | none => exact plPlayFirstInPlPlaying_of s order
  | some cur =>
    cases s.playing with
    | none => rfl
    | some pl =>
      by_cases hcur : cur ∈ s.head pl
      · simp only [if_pos hcur]
        refine (if_pos hcur).trans ?_
        have hmove : (s.plGetMove forward pl cur order).1.visible = s.visible := by
          unfold Playlists.plGetMove
          split
          · rfl
          · split <;> rfl
        revert hmove
        cases s.plGetMove forward pl cur order with
        | mk lists track =>
          intro hmove
          cases track with
          | none => exact congrArg some (of_with hmove)
          | some t => exact congrArg some (plPlayTrack_with hmove ..)
      · simp only [if_neg hcur]
        exact if_neg hcur

theorem plPlayRow_of (s : Playlists P) (sel : Option P) (order : List P) :
    (of s).plPlayRow sel order = (s.plPlayRow sel order).map of := by
  unfold plPlayRow Playlists.plPlayRow
  by_cases hrow : (!s.cursorInTrackWindow && s.options.shuffle && !s.plEmpty s.visible) = true
  · simp only [if_pos hrow]
    refine (if_pos hrow).trans ?_
    dsimp only [of]
    cases shuffleListGetNext s.options order (s.playlist s.visible).shuffleRoot none with
    | mk root track =>
      cases track with
      | none => rfl
      | some t =>
        have hset : (s.set s.visible ⟨(s.playlist s.visible).editable, root⟩).visible = s.visible := rfl
        exact congrArg some (plPlayTrack_with hset ..)
  · simp only [if_neg hrow]
    exact (if_neg hrow).trans (plPlaySelectedTrack_of s sel)

theorem plPlaySelectedRow_of (s : Playlists P) (sel : Option P) (order : List P) :
    (of s).plPlaySelectedRow sel order = (s.plPlaySelectedRow sel order).map of := by
  unfold plPlaySelectedRow Playlists.plPlaySelectedRow
  rw [plPlayRow_of]
  show ((s.plPlayRow sel order).map of).map _ = _
  rw [Option.map_map, Option.map_map]
  refine congrArg (Option.map · (s.plPlayRow sel order)) ?_
  funext s₁
  have hset : ∀ s₂ : Playlists P, s₂.visible = s₁.visible →
      ({of s₁ with lists := s₂} : View P).setCursor s.cursorInTrackWindow =
        of {s₂ with cursorInTrackWindow := s.cursorInTrackWindow} := by
    intro s₂ h
    rw [of_with h]
    rfl
  refine hset _ ?_
  split
  · split <;> rfl
  · rfl

omit [DecidableEq P] in
theorem plDeleteSelectedPl_of (s : Playlists P) (answer : Bool) :
    (of s).plDeleteSelectedPl answer = of (s.plDeleteSelectedPl answer) := by
  unfold plDeleteSelectedPl Playlists.plDeleteSelectedPl
  simp only [show (of s).lists = s from rfl, listRowVanishes_of]
  cases (Sequence.after s.plHead s.visible).or (Sequence.before s.plHead s.visible).getLast? with
  | none => rfl
  | some next =>
    cases answer with
    | false => rfl
    | true =>
      simp only [↓reduceIte, show ∀ s : Playlists P, (of s).lists = s from fun _ => rfl]
      rw [of, of]
      split <;> split <;> rfl

variable (mem : Memory P)

/-- The view refines its playlists: each operation on them runs in both alike. -/
theorem step_of (s : Playlists P) (op : Op P) :
    View.step mem (.of s) (.lists op) = (Pl.step mem s op).map .of := by
  have hstays : ¬ op.Switches →
      (Pl.step mem s op).map (fun lists => ({of s with lists} : View P)) =
        (Pl.step mem s op).map .of := fun hop =>
    Option.map_congr fun s₁ hrun => of_with (step_visible mem hrun hop)
  cases op with
  | playSelectedRow sel order => exact plPlaySelectedRow_of s sel order
  | goto forward order => exact plGotoGeneric_of s forward order
  | select id => exact congrArg some (setListSel_of s id)
  | winRemove sel answer =>
    show (of s).plWinRemove mem sel answer = (s.plWinRemove mem sel answer).map .of
    unfold plWinRemove Playlists.plWinRemove
    by_cases hcursor : s.cursorInTrackWindow = true
    · rw [if_pos hcursor]
      refine (if_pos hcursor).trans (Option.map_congr fun s₁ hrun => ?_)
      exact of_with (plDeleteSelectedTrack_frame mem hrun).1.visible
    · rw [if_neg hcursor]
      exact (if_neg hcursor).trans (congrArg some (plDeleteSelectedPl_of s answer))
  | _ => exact hstays not_false

end View

/-! ### Runs -/

variable [DecidableEq P] (mem : Memory P)

/-- What frees single tracks spares the playing one and leaves one under the cursor. -/
def ViewOp.Sound (v : View P) : ViewOp P → Prop
  | .lists op => op.SparesPlaying v.lists ∧ op.LeavesTrack v.lists
  | _ => True

instance (v : View P) (op : ViewOp P) : Decidable (op.Sound v) := by
  apply ViewOp.casesOn (motive := fun op => Decidable (op.Sound v)) op
  case lists =>
    intro op
    show Decidable (op.SparesPlaying v.lists ∧ op.LeavesTrack v.lists)
    infer_instance
  all_goals
    intros
    exact isTrue trivial

/-- What the commands of the view rely on. -/
structure View.Shown (v : View P) : Prop where
  marked : v.lists.marked ∈ v.lists.plHead
  visible : v.lists.visible ∈ v.lists.plHead
  row : v.listSel = v.lists.visible
  owner : v.owner = v.lists.visible
  cursor : v.lists.cursorInTrackWindow = true → v.lists.head v.lists.visible ≠ []

/-- The invariant as a whole. -/
structure View.Intact (v : View P) : Prop where
  follows : v = .of v.lists
  lists : Pl.Intact v.lists
  settled : Settled v.lists

namespace View

omit [DecidableEq P] in
theorem Intact.of (h : Pl.Intact s) (hs : Settled s) : View.Intact (.of s) := ⟨rfl, h, hs⟩

omit [DecidableEq P] in
theorem Intact.shown {v : View P} (h : v.Intact) : v.Shown where
  marked := h.settled.marked
  visible := h.lists.wellFormed.visible
  row := congrArg View.listSel h.follows
  owner := congrArg View.owner h.follows
  cursor := h.settled.cursor

omit [DecidableEq P] in
/-- Following the playing track shows a playlist that has it. -/
theorem plSelectPlayingTrack_intact (h : Pl.Intact s) (hs : Settled s) :
    (of s).plSelectPlayingTrack.Intact := by
  rw [plSelectPlayingTrack_of]
  unfold Playlists.plSelectPlayingTrack
  split
  · rename_i t pl htrack hpl
    obtain ⟨p, hp, ht⟩ := h.inList t htrack
    obtain rfl : pl = p := Option.some.inj (hpl.symm.trans hp)
    have hshown : WellFormed {s.select pl with cursorInTrackWindow := true} :=
      ⟨h.wellFormed.sound, h.wellFormed.nodup, h.wellFormed.playing pl hpl, h.wellFormed.playing⟩
    exact .of ⟨hshown, h.inList⟩ ⟨hs.marked, fun _ => List.ne_nil_of_mem ht⟩
  · exact .of h hs

omit [DecidableEq P] in
theorem plSearchMatches_intact (h : Pl.Intact s) (hs : Settled s) {id : Nat} {track : Option P}
    (hid : id ∈ s.plHead) (htrack : ∀ t ∈ track, t ∈ s.head id) :
    ((of s).plSearchMatches id track).Intact := by
  have hshown : (of s).plSearchMatches id track =
      of {s.select id with cursorInTrackWindow := track.isSome} := by
    rw [plSearchMatches, setListSel_of]
    rfl
  have hwf : WellFormed {s.select id with cursorInTrackWindow := track.isSome} :=
    ⟨h.wellFormed.sound, h.wellFormed.nodup, hid, h.wellFormed.playing⟩
  rw [hshown]
  refine .of ⟨hwf, h.inList⟩ ⟨hs.marked, fun hc => ?_⟩
  obtain ⟨t, ht⟩ := Option.isSome_iff_exists.mp hc
  exact List.ne_nil_of_mem (htrack t ht)

omit [DecidableEq P] in
theorem plWinMv_shown (h : Pl.Intact s) (hs : Settled s) {move : Editable P → Option (Editable P)}
    (hmove : ∃ e, move (s.playlist s.visible).editable = some e ∧ Linked e ∧
      e.head.Perm (s.head s.visible)) :
    ∃ v, (s.plWinMv move).map (fun lists => ({of s with lists} : View P)) = some v ∧ v.Intact := by
  obtain ⟨s', hrun, hvisible, h', hs'⟩ := plWinMv_intact h hs hmove
  refine ⟨of s', ?_, .of h' hs'⟩
  rw [hrun, Option.map_some, of_with hvisible]

theorem step_intact {v : View P} (h : v.Intact) {op : ViewOp P} (hlegal : op.Legal v)
    (hsound : op.Sound v) : ∃ v', View.step mem v op = some v' ∧ v'.Intact := by
  obtain ⟨hfollows, hlists, hs⟩ := h
  generalize v.lists = s at hfollows hlists hs
  subst hfollows
  cases op with
  | lists op =>
    obtain ⟨s', hrun, hwf, hin⟩ := Pl.step_intact mem hlists hlegal.1
    have hin := hin.mpr hsound.1
    refine ⟨of s', by rw [step_of, hrun, Option.map_some], .of ⟨hwf, hin⟩ ?_⟩
    exact step_settled mem hlists hs hlegal.1 hlegal.2 hsound.2 hrun hin
  | selectPlayingTrack => exact ⟨_, rfl, plSelectPlayingTrack_intact hlists hs⟩
  | searchMatches id track => exact ⟨_, rfl, plSearchMatches_intact hlists hs hlegal.1 hlegal.2⟩
  | winMvAfter sel =>
    have hlinked := (hlists.wellFormed.soundOf hlists.wellFormed.visible).linked
    exact plWinMv_shown hlists hs (hlinked.moveAfter hlegal)
  | winMvBefore sel =>
    have hlinked := (hlists.wellFormed.soundOf hlists.wellFormed.visible).linked
    exact plWinMv_shown hlists hs (hlinked.moveBefore hlegal)

end View

/-- **The view shows what its commands work on**, in every state of a run whose updates
leave a track under the cursor and whose removals spare the playing track. -/
theorem pl_view_shown (mem : Memory P) (ids : List Nat) (hids : ids.Nodup) (first : Nat)
    (hfirst : first ∈ ids) (clear marked : P → Bool) (info : P → TrackInfo) (keys : List SortKey)
    (options : Options) (ops : List (ViewOp P))
    (hops : Runs.Along (View.step mem) (fun v op => op.Legal v ∧ op.Sound v)
      (View.initial ids first clear marked info keys options) ops) :
    Runs.Always (View.step mem) View.Shown
      (View.initial ids first clear marked info keys options) ops := by
  have hwf : WellFormed (Pl.initial ids first clear marked info keys options) := by
    refine ⟨fun id _ => ⟨.init .., .refl _⟩, ?_, hfirst, fun pl hpl => by cases hpl⟩
    show (ids ++ []).Nodup
    rwa [List.append_nil]
  have hstart : (View.initial ids first clear marked info keys options).Intact :=
    .of ⟨hwf, fun t ht => by cases ht⟩ ⟨hfirst, fun hc => by cases hc⟩
  have hstep : ∀ (v : View P) (op : ViewOp P), v.Intact → op.Legal v ∧ op.Sound v →
      ∃ v', View.step mem v op = some v' ∧ v'.Intact := fun v op h hop =>
    View.step_intact mem h hop.1 hop.2
  exact (Runs.always_of_along hstep hstart hops).mono fun v h => h.shown

/-- One playlist, in both windows. -/
def newView : View Nat :=
  .initial [0] 0 (fun _ => false) (fun _ => false) (fun _ => { uid := 0, filename := [] }) []
    ⟨false, false, false, false⟩

/-- One track, and the cursor goes to it. -/
def enterTracks : List (ViewOp Nat) :=
  [.lists (.addTrack 0 { uid := 1, filename := ascii "a" } 0), .lists .winNext]

theorem pl_view_shown_search :
    Runs.Always (View.step plainMemory) View.Shown newView
      (enterTracks ++ [.lists (.addTrack 0 { uid := 2, filename := ascii "b" } 1),
        .winMvAfter (some 1), .lists (.create 1 (fun _ => false) (fun _ => false) fun _ =>
          { uid := 0, filename := [] }), .searchMatches 1 none,
        .lists (.updateTrack { uid := 1, filename := ascii "a" } none), .selectPlayingTrack]) :=
  pl_view_shown plainMemory [0] (List.nodup_singleton 0) 0 (.head _) _ _ _ _ _ _
    (by decide +kernel)

/-- The only track is found dead while the cursor is on it: the update of the cache removes
it, and the cursor stays in the empty window. -/
theorem cursor_among_no_tracks :
    Runs.Along (View.step plainMemory) (fun v op => op.Legal v) newView
        (enterTracks ++ [.lists (.updateTrack { uid := 1, filename := ascii "a" } none)]) ∧
      ¬ Runs.Always (View.step plainMemory) View.Shown newView
        (enterTracks ++ [.lists (.updateTrack { uid := 1, filename := ascii "a" } none)]) := by
  constructor
  · decide +kernel
  · intro halways
    have hrun : (Runs.run (View.step plainMemory) newView (enterTracks ++
        [.lists (.updateTrack { uid := 1, filename := ascii "a" } none)])).any (fun v =>
          decide (v.lists.cursorInTrackWindow = true ∧ v.lists.head v.lists.visible = [])) =
        true := by
      decide +kernel
    obtain ⟨v, hv, hfacts⟩ := (Option.any_eq_true _ _).mp hrun
    obtain ⟨hcursor, hempty⟩ := of_decide_eq_true hfacts
    exact (halways.run hv).cursor hcursor hempty

end GracefulMusic.Pl
