import GracefulMusic.Library.CollectionShape
import GracefulMusic.Search.Views

/-! Searches in every view.

In all views the way from row to row leads to the next one that the search looks at. Only in the
tree may that pass over rows, where the search is restricted: it then looks at one track of each
album, and a search that begins at another track cannot come back to it. -/
namespace GracefulMusic.Searching
open Sequence Lib

/-! ### Lists -/

section
variable {H P : Type} [DecidableEq H] [DecidableEq P] {dir : Direction} {items : H → List P}
  {head : H} {e : P} {data2 : Option H}

omit [DecidableEq H] in
theorem genericIter_head :
    genericIter dir items ⟨some head, none, data2⟩ =
      ((dir.order (items head)).find? fun _ => true).map fun e => ⟨some head, some e, data2⟩ := by
  rw [find_true, ← Direction.first_eq]
  rfl

omit [DecidableEq H] in
theorem genericIter_row (hnodup : (items head).Nodup) (he : e ∈ items head) :
    genericIter dir items ⟨some head, some e, data2⟩ =
      ((behind (dir.order (items head)) e).find? fun _ => true).map
        fun e => ⟨some head, some e, data2⟩ := by
  have hafter := Direction.neighbour_eq dir hnodup he
  rw [find_true]
  simp only [genericIter, hafter]
  rfl

theorem ListView.charted (v : ListView H P) (isMatch : P → Text → Bool) :
    (v.searchable isMatch).Charted dir (v.rows dir) fun _ => true := by
  have hstep : (v.searchable isMatch).step dir = genericIter dir fun _ => v.items := by
    cases dir <;> rfl
  refine .of_cells (fun a b hab => by simpa [toIter] using hab) (Direction.order_nodup dir v.nodup)
    ?_ ?_ ?_ ?_ ?_
  · rw [hstep]
    exact genericIter_head
  · intro e he
    rw [hstep]
    exact genericIter_row v.nodup (Direction.mem_order.mp he)
  · intro r hr
    obtain ⟨e, he, rfl⟩ := Option.map_eq_some_iff.mp hr
    exact ⟨e, Direction.mem_order.mpr (v.sel_mem e he), rfl⟩
  · intro hnone
    have hitems : v.items = [] := v.sel_none (Option.map_eq_none_iff.mp hnone)
    cases dir <;> simp [Direction.order, hitems]
  · intro hne
    obtain ⟨e, he⟩ := List.exists_mem_of_ne_nil _ hne
    exact ⟨e, he, rfl⟩

end

/-! ### The playlists -/

namespace PlaylistView
variable {H P : Type} [DecidableEq H] [DecidableEq P] {v : PlaylistView H P} {dir : Direction}

omit [DecidableEq H] [DecidableEq P] in
theorem toIter_injective : Function.Injective (toIter (H := H) (P := P)) := by
  rintro ⟨pl, track⟩ ⟨pl', track'⟩ h
  obtain ⟨hpl, htrack, -⟩ : pl = pl' ∧ track = track' ∧ pl = pl' := by simpa [toIter] using h
  rw [hpl, htrack]

omit [DecidableEq H] [DecidableEq P] in
theorem linked (v : PlaylistView H P) :
    Rows.Linked (dir.order v.plHead) (v.plRows dir) Prod.fst := by
  refine ⟨fun pl hpl => ?_, fun pl hpl row hrow => ?_⟩
  · have htracks := Direction.order_nodup dir
      (v.tracks_nodup pl (Direction.mem_order.mp hpl))
    refine List.nodup_cons.mpr ⟨by simp, htracks.map fun a b hab => by simpa using hab⟩
  · simp only [plRows, List.mem_cons, List.mem_map] at hrow
    obtain rfl | ⟨track, -, rfl⟩ := hrow
    · rfl
    · rfl

/-- The iterator of the tracks leads along the rows of a playlist. -/
theorem genericIter_plRows {pl : H} (hpl : pl ∈ v.plHead) {row : H × Option P}
    (hrow : row ∈ v.plRows dir pl) :
    genericIter dir v.tracks (toIter row) = (after (v.plRows dir pl) row).map toIter := by
  simp only [plRows, List.mem_cons, List.mem_map] at hrow
  obtain rfl | ⟨track, htrack, rfl⟩ := hrow
  · have hafter : after (v.plRows dir pl) (pl, none) =
        ((dir.order (v.tracks pl)).map fun track => (pl, some track)).head? :=
      after_split _ List.not_mem_nil
    rw [hafter, toIter, genericIter_head, find_true, List.head?_map, Option.map_map]
    rfl
  · have hafter : after (v.plRows dir pl) (pl, some track) =
        (after (dir.order (v.tracks pl)) track).map fun track => (pl, some track) := by
      have hbehind : behind (v.plRows dir pl) (pl, some track) =
          (behind (dir.order (v.tracks pl)) track).map fun track => (pl, some track) := by
        rw [← behind_map (f := fun track => (pl, some track)) (fun a b hab => by simpa using hab)]
        simp [behind, plRows]
      show (behind (v.plRows dir pl) (pl, some track)).head? = _
      rw [hbehind, List.head?_map]
      rfl
    rw [hafter, toIter, genericIter_row (v.tracks_nodup pl hpl) (Direction.mem_order.mp htrack),
      find_true, Option.map_map]
    rfl

theorem charted (v : PlaylistView H P) (restricted : Bool) (strs : Lib.Search) :
    (v.searchable restricted strs).Charted dir (v.rows dir) fun _ => true := by
  have hstep (iter : Iter H P) : (v.searchable restricted strs).step dir iter =
      plSearchGetGeneric iter (v.listStep dir) (genericIter dir v.tracks) := by
    cases dir <;> rfl
  have hfull : ∀ pl ∈ dir.order v.plHead, v.plRows dir pl ≠ [] := fun pl _ => List.cons_ne_nil _ _
  have hnodup := Direction.order_nodup dir v.nodup
  refine .of_cells toIter_injective (v.linked.members_nodup hnodup) ?_ ?_ ?_ ?_ ?_
  · have hhead : plSearchGetGeneric (v.searchable restricted strs).head (v.listStep dir)
        (genericIter dir v.tracks) =
          (dir.first v.plHead).map fun pl => (⟨some pl, none, some pl⟩ : Iter H P) := rfl
    rw [hstep, hhead, Direction.first_eq]
    cases dir.order v.plHead <;> simp [plRows, toIter]
  · intro row hrow
    obtain ⟨hpl, hmem⟩ := v.linked.owner_mem hrow
    have hplHead := Direction.mem_order.mp hpl
    have hafter := v.linked.after_flatMap hnodup hfull hrow
    have htrue : ((fun _ => true) ∘ toIter : H × Option P → Bool) = fun _ => true := rfl
    rw [hstep, htrue, find_true]
    show _ = (after _ row).map toIter
    rw [hafter, plSearchGetGeneric, genericIter_plRows hplHead hmem]
    cases after (v.plRows dir row.1) row with
    | some next => rfl
    | none =>
      have hlist : v.listStep dir (toIter row).data2 = after (dir.order v.plHead) row.1 :=
        Direction.neighbour_eq dir v.nodup hplHead
      simp only [hlist, Option.map_none, Option.none_or]
      cases after (dir.order v.plHead) row.1 <;> rfl
  · intro r hr
    refine ⟨(v.plVisible, v.sel), List.mem_flatMap.mpr ⟨v.plVisible,
      Direction.mem_order.mpr v.visible_mem, ?_⟩, Option.some.inj hr⟩
    cases hsel : v.sel with
    | none => simp [plRows]
    | some track => simp [plRows, v.sel_mem track hsel]
  · intro hnone
    cases hnone
  · intro hne
    obtain ⟨row, hrow⟩ := List.exists_mem_of_ne_nil _ hne
    exact ⟨row, hrow, rfl⟩

end PlaylistView

/-! ### The library tree -/

namespace TreeView
variable {H P : Type} [DecidableEq H] [DecidableEq P] {v : TreeView H P} {dir : Direction}
  {restricted : Bool} {track : P}

omit [DecidableEq H] in
theorem albumEnd_eq (album : P) :
    v.albumEnd dir album = (dir.order (v.tree.tracks album)).head? := Direction.first_eq

omit [DecidableEq H] in
theorem artistEnd_eq :
    v.artistEnd dir = fun artist => (dir.order (v.tree.albums artist)).head?.bind (v.albumEnd dir) := by
  funext artist
  rw [artistEnd, Direction.first_eq]

omit [DecidableEq H] in
theorem order_allTracks : dir.order v.tree.allTracks =
    (dir.order v.tree.allAlbums).flatMap fun album => dir.order (v.tree.tracks album) :=
  Direction.order_flatMap _

omit [DecidableEq H] in
theorem order_allAlbums : dir.order v.tree.allAlbums =
    (dir.order v.tree.artists).flatMap fun artist => dir.order (v.tree.albums artist) :=
  Direction.order_flatMap _

omit [DecidableEq H] in
theorem albums_full :
    ∀ artist ∈ dir.order v.tree.artists, dir.order (v.tree.albums artist) ≠ [] :=
  fun artist h => Direction.order_ne_nil (v.full.artists artist (Direction.mem_order.mp h))

omit [DecidableEq H] in
theorem tracks_full : ∀ album ∈ dir.order v.tree.allAlbums, dir.order (v.tree.tracks album) ≠ [] :=
  fun album h => Direction.order_ne_nil (v.full.albums album (Direction.mem_order.mp h))

omit [DecidableEq H] in
/-- The first track of all. -/
theorem first_eq : (dir.first v.tree.artists).bind (v.artistEnd dir) =
    (dir.order v.tree.allAlbums).head?.bind (v.albumEnd dir) := by
  rw [order_allAlbums, Rows.head?_flatMap albums_full, Direction.first_eq, Option.bind_assoc,
    artistEnd_eq]

variable (dir) in
omit [DecidableEq H] in
/-- The first track of the next album, of the artist or of the next one. -/
theorem next_album {album : P} (halbum : album ∈ v.tree.allAlbums) :
    (match dir.neighbour (v.tree.albums (v.tree.album album).artist) album with
      | some album => v.albumEnd dir album
      | none => (dir.neighbour v.tree.artists (v.tree.album album).artist).bind (v.artistEnd dir)) =
      (after (dir.order v.tree.allAlbums) album).bind (v.albumEnd dir) := by
  obtain ⟨hartist, hofartist⟩ := v.linked.artist_mem halbum
  have hmem : album ∈ (dir.order v.tree.artists).flatMap
      fun artist => dir.order (v.tree.albums artist) := by
    rw [← order_allAlbums]
    exact Direction.mem_order.mpr halbum
  have hafter := (Direction.linked dir v.linked.albumRows).after_flatMap
    (Direction.order_nodup dir v.linked.artists_nodup) albums_full hmem
  rw [order_allAlbums, hafter,
    Direction.neighbour_eq dir (v.linked.albumRows.nodup _ hartist) hofartist,
    Direction.neighbour_eq dir v.linked.artists_nodup hartist]
  cases after (dir.order (v.tree.albums (v.tree.album album).artist)) album with
  | some album => rfl
  | none => rw [Option.none_or, Option.bind_assoc, artistEnd_eq]

omit [DecidableEq H] in
theorem allowed_first (track : P) :
    (v.allowed dir true ∘ v.treeSearchTrackToIter) track = true ↔
      (dir.order (v.tree.tracks (v.tree.albumOf track))).head? = some track := by
  simp [allowed, treeSearchTrackToIter, albumEnd_eq]

omit [DecidableEq H] in
theorem allowed_unrestricted : v.allowed dir false ∘ v.treeSearchTrackToIter = fun _ => true := by
  funext track
  simp [allowed]

omit [DecidableEq H] in
/-- To the next track, or to that of the next album. -/
theorem treeSearchGet_track (htrack : track ∈ v.tree.allTracks) :
    v.treeSearchGet dir restricted (v.treeSearchTrackToIter track) =
      ((behind (dir.order v.tree.allTracks) track).find?
        (v.allowed dir restricted ∘ v.treeSearchTrackToIter)).map v.treeSearchTrackToIter := by
  obtain ⟨halbum, hofalbum, -, -⟩ := v.linked.owners htrack
  have hlinked := Direction.linked dir v.linked.trackRows
  have hnodup := Direction.order_nodup dir v.linked.albums_nodup
  have hmem : track ∈ (dir.order v.tree.allAlbums).flatMap
      fun album => dir.order (v.tree.tracks album) := by
    rw [← order_allTracks]
    exact Direction.mem_order.mpr htrack
  have hnext := next_album dir halbum
  cases restricted with
  | true =>
    have hfind := hlinked.find?_behind_first hnodup tracks_full hmem v.allowed_first
    simp only [← albumEnd_eq] at hfind
    rw [order_allTracks, hfind]
    simp only [treeSearchGet, treeSearchTrackToIter, if_true]
    exact congrArg (Option.map v.treeSearchTrackToIter) hnext
  | false =>
    have hafter := hlinked.after_flatMap hnodup tracks_full hmem
    simp only [← albumEnd_eq] at hafter
    rw [allowed_unrestricted, find_true]
    show _ = (after _ track).map _
    rw [order_allTracks, hafter,
      ← Direction.neighbour_eq dir (v.linked.trackRows.nodup _ halbum) hofalbum]
    simp only [treeSearchGet, treeSearchTrackToIter, Bool.false_eq_true, if_false]
    cases dir.neighbour (v.tree.tracks (v.tree.albumOf track)) track with
    | some track => rfl
    | none => exact congrArg (Option.map v.treeSearchTrackToIter) hnext

omit [DecidableEq H] in
theorem albumEnd_head : (dir.order v.tree.allAlbums).head?.bind (v.albumEnd dir) =
    (dir.order v.tree.allTracks).head? := by
  rw [order_allTracks, Rows.head?_flatMap tracks_full]
  simp only [← albumEnd_eq]

omit [DecidableEq H] in
/-- The first track that a search looks at is the first one of all. -/
theorem find?_allowed :
    (dir.order v.tree.allTracks).find? (v.allowed dir restricted ∘ v.treeSearchTrackToIter) =
      (dir.order v.tree.allTracks).head? := by
  cases restricted with
  | true =>
    rw [order_allTracks, (Direction.linked dir v.linked.trackRows).find?_first tracks_full
      v.allowed_first, Rows.head?_flatMap tracks_full]
  | false =>
    rw [allowed_unrestricted, find_true]

omit [DecidableEq H] in
theorem treeSearchGetCurrent_some {r : Iter H P} (h : v.treeSearchGetCurrent = some r) :
    ∃ track ∈ v.tree.allTracks, v.treeSearchTrackToIter track = r := by
  unfold treeSearchGetCurrent at h
  split at h
  · cases h
  next hne =>
    split at h
    next track hsel => exact ⟨track, v.trackSel_mem track hsel, Option.some.inj h⟩
    next =>
      obtain ⟨track, hfirst, hr⟩ := Option.map_eq_some_iff.mp h
      obtain ⟨artist, hartist, hmem⟩ := v.artistSel_mem hne
      rw [hartist, Option.bind_some] at hfirst
      obtain ⟨album, halbum, htrack⟩ := Option.bind_eq_some_iff.mp hfirst
      have hall : album ∈ v.tree.allAlbums :=
        List.mem_flatMap.mpr ⟨artist, hmem, List.mem_of_mem_head? halbum⟩
      exact ⟨track, List.mem_flatMap.mpr ⟨album, hall, List.mem_of_mem_head? htrack⟩, hr⟩

omit [DecidableEq H] in
/-- There is a row to begin at, unless the library is empty. -/
theorem treeSearchGetCurrent_none (h : v.treeSearchGetCurrent = none) : v.tree.allTracks = [] := by
  by_cases hne : v.tree.artists = []
  · simp [Lib.Tree.allTracks, Lib.Tree.allAlbums, hne]
  · exfalso
    unfold treeSearchGetCurrent at h
    rw [if_neg hne] at h
    cases hsel : v.trackSel with
    | some track => simp [hsel] at h
    | none =>
      obtain ⟨artist, hartist, hmem⟩ := v.artistSel_mem hne
      obtain ⟨album, halbum⟩ : ∃ album, (v.tree.albums artist).head? = some album :=
        ⟨_, List.head?_eq_some_head (v.full.artists artist hmem)⟩
      have hall : album ∈ v.tree.allAlbums :=
        List.mem_flatMap.mpr ⟨artist, hmem, List.mem_of_mem_head? halbum⟩
      simp [hsel, Lib.Tree.artistFirstTrack, Lib.Tree.albumFirstTrack] at h
      exact v.full.albums album hall (h artist hartist album halbum)

theorem charted (v : TreeView H P) (restricted : Bool) (strs : Lib.Search) :
    (v.searchable restricted strs).Charted dir (v.rows dir) (v.allowed dir restricted) := by
  have hstep : (v.searchable restricted strs).step dir = v.treeSearchGet dir restricted := by
    cases dir <;> rfl
  have hnodup := Direction.order_nodup dir (v.linked.trackRows.members_nodup v.linked.albums_nodup)
  refine .of_cells (fun a b hab => by simpa [treeSearchTrackToIter] using hab) hnodup ?_ ?_ ?_ ?_ ?_
  · have hhead : v.treeSearchGet dir restricted (v.searchable restricted strs).head =
        ((dir.first v.tree.artists).bind (v.artistEnd dir)).map v.treeSearchTrackToIter := rfl
    rw [hstep, hhead, first_eq, albumEnd_head, find?_allowed]
  · intro track htrack
    rw [hstep]
    exact treeSearchGet_track (Direction.mem_order.mp htrack)
  · intro r hr
    obtain ⟨track, htrack, hr⟩ := treeSearchGetCurrent_some hr
    exact ⟨track, Direction.mem_order.mpr htrack, hr⟩
  · intro hnone
    have htracks := treeSearchGetCurrent_none hnone
    cases dir <;> simp [Direction.order, htracks]
  · intro hne
    obtain ⟨track, htrack⟩ : ∃ track, (dir.order v.tree.allTracks).head? = some track :=
      ⟨_, List.head?_eq_some_head hne⟩
    exact ⟨track, List.mem_of_mem_head? htrack,
      by simpa using List.find?_some (find?_allowed.trans htrack)⟩

end TreeView

/-! ### Every search -/

theorem View.charted {H P : Type} [DecidableEq H] [DecidableEq P] (strs : Lib.Search)
    (opts : Options) (dir : Direction) (v : View H P) :
    (v.searchable strs opts).Charted dir (v.rows dir) (v.allowed opts dir) := by
  cases v with
  | tree v => exact v.charted opts.searchRestricted strs
  | sorted v info => exact v.charted _
  | playlists v => exact v.charted opts.searchRestricted strs
  | browser v name => exact v.charted _

/-- A search ends and finds a row if and only if one of those it is about matches, unless it wraps
around, begins at a selected row that the restriction does not allow, and nothing matches. -/
theorem search_settles_iff {H P : Type} [DecidableEq H] [DecidableEq P] (strs : Lib.Search)
    (opts : Options) (v : View H P) (dir : Direction) (text : Text) (req : Request) :
    (v.searchable strs opts).Settles opts dir (v.rows dir) (v.allowed opts dir) text req ↔
      ¬(v.searchable strs opts).Astray opts (v.rows dir) (v.allowed opts dir) text req :=
  (v.charted strs opts dir).settles_iff req

/-- Two albums, the first of which has two tracks. -/
def twoAlbums : List (CollectionOp Nat) :=
  [.addTrack (bandTrack "/1" "One" 1990), .addTrack (bandTrack "/2" "Two" 1995),
    .addTrack (bandTrack "/3" "One" 1990)]

/-- `//zz` at the second track of an album, where nothing matches. -/
theorem search_goes_round :
    let strs : Lib.Search := ⟨fun text word => word <:+: text, fun text word => word <:+: text⟩
    let opts : Options := ⟨true, true, true, fun _ => none⟩
    ∃ (c : Collection Nat) (v : TreeView Nat Nat),
      Runs.run (Collection.step plainTreeConfig) newCollection twoAlbums = some c ∧
      v.tree = c.tree ∧ v.info = c.lib.editable.info ∧ v.trackSel = some 3 ∧
      ∀ fuel, ((View.tree v).searchable strs opts).run opts .forward fuel (ascii "zz")
        (.search false) = none := by
  intro strs opts
  have hlegal : Runs.Along (Collection.step plainTreeConfig) (fun c op => op.Legal c)
      newCollection twoAlbums := by decide +kernel
  obtain ⟨c, hrun, hwhole⟩ := Runs.run_along (I := Collection.Whole plainTreeConfig)
    (fun _ _ h hop => Collection.step_whole h hop) newCollection twoAlbums
    (Collection.init_whole _ _ _ _ _) hlegal
  have hfacts : (Runs.run (Collection.step plainTreeConfig) newCollection twoAlbums).map (fun c =>
      (c.tree.artists, c.tree.allTracks, (c.tree.tracks (c.tree.albumOf 3)).head?,
        c.tree.allTracks.all fun track => !trackInfoMatches strs (c.lib.editable.info track)
          (ascii "zz") [.artist, .album, .albumartist])) =
      some ([1], [1, 3, 2], some 1, true) := by decide +kernel
  rw [hrun] at hfacts
  simp only [Option.map_some, Option.some.injEq, Prod.mk.injEq, List.all_eq_true,
    Bool.not_eq_true'] at hfacts
  obtain ⟨hartists, htracks, hfirst, hmatches⟩ := hfacts
  let v : TreeView Nat Nat :=
    { cfg := plainTreeConfig, tree := c.tree, linked := hwhole.trees.linked
      full := hwhole.trees.full, libArtistRoot := 0, info := c.lib.editable.info
      trackSel := some 3, artistSel := some 1
      trackSel_mem := by simp [htracks], artistSel_mem := by simp [hartists] }
  have hcharted := (View.tree v).charted strs opts .forward
  refine ⟨c, v, hrun, rfl, rfl, rfl, hcharted.run_astray ?_⟩
  have hcurrent : ((View.tree v).searchable strs opts).getCurrent =
      some (v.treeSearchTrackToIter 3) := by
    show v.treeSearchGetCurrent = _
    simp [TreeView.treeSearchGetCurrent, v, hartists]
  refine ⟨rfl, rfl, ⟨_, hcurrent, ?_⟩, fun r hr => ?_⟩
  · simp [View.allowed, TreeView.allowed, TreeView.albumEnd, TreeView.treeSearchTrackToIter,
      Direction.first, v, opts, hfirst]
  · obtain ⟨track, htrack, rfl⟩ := List.mem_map.mp (hcharted.mem_of_covered hr)
    exact hmatches track htrack

end GracefulMusic.Searching
