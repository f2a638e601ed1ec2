import GracefulMusic.Library.TreeAlbums

/-! `tree_add_track`: the track comes into one album, which may be new, as its artist may
be. -/
namespace GracefulMusic.Lib.Tree
open Tracks

variable {P : Type} [DecidableEq P] {cfg : TreeConfig P} {t t' : Tree P} {p track : P}

/-- No album without tracks, and no artist without albums. -/
structure Full (t : Tree P) : Prop where
  albums : ∀ p ∈ t.allAlbums, t.tracks p ≠ []
  artists : ∀ a ∈ t.artists, t.albums a ≠ []

theorem Kept.full (h : Kept t t') (hfull : Full t) : Full t' := by
  refine ⟨fun p hp => ?_, fun a ha hnil => ?_⟩
  · rw [h.tracks]
    exact hfull.albums p (h.allAlbums.mem_iff.mp hp)
  · have hperm := h.albums a
    rw [hnil] at hperm
    exact hfull.artists a (h.artists.mem_iff.mp ha) hperm.nil_eq.symm

omit [DecidableEq P] in
theorem Kept.trans {t₁ : Tree P} (h : Kept t t₁) (h' : Kept t₁ t') : Kept t t' :=
  ⟨h'.artists.trans h.artists, fun a => (h'.albums a).trans (h.albums a), h'.tracks.trans h.tracks,
    h'.albumOf.trans h.albumOf⟩

/-- The track fills its album, which may have been empty. -/
theorem albumAddTrack_full (h : Linked cfg t) (info : P → TrackInfo) (hp : p ∈ t.allAlbums)
    (htrack : track ∉ t.allTracks) (hothers : ∀ q ∈ t.allAlbums, q ≠ p → t.tracks q ≠ [])
    (hartists : ∀ a ∈ t.artists, t.albums a ≠ []) :
    Linked cfg (t.albumAddTrack cfg info p track) ∧ Full (t.albumAddTrack cfg info p track) ∧
      (t.albumAddTrack cfg info p track).allAlbums = t.allAlbums ∧
      (t.albumAddTrack cfg info p track).allTracks.Perm (track :: t.allTracks) := by
  obtain ⟨root, hrun, hperm, h'⟩ := albumAddTrack_spec h info hp htrack
  have hrow : (t.albumAddTrack cfg info p track).tracks =
      Function.update t.tracks p root.toList := by
    rw [hrun]
    exact setAlbum_tracks ..
  have halbums : (t.albumAddTrack cfg info p track).allAlbums = t.allAlbums := by
    rw [hrun]
    rfl
  refine ⟨h', ⟨fun q hq => ?_, fun a ha => ?_⟩, halbums, ?_⟩
  · rw [halbums] at hq
    rw [hrow]
    by_cases hqp : q = p
    · subst hqp
      rw [Function.update_self]
      exact List.ne_nil_of_mem (hperm.mem_iff.mpr (.head _))
    · rw [Function.update_of_ne hqp]
      exact hothers q hq hqp
  · rw [hrun] at ha ⊢
    exact hartists a ha
  · rw [allTracks, halbums, hrow]
    exact Rows.members_insert t.tracks h.albums_nodup hp hperm

theorem updateDates_spec (h : Linked cfg t) (hp : p ∈ t.allAlbums) (date : Int) :
    ∃ t', t.updateDates cfg p date = some t' ∧ Linked cfg t' ∧ Kept t t' := by
  obtain ⟨t₁, hrun₁, h₁, hkept₁⟩ : ∃ t₁, (if (t.album p).date < date then
      (t.setAlbum p {t.album p with date}).relinkAlbum cfg p else some t) = some t₁ ∧
      Linked cfg t₁ ∧ Kept t t₁ := by
    split
    · obtain ⟨t₁, hrun, h₁, hkept, -⟩ := relinkAlbum_spec h hp {t.album p with date} rfl rfl
        rfl
      exact ⟨t₁, hrun, h₁, hkept⟩
    · exact ⟨t, rfl, h, .refl _, fun _ => .refl _, rfl, rfl⟩
  have hp₁ : p ∈ t₁.allAlbums := hkept₁.allAlbums.mem_iff.mpr hp
  obtain ⟨t₂, hrun₂, h₂, hkept₂⟩ : ∃ t₂, (if (t₁.album p).minDate ≤ 0 ∨
        (date < (t₁.album p).minDate ∧ 0 < date) then
      (t₁.setAlbum p {t₁.album p with minDate := date}).relinkAlbum cfg p else some t₁) = some t₂ ∧
      Linked cfg t₂ ∧ Kept t₁ t₂ := by
    split
    · obtain ⟨t₂, hrun, h₂, hkept, -⟩ := relinkAlbum_spec h₁ hp₁
        {t₁.album p with minDate := date} rfl rfl rfl
      exact ⟨t₂, hrun, h₂, hkept⟩
    · exact ⟨t₁, rfl, h₁, .refl _, fun _ => .refl _, rfl, rfl⟩
  refine ⟨t₂, ?_, h₂, hkept₁.trans hkept₂⟩
  rw [updateDates]
  by_cases hdate : (t.album p).date < date
  · rw [if_pos hdate] at hrun₁ ⊢
    exact Option.bind_eq_some_iff.mpr ⟨t₁, hrun₁, hrun₂⟩
  · rw [if_neg hdate] at hrun₁ ⊢
    exact Option.bind_eq_some_iff.mpr ⟨t₁, hrun₁, hrun₂⟩

/-- An album that is new in the tree, for an artist of the tree. -/
theorem newAlbum_spec (h : Linked cfg t) (info : P → TrackInfo)
    (ha : (t.album p).artist ∈ t.artists) (hp : p ∉ t.allAlbums)
    (hnew : ∀ q ∈ t.albums (t.album p).artist, albumKey (t.album p) ≠ albumKey (t.album q))
    (hempty : t.tracks p = []) (htrack : track ∉ t.allTracks)
    (halbums : ∀ q ∈ t.allAlbums, t.tracks q ≠ [])
    (hartists : ∀ a ∈ t.artists, a ≠ (t.album p).artist → t.albums a ≠ []) :
    Linked cfg ((t.addAlbum cfg p).albumAddTrack cfg info p track) ∧
      Full ((t.addAlbum cfg p).albumAddTrack cfg info p track) ∧
      ((t.addAlbum cfg p).albumAddTrack cfg info p track).allAlbums.Perm (p :: t.allAlbums) ∧
      ((t.addAlbum cfg p).albumAddTrack cfg info p track).allTracks.Perm
        (track :: t.allTracks) := by
  obtain ⟨root, hadd, hperm, h₁⟩ := addAlbum_spec h ha hp hnew (by
    rw [hempty]
    exact ⟨List.nodup_nil, fun b hb => by cases hb⟩)
  rw [hadd]
  generalize (t.album p).artist = a at ha hartists hperm h₁
  have hrow : (t.setAlbumRoot a root).albums = Function.update t.albums a root.toList :=
    setArtist_albums ..
  have hall : (t.setAlbumRoot a root).allAlbums.Perm (p :: t.allAlbums) := by
    rw [allAlbums, hrow]
    exact Rows.members_insert t.albums h.artists_nodup ha hperm
  have htracks : (t.setAlbumRoot a root).allTracks.Perm t.allTracks := by
    refine (hall.flatMap_right _).trans ?_
    rw [List.flatMap_cons]
    show (t.tracks p ++ t.allTracks).Perm _
    rw [hempty, List.nil_append]
  have hothers : ∀ q ∈ (t.setAlbumRoot a root).allAlbums, q ≠ p → t.tracks q ≠ [] :=
    fun q hq hqp => halbums q ((List.mem_cons.mp (hall.mem_iff.mp hq)).resolve_left hqp)
  have hfilled : ∀ c ∈ t.artists, (t.setAlbumRoot a root).albums c ≠ [] := by
    intro c hc
    rw [hrow]
    by_cases hca : c = a
    · subst hca
      rw [Function.update_self]
      exact List.ne_nil_of_mem (hperm.mem_iff.mpr (.head _))
    · rw [Function.update_of_ne hca]
      exact hartists c hc hca
  obtain ⟨h₂, hfull, halb, htr⟩ := albumAddTrack_full h₁ info (hall.mem_iff.mpr (.head _))
    (fun hin => htrack (htracks.mem_iff.mp hin)) hothers hfilled
  refine ⟨h₂, hfull, ?_, htr.trans (htracks.cons _)⟩
  rw [halb]
  exact hall

theorem addArtist_setAlbum (t : Tree P) (p a : P) (album : Album P) :
    (t.setAlbum p album).addArtist cfg a = (t.addArtist cfg a).setAlbum p album := by
  cases hfind : t.libArtistRoot.locate fun q => artistCmp cfg (t.artist a) (t.artist q) with
  | none => simp only [addArtist, setAlbum, hfind]
  | some _ => simp only [addArtist, setAlbum, hfind]

/-- An album that is written and comes into the tree with its first track. -/
theorem enterAlbum_spec (h : Linked cfg t) (info : P → TrackInfo) {album : Album P}
    (ha : album.artist ∈ t.artists) (hp : p ∉ t.allAlbums)
    (hnew : ∀ q ∈ t.albums album.artist, albumKey album ≠ albumKey (t.album q))
    (hempty : album.trackRoot = .leaf) (htrack : track ∉ t.allTracks)
    (halbums : ∀ q ∈ t.allAlbums, t.tracks q ≠ [])
    (hartists : ∀ a ∈ t.artists, a ≠ album.artist → t.albums a ≠ []) :
    Linked cfg (((t.setAlbum p album).addAlbum cfg p).albumAddTrack cfg info p track) ∧
      Full (((t.setAlbum p album).addAlbum cfg p).albumAddTrack cfg info p track) ∧
      (((t.setAlbum p album).addAlbum cfg p).albumAddTrack cfg info p track).allAlbums.Perm
        (p :: t.allAlbums) ∧
      (((t.setAlbum p album).addAlbum cfg p).albumAddTrack cfg info p track).allTracks.Perm
        (track :: t.allTracks) := by
  have hself : (t.setAlbum p album).album p = album := Function.update_self ..
  have hrows : ∀ q ∈ t.allAlbums, (t.setAlbum p album).album q = t.album q := by
    intro q hq
    apply Function.update_of_ne
    intro heq
    subst heq
    exact hp hq
  have htracks : (t.setAlbum p album).allTracks = t.allTracks :=
    List.flatMap_congr fun q hq => by rw [Tree.tracks, hrows q hq]
  rw [← htracks] at htrack ⊢
  apply newAlbum_spec (h.writeFree hp album) info
  · rw [hself]
    exact ha
  · exact hp
  · rw [hself]
    intro q hq
    rw [hrows q (mem_allAlbums ha hq)]
    exact hnew q hq
  · rw [Tree.tracks, hself, hempty]
    rfl
  · exact htrack
  · intro q hq
    rw [Tree.tracks, hrows q hq]
    exact halbums q hq
  · rw [hself]
    exact hartists

/-- What `tree_add_track` is for. -/
structure Added (cfg : TreeConfig P) (t : Tree P) (track : P) (t' : Tree P) (new : Option P) :
    Prop where
  linked : Linked cfg t'
  full : Full t'
  tracks : t'.allTracks.Perm (track :: t.allTracks)
  albums : t'.allAlbums.Perm (new.toList ++ t.allAlbums)

/-- An artist that is found. -/
theorem addToArtist (h : Linked cfg t) (info : P → TrackInfo) {artist : P}
    (hartist : artist ∈ t.artists)
    (hkey : artistKey cfg (artistNew cfg (tags (info track)).artistName
      (tags (info track)).artistsortName (tags (info track)).isVaCompilation) =
        artistKey cfg (t.artist artist)) :
    ∃ t₁, (t.setArtist artist
      (updateNames cfg (t.artist artist) (tags (info track))).1).relinkArtist
        cfg artist (updateNames cfg (t.artist artist) (tags (info track))).2 = some t₁ ∧
      Linked cfg t₁ ∧ Kept t t₁ ∧ t₁.album = t.album := by
  obtain ⟨hkey', hroot, hcomp⟩ := updateNames_key cfg (t.artist artist) _ hkey
  obtain ⟨h₁, hrow⟩ := h.writeNames hkey' hroot hcomp
  obtain ⟨root, hrun, hperm, h₂⟩ := relinkArtist_spec h₁ hartist
    (updateNames cfg (t.artist artist) (tags (info track))).2
  refine ⟨_, hrun, h₂, ⟨hperm, fun a => ?_, rfl, rfl⟩, rfl⟩
  show ((t.setArtist artist _).albums a).Perm (t.albums a)
  rw [hrow]

theorem treeAddTrack_spec (h : Linked cfg t) (hfull : Full t) (info : P → TrackInfo)
    (htrack : track ∉ t.allTracks) :
    ∃ t' new, t.treeAddTrack cfg info track = some (t', new) ∧ Added cfg t track t' new := by
  rw [treeAddTrack]
  dsimp only
  cases hfind : t.findArtist cfg (artistNew cfg (tags (info track)).artistName
      (tags (info track)).artistsortName (tags (info track)).isVaCompilation) with
  | some artist =>
    obtain ⟨hartist, hcmp⟩ := OrderedTree.locate_mem hfind
    obtain ⟨t₁, hrun₁, h₁, hkept, halbum⟩ := addToArtist h info hartist
      (nameKeyCmp_eq_zero.mp hcmp)
    have htrack₁ : track ∉ t₁.allTracks := fun hin => htrack (hkept.allTracks.mem_iff.mp hin)
    have hfull₁ := hkept.full hfull
    have hartist₁ : artist ∈ t₁.artists := hkept.artists.mem_iff.mpr hartist
    simp only [hrun₁, Option.bind_eq_bind, Option.bind_some]
    cases hfound : t.findAlbum (albumNew cfg artist (tags (info track)).albumName
        (tags (info track)).albumsortName (tags (info track)).date) with
    | some album =>
      have hmem : album ∈ t₁.allAlbums := hkept.allAlbums.mem_iff.mpr
        (mem_allAlbums hartist (List.mem_of_find?_eq_some hfound))
      obtain ⟨h₂, hfull₂, halbums₂, htracks₂⟩ := albumAddTrack_full h₁ info hmem htrack₁
        (fun q hq _ => hfull₁.albums q hq) hfull₁.artists
      obtain ⟨t₃, hrun₃, h₃, hkept₃⟩ :=
        updateDates_spec h₂ (halbums₂ ▸ hmem) (tags (info track)).date
      refine ⟨t₃, none, ?_, h₃, hkept₃.full hfull₂, ?_, ?_⟩
      · simp only [hrun₃, Option.bind_some]
      · exact hkept₃.allTracks.trans (htracks₂.trans (hkept.allTracks.cons _))
      · exact hkept₃.allAlbums.trans (halbums₂ ▸ hkept.allAlbums)
    | none =>
      have hfresh := cfg.malloc_fresh t₁.allAlbums
      generalize hnewAlbum : albumNew cfg artist (tags (info track)).albumName
        (tags (info track)).albumsortName (tags (info track)).date = newAlbum at hfound ⊢
      generalize cfg.malloc t₁.allAlbums = album at hfresh ⊢
      have howner : newAlbum.artist = artist := hnewAlbum ▸ rfl
      have hempty : newAlbum.trackRoot = .leaf := hnewAlbum ▸ rfl
      have hdiffer : ∀ q ∈ t₁.albums newAlbum.artist,
          albumKey newAlbum ≠ albumKey (t₁.album q) := by
        intro q hq hkey
        have hq : q ∈ t.albums newAlbum.artist := (hkept.albums _).mem_iff.mp hq
        have hnot := List.find?_eq_none.mp hfound q hq
        rw [halbum] at hkey
        exact hnot (decide_eq_true (nameKeyCmp_eq_zero.mpr hkey))
      obtain ⟨h₃, hfull₃, halbums₃, htracks₃⟩ := enterAlbum_spec h₁ info (howner ▸ hartist₁) hfresh
        hdiffer hempty htrack₁ hfull₁.albums fun a ha _ => hfull₁.artists a ha
      refine ⟨_, some album, rfl, h₃, hfull₃, ?_, ?_⟩
      · exact htracks₃.trans (hkept.allTracks.cons _)
      · exact halbums₃.trans (hkept.allAlbums.cons _)
  | none =>
    have hartist := cfg.malloc_fresh t.artists
    have hfresh := cfg.malloc_fresh t.allAlbums
    dsimp only
    generalize hnewArtist : artistNew cfg (tags (info track)).artistName
      (tags (info track)).artistsortName (tags (info track)).isVaCompilation = newArtist at hfind ⊢
    generalize cfg.malloc t.artists = artist at hartist ⊢
    generalize cfg.malloc t.allAlbums = album at hfresh ⊢
    have hleaf : newArtist.albumRoot = .leaf := hnewArtist ▸ rfl
    obtain ⟨h₁, hall₁, hkeep₁⟩ := h.writeFreeArtist hartist newArtist
    have hself : (t.setArtist artist newArtist).artist artist = newArtist := Function.update_self ..
    have hempty : (t.setArtist artist newArtist).albums artist = [] := by
      rw [Tree.albums, hself, hleaf]
      rfl
    have hdiffer : ∀ q ∈ t.artists, artistKey cfg ((t.setArtist artist newArtist).artist artist) ≠
        artistKey cfg ((t.setArtist artist newArtist).artist q) := by
      intro q hq hkey
      rw [hself, hkeep₁ q hq] at hkey
      exact (artistCmp_totalPreorder cfg).ne_of_locate h.artists hfind q hq
        (nameKeyCmp_eq_zero.mpr hkey)
    obtain ⟨root, hadd, hperm, h₂, hall₂⟩ := addArtist_spec h₁ hempty hdiffer
    generalize hnewAlbum : albumNew cfg artist (tags (info track)).albumName
      (tags (info track)).albumsortName (tags (info track)).date = newAlbum
    have howner : newAlbum.artist = artist := hnewAlbum ▸ rfl
    have hall : ({t.setArtist artist newArtist with libArtistRoot := root} : Tree P).allAlbums.Perm
        t.allAlbums := hall₁ ▸ hall₂
    have htracks : ({t.setArtist artist newArtist with
        libArtistRoot := root} : Tree P).allTracks.Perm t.allTracks := hall.flatMap_right t.tracks
    obtain ⟨h₃, hfull₃, halbums₃, htracks₃⟩ := enterAlbum_spec (p := album) h₂ info
      (howner ▸ hperm.mem_iff.mpr (.head _)) (fun hin => hfresh (hall.mem_iff.mp hin))
      (by
        rw [howner]
        intro q hq
        have hq : q ∈ (t.setArtist artist newArtist).albums artist := hq
        rw [hempty] at hq
        cases hq)
      (hnewAlbum ▸ rfl) (show track ∉ _ from fun hin => htrack (htracks.mem_iff.mp hin))
      (fun q hq => hfull.albums q (hall.mem_iff.mp hq))
      (by
        rw [howner]
        intro a ha hne
        have ha' := (List.mem_cons.mp (hperm.mem_iff.mp ha)).resolve_left hne
        show (t.setArtist artist newArtist).albums a ≠ []
        rw [Tree.albums, hkeep₁ a ha']
        exact hfull.artists a ha')
    rw [addArtist_setAlbum, hadd]
    exact ⟨_, some album, rfl, h₃, hfull₃, htracks₃.trans (htracks.cons _),
      halbums₃.trans (hall.cons _)⟩

end GracefulMusic.Lib.Tree

/-! `tree_remove`: with its last track an album goes, with its last album an artist. -/
namespace GracefulMusic.Lib.Tree
open Tracks

variable {P : Type} [DecidableEq P] {cfg : TreeConfig P} {t t' : Tree P} {a p track : P}

/-- An artist without albums leaves with nothing. -/
theorem removeArtist_empty (h : Linked cfg t) (ha : a ∈ t.artists) (hnil : t.albums a = []) :
    ∃ root, t.removeArtist cfg a = some {t with libArtistRoot := root} ∧
      root.toList = t.artists.erase a ∧ Linked cfg {t with libArtistRoot := root} ∧
      t.allAlbums.Perm ({t with libArtistRoot := root} : Tree P).allAlbums := by
  obtain ⟨root, hrun, hroot, h'⟩ := removeArtist_spec h ha
  have hartists : t.artists.Perm (a :: root.toList) := by
    rw [hroot]
    exact List.perm_cons_erase ha
  refine ⟨root, hrun, hroot, h', (hartists.flatMap_right _).trans ?_⟩
  rw [List.flatMap_cons, hnil, List.nil_append]
  exact .refl _

/-- An album without tracks leaves alone. -/
theorem removeAlbum_empty (h : Linked cfg t) (hp : p ∈ t.allAlbums) (hnil : t.tracks p = [])
    (hartist : (t.album p).artist = a) :
    ∃ root, t.removeAlbum cfg p = some (t.setAlbumRoot a root) ∧
      Linked cfg (t.setAlbumRoot a root) ∧
      (t.setAlbumRoot a root).albums = Function.update t.albums a root.toList ∧
      t.allAlbums.Perm (p :: (t.setAlbumRoot a root).allAlbums) ∧
      t.allTracks.Perm (t.setAlbumRoot a root).allTracks := by
  subst hartist
  obtain ⟨root, hrun, hroot, h'⟩ := removeAlbum_spec h hp
  obtain ⟨ha, hmem⟩ := h.artist_mem hp
  have hrow : (t.setAlbumRoot (t.album p).artist root).albums =
      Function.update t.albums (t.album p).artist root.toList := setArtist_albums ..
  have halbums : t.allAlbums.Perm (p :: (t.setAlbumRoot (t.album p).artist root).allAlbums) := by
    have herase : (t.albums (t.album p).artist).Perm (p :: root.toList) :=
      hroot ▸ List.perm_cons_erase hmem
    rw [allAlbums, allAlbums, hrow]
    exact Rows.members_erase t.albums h.artists_nodup ha herase
  refine ⟨root, hrun, h', hrow, halbums, (halbums.flatMap_right t.tracks).trans ?_⟩
  rw [List.flatMap_cons, hnil, List.nil_append]
  exact .refl _

/-- What `tree_remove` is for. -/
structure Removed (cfg : TreeConfig P) (t : Tree P) (track : P) (t' : Tree P) (gone : Option P) :
    Prop where
  linked : Linked cfg t'
  full : Full t'
  tracks : t.allTracks.Perm (track :: t'.allTracks)
  albums : t.allAlbums.Perm (gone.toList ++ t'.allAlbums)
  /-- An album goes with its last track. -/
  last : ∀ p ∈ gone, t.tracks p = [track]

theorem treeRemove_spec (h : Linked cfg t) (hfull : Full t) (htrack : track ∈ t.allTracks) :
    ∃ t' gone, t.treeRemove cfg track = some (t', gone) ∧ Removed cfg t track t' gone := by
  obtain ⟨hp, hmem⟩ := h.trackRows.owner_mem htrack
  obtain ⟨root, hrun₁, hroot, h₁⟩ := removeTrack_spec h htrack
  rw [treeRemove]
  simp only [hrun₁, Option.bind_eq_bind, Option.bind_some]
  generalize t.albumOf track = p at hp hmem hroot h₁ ⊢
  have hrow : (t.setTrackRoot p root).tracks = Function.update t.tracks p root.toList :=
    setAlbum_tracks ..
  have hself : (t.setTrackRoot p root).album p = {t.album p with trackRoot := root} :=
    Function.update_self ..
  have herase : (t.tracks p).Perm (track :: root.toList) := hroot ▸ List.perm_cons_erase hmem
  have htracks : t.allTracks.Perm (track :: (t.setTrackRoot p root).allTracks) := by
    rw [allTracks, allTracks, hrow]
    exact Rows.members_erase t.tracks h.albums_nodup hp herase
  have hothers : ∀ q ∈ t.allAlbums, q ≠ p → (t.setTrackRoot p root).tracks q ≠ [] := by
    intro q hq hqp
    rw [hrow, Function.update_of_ne hqp]
    exact hfull.albums q hq
  by_cases hempty : root.isEmpty = true
  · have hnil : root.toList = [] := (OrderedTree.isEmpty_iff root).mp hempty
    have hlast : ∀ q ∈ some p, t.tracks q = [track] := by
      intro q h
      cases h
      exact List.perm_singleton.mp (hnil ▸ herase)
    rw [hself]
    simp only [if_pos hempty]
    generalize hartist : (t.album p).artist = a
    obtain ⟨root₂, hrun₂, h₂, hrow₂, halbums, hsame⟩ := removeAlbum_empty (a := a) h₁ hp
      (by rw [hrow, Function.update_self, hnil]) (by rw [hself]; exact hartist)
    have ha : a ∈ t.artists := hartist ▸ (h.artist_mem hp).1
    have hnew := List.nodup_cons.mp (halbums.nodup_iff.mp h₁.albums_nodup)
    have hfilled : ∀ q ∈ ((t.setTrackRoot p root).setAlbumRoot a root₂).allAlbums,
        (t.setTrackRoot p root).tracks q ≠ [] := by
      intro q hq
      refine hothers q (halbums.mem_iff.mpr (.tail _ hq)) ?_
      intro heq
      subst heq
      exact hnew.1 hq
    have hself₂ : (((t.setTrackRoot p root).setAlbumRoot a root₂).artist a).albumRoot = root₂ := by
      rw [setAlbumRoot, setArtist]
      simp only [Function.update_self]
    have hrest : ∀ c ∈ t.artists, c ≠ a →
        ((t.setTrackRoot p root).setAlbumRoot a root₂).albums c ≠ [] := by
      intro c hc hca
      rw [hrow₂, Function.update_of_ne hca]
      exact hfull.artists c hc
    simp only [hrun₂, Option.bind_some]
    rw [hself₂]
    by_cases hroot₂ : root₂.isEmpty = true
    · rw [if_pos hroot₂]
      obtain ⟨root₃, hrun₃, hroot₃, h₃, hall⟩ := removeArtist_empty h₂ ha
        (by rw [hrow₂, Function.update_self, (OrderedTree.isEmpty_iff root₂).mp hroot₂])
      refine ⟨_, some p, by rw [hrun₃]; rfl, h₃, ⟨fun q hq => ?_, fun c hc => ?_⟩, ?_, ?_, hlast⟩
      · exact hfilled q (hall.mem_iff.mpr hq)
      · have hc : c ∈ root₃.toList := hc
        rw [hroot₃] at hc
        obtain ⟨hca, hc⟩ := h.artists_nodup.mem_erase_iff.mp hc
        exact hrest c hc hca
      · exact htracks.trans ((hsame.trans (hall.flatMap_right _)).cons _)
      · exact halbums.trans (hall.cons _)
    · rw [if_neg hroot₂]
      refine ⟨_, some p, rfl, h₂, ⟨hfilled, fun c hc => ?_⟩, htracks.trans (hsame.cons _), halbums,
        hlast⟩
      by_cases hca : c = a
      · rw [hca, hrow₂, Function.update_self]
        exact fun hnil => hroot₂ ((OrderedTree.isEmpty_iff root₂).mpr hnil)
      · exact hrest c hc hca
  · rw [hself]
    simp only [if_neg hempty]
    refine ⟨_, none, rfl, h₁, ⟨fun q hq => ?_, hfull.artists⟩, htracks, .refl _, fun q hq => ?_⟩
    · by_cases hqp : q = p
      · subst hqp
        rw [hrow, Function.update_self]
        exact fun hnil => hempty ((OrderedTree.isEmpty_iff root).mpr hnil)
      · exact hothers q hq hqp
    · cases hq

end GracefulMusic.Lib.Tree
