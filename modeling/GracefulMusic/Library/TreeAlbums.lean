import GracefulMusic.Library.TreeLinks

/-! Changes to the albums of an artist and to the tracks of an album.

Albums of an artist differ by name, so one of them finds its place whatever its dates
are. -/
namespace GracefulMusic.Lib.Tree
open Tracks

variable {P : Type} [DecidableEq P] {cfg : TreeConfig P} {t t' : Tree P} {p track : P}

/-! ### Albums -/

/-- The album tree of an artist, written. -/
def setAlbumRoot (t : Tree P) (a : P) (root : OrderedTree P) : Tree P :=
  t.setArtist a {t.artist a with albumRoot := root}

omit [DecidableEq P] in
/-- The members of a row of albums are found among all. -/
theorem mem_allAlbums {a : P} (ha : a ∈ t.artists) (hp : p ∈ t.albums a) : p ∈ t.allAlbums :=
  List.mem_flatMap.mpr ⟨a, ha, hp⟩

theorem removeAlbum_spec (h : Linked cfg t) (hp : p ∈ t.allAlbums) :
    ∃ root, t.removeAlbum cfg p = some (t.setAlbumRoot (t.album p).artist root) ∧
      root.toList = (t.albums (t.album p).artist).erase p ∧
      Linked cfg (t.setAlbumRoot (t.album p).artist root) := by
  obtain ⟨ha, hmem⟩ := h.artist_mem hp
  obtain ⟨root, hrun, hroot⟩ := rbErase_of_mem cfg hmem
  have hsub : root.toList.Sublist (t.albums (t.album p).artist) := hroot ▸ List.erase_sublist
  have hrows : Rows.Linked t.artists (Function.update t.albums (t.album p).artist root.toList)
      fun q => (t.album q).artist :=
    h.albumRows.narrow ((h.albumRows.nodup _ ha).sublist hsub) fun q hq => hsub.subset hq
  refine ⟨root, by rw [removeAlbum, hrun]; rfl, hroot, h.setAlbums rfl ?_ ?_ hrows ?_⟩
  · exact (h.albums _ ha).sublist hsub
  · exact (h.names _ ha).sublist hsub
  · refine h.trackRows.mono fun q hq => ?_
    obtain ⟨front, back, hold, hnew⟩ :=
      Rows.members_split t.albums h.artists_nodup ha root.toList
    rw [hnew] at hq
    rw [allAlbums, hold]
    simp only [List.mem_append] at hq ⊢
    exact hq.imp_left fun hq => hq.imp_right fun hq => hsub.subset hq

/-- An album whose key no album of its artist has. -/
theorem addAlbum_spec (h : Linked cfg t) (ha : (t.album p).artist ∈ t.artists)
    (hp : p ∉ t.allAlbums)
    (hnew : ∀ q ∈ t.albums (t.album p).artist, albumKey (t.album p) ≠ albumKey (t.album q))
    (htracks : (t.tracks p).Nodup ∧ ∀ b ∈ t.tracks p, t.albumOf b = p) :
    ∃ root, t.addAlbum cfg p = t.setAlbumRoot (t.album p).artist root ∧
      root.toList.Perm (p :: t.albums (t.album p).artist) ∧
      Linked cfg (t.setAlbumRoot (t.album p).artist root) := by
  generalize hartist : (t.album p).artist = a at ha hnew ⊢
  have hcmp := (albumCmp_totalPreorder (t.artist a)).comap t.album
  have hne : ∀ q ∈ t.albums a, albumCmp (t.artist a) (t.album p) (t.album q) ≠ 0 :=
    fun q hq heq => hnew q hq (albumKey_eq_of_albumCmp heq)
  obtain ⟨hsorted, hperm⟩ := hcmp.link_sorted cfg.rb (h.albums a ha) hne
  have hnone : (t.artist a).albumRoot.locate
      (fun q => albumCmp (t.artist a) (t.album p) (t.album q)) = none :=
    OrderedTree.locate_eq_none hne
  refine ⟨_, ?_, hperm, h.setAlbums rfl hsorted ?_ ?_ ?_⟩
  · rw [addAlbum]
    simp only [hartist, hnone]
    rfl
  · have hsymm : Std.Symm fun q r => albumKey (t.album q) ≠ albumKey (t.album r) :=
      ⟨fun _ _ => Ne.symm⟩
    refine (hperm.pairwise_iff fun {_ _} => Ne.symm).mpr (List.pairwise_cons.mpr ⟨?_, ?_⟩)
    · exact hnew
    · exact h.names a ha
  · have hback : (fun q => (t.album q).artist) =
        Function.update (fun q => (t.album q).artist) p a := by
      rw [← hartist]
      exact (Function.update_eq_self p fun q => (t.album q).artist).symm
    rw [hback]
    exact h.albumRows.insert ha hp hperm
  · have hmembers := Rows.members_insert t.albums h.artists_nodup ha hperm
    have hrows : Rows.Linked (p :: t.allAlbums) t.tracks t.albumOf := by
      refine ⟨fun q hq => ?_, fun q hq b hb => ?_⟩
      · rcases List.mem_cons.mp hq with rfl | hq
        · exact htracks.1
        · exact h.trackRows.nodup q hq
      · rcases List.mem_cons.mp hq with rfl | hq
        · exact htracks.2 b hb
        · exact h.trackRows.back q hq b hb
    exact hrows.mono fun q hq => hmembers.mem_iff.mp hq

/-- Memory of an album that is not in the tree. -/
theorem Linked.writeFree (h : Linked cfg t) (hp : p ∉ t.allAlbums) (album : Album P) :
    Linked cfg (t.setAlbum p album) := by
  have hkeep : ∀ a ∈ t.artists, ∀ q ∈ t.albums a, (t.setAlbum p album).album q = t.album q := by
    intro a ha q hq
    apply Function.update_of_ne
    intro heq
    subst heq
    exact hp (mem_allAlbums ha hq)
  constructor
  · exact h.artists
  · intro a ha
    refine (h.albums a ha).imp_of_mem fun {q r} hq hr hqr => ?_
    rw [hkeep a ha q hq, hkeep a ha r hr]
    exact hqr
  · intro a ha
    refine (h.names a ha).imp_of_mem fun {q r} hq hr hqr => ?_
    rw [hkeep a ha q hq, hkeep a ha r hr]
    exact hqr
  · refine ⟨h.albumRows.nodup, fun a ha q hq => ?_⟩
    rw [hkeep a ha q hq]
    exact h.albumRows.back a ha q hq
  · have htracks : ∀ q ∈ t.allAlbums, (t.setAlbum p album).tracks q = t.tracks q := by
      intro q hq
      obtain ⟨a, ha, hq⟩ := List.mem_flatMap.mp hq
      rw [tracks, hkeep a ha q hq]
    refine ⟨fun q hq => ?_, fun q hq b hb => ?_⟩
    · rw [htracks q hq]
      exact h.trackRows.nodup q hq
    · rw [htracks q hq] at hb
      exact h.trackRows.back q hq b hb

/-- An album whose dates are written is taken out and put in where it belongs then. -/
theorem relinkAlbum_spec (h : Linked cfg t) (hp : p ∈ t.allAlbums) (album : Album P)
    (hartist : album.artist = (t.album p).artist) (hkey : albumKey album = albumKey (t.album p))
    (hroot : album.trackRoot = (t.album p).trackRoot) :
    ∃ t', (t.setAlbum p album).relinkAlbum cfg p = some t' ∧ Linked cfg t' ∧ Kept t t' ∧
      t'.album = (t.setAlbum p album).album := by
  obtain ⟨ha, hmem⟩ := h.artist_mem hp
  obtain ⟨root, hrun, hlist, h₁⟩ := removeAlbum_spec h hp
  generalize hown : (t.album p).artist = a at ha hmem hrun hlist h₁
  have hrow : (t.setAlbumRoot a root).albums = Function.update t.albums a root.toList :=
    setArtist_albums ..
  -- the album is out of the tree when its dates are written
  have hout : p ∉ (t.setAlbumRoot a root).allAlbums := by
    intro hin
    have hin' : p ∈ t.artists.flatMap (Function.update t.albums a root.toList) := by
      rwa [allAlbums, hrow] at hin
    have herase : (t.albums a).Perm (p :: root.toList) := hlist ▸ List.perm_cons_erase hmem
    have hperm := Rows.members_erase t.albums h.artists_nodup ha herase
    exact (List.nodup_cons.mp (hperm.nodup_iff.mp h.albums_nodup)).1 hin'
  have h₂ := h₁.writeFree hout album
  have hremove : (t.setAlbum p album).removeAlbum cfg p =
      some ((t.setAlbumRoot a root).setAlbum p album) := by
    have hrun' := congrArg (Option.map fun t => t.setAlbum p album) hrun
    rw [Option.map_some] at hrun'
    rw [← hrun', removeAlbum, removeAlbum, Option.map_map]
    have hself : ((t.setAlbum p album).album p).artist = (t.album p).artist := by
      rw [← hartist]
      exact congrArg Album.artist (Function.update_self ..)
    rw [hself]
    rfl
  have hself : ((t.setAlbumRoot a root).setAlbum p album).album p = album := Function.update_self ..
  have hother : ∀ q, q ≠ p → ((t.setAlbumRoot a root).setAlbum p album).album q = t.album q :=
    fun q hq => Function.update_of_ne hq ..
  have halbums : ((t.setAlbumRoot a root).setAlbum p album).albums a = root.toList := by
    show (t.setAlbumRoot a root).albums a = _
    rw [hrow, Function.update_self]
  have htracks : ((t.setAlbumRoot a root).setAlbum p album).tracks = t.tracks := by
    rw [setAlbum_tracks, hroot]
    exact Function.update_eq_self p t.tracks
  obtain ⟨root', hadd, hperm, h₃⟩ := addAlbum_spec h₂ (p := p)
    (by rw [hself, hartist, hown]; exact ha) hout (by
      rw [hself, hartist, hown, halbums]
      intro q hq
      rw [hlist, (h.albumRows.nodup a ha).mem_erase_iff] at hq
      rw [hother q hq.1, hkey]
      exact h.albumKey_ne ha hmem hq.2 (Ne.symm hq.1))
    (by
      rw [htracks]
      exact ⟨h.trackRows.nodup p hp, h.trackRows.back p hp⟩)
  rw [hself, hartist, hown] at hadd hperm h₃
  rw [halbums] at hperm
  refine ⟨_, by rw [relinkAlbum, hremove, Option.map_some, hadd], h₃,
    ⟨.refl _, fun c => ?_, htracks, rfl⟩, rfl⟩
  show ((((t.setAlbumRoot a root).setAlbum p album).setAlbumRoot a root').albums c).Perm
    (t.albums c)
  rw [setAlbumRoot, setArtist_albums]
  by_cases hca : c = a
  · subst hca
    rw [Function.update_self]
    refine hperm.trans ?_
    rw [hlist]
    exact (List.perm_cons_erase hmem).symm
  · rw [Function.update_of_ne hca]
    show ((t.setAlbumRoot a root).albums c).Perm (t.albums c)
    rw [hrow, Function.update_of_ne hca]

/-! ### Tracks -/

/-- The track tree of an album, written. -/
def setTrackRoot (t : Tree P) (p : P) (root : OrderedTree P) : Tree P :=
  t.setAlbum p {t.album p with trackRoot := root}

theorem setTrackRoot_album (t : Tree P) (p : P) (root : OrderedTree P) (q : P) :
    ∃ root', (t.setTrackRoot p root).album q = {t.album q with trackRoot := root'} := by
  by_cases hq : q = p
  · subst hq
    exact ⟨root, Function.update_self ..⟩
  · exact ⟨(t.album q).trackRoot, Function.update_of_ne hq ..⟩

/-- The order of albums does not depend on their tracks. -/
theorem Linked.writeTracks (h : Linked cfg t) {root : OrderedTree P} {albumOf : P → P}
    (htracks : Rows.Linked t.allAlbums (Function.update t.tracks p root.toList) albumOf) :
    Linked cfg {t.setTrackRoot p root with albumOf} := by
  have hcmp : ∀ (artist : Artist P) (q r : P),
      albumCmp artist ((t.setTrackRoot p root).album q) ((t.setTrackRoot p root).album r) =
        albumCmp artist (t.album q) (t.album r) := by
    intro artist q r
    obtain ⟨_, hq⟩ := setTrackRoot_album t p root q
    obtain ⟨_, hr⟩ := setTrackRoot_album t p root r
    rw [hq, hr]
    unfold albumCmp
    split <;> rfl
  have hkey : ∀ q, albumKey ((t.setTrackRoot p root).album q) = albumKey (t.album q) := by
    intro q
    obtain ⟨_, hq⟩ := setTrackRoot_album t p root q
    rw [hq]
    rfl
  have howner : ∀ q, ((t.setTrackRoot p root).album q).artist = (t.album q).artist := by
    intro q
    obtain ⟨_, hq⟩ := setTrackRoot_album t p root q
    rw [hq]
  refine ⟨h.artists, fun a ha => (h.albums a ha).imp fun {q r} hqr => ?_,
    fun a ha => (h.names a ha).imp fun {q r} hqr => ?_,
    ⟨h.albumRows.nodup, fun a ha q hq => ?_⟩, ?_⟩
  · show albumCmp (t.artist a) ((t.setTrackRoot p root).album q) _ < 0
    rwa [hcmp]
  · show albumKey ((t.setTrackRoot p root).album q) ≠ albumKey ((t.setTrackRoot p root).album r)
    rwa [hkey, hkey]
  · show ((t.setTrackRoot p root).album q).artist = a
    rw [howner]
    exact h.albumRows.back a ha q hq
  · show Rows.Linked t.allAlbums (t.setAlbum p {t.album p with trackRoot := root}).tracks albumOf
    rw [setAlbum_tracks]
    exact htracks

theorem albumAddTrack_spec (h : Linked cfg t) (info : P → TrackInfo) (hp : p ∈ t.allAlbums)
    (htrack : track ∉ t.allTracks) :
    ∃ root, t.albumAddTrack cfg info p track =
        {t.setTrackRoot p root with albumOf := Function.update t.albumOf track p} ∧
      root.toList.Perm (track :: t.tracks p) ∧
      Linked cfg (t.albumAddTrack cfg info p track) := by
  have hprobe : ∀ q ∈ t.tracks p,
      (if trackInfoCmp cfg.fieldCmp (info track) (info q) albumTrackSortKeys < 0 then -1
        else 1 : Int)
        ≠ 0 := by
    intro q _
    split <;> decide
  obtain ⟨front, back, hsplit, hattach, -, -⟩ :=
    OrderedTree.attach_split track (OrderedTree.locate_eq_none hprobe)
  have hperm : (cfg.rb.rebalance ((t.album p).trackRoot.attach (fun q =>
      if trackInfoCmp cfg.fieldCmp (info track) (info q) albumTrackSortKeys < 0 then -1 else 1)
      track)).toList.Perm (track :: t.tracks p) := by
    rw [cfg.rb.toList_rebalance, hattach, tracks, hsplit]
    exact List.perm_middle
  exact ⟨_, rfl, hperm, h.writeTracks (h.trackRows.insert hp htrack hperm)⟩

theorem removeTrack_spec (h : Linked cfg t) (htrack : track ∈ t.allTracks) :
    ∃ root, t.removeTrack cfg track = some (t.setTrackRoot (t.albumOf track) root) ∧
      root.toList = (t.tracks (t.albumOf track)).erase track ∧
      Linked cfg (t.setTrackRoot (t.albumOf track) root) := by
  obtain ⟨hp, hmem⟩ := h.trackRows.owner_mem htrack
  obtain ⟨root, hrun, hroot⟩ := rbErase_of_mem cfg hmem
  have hsub : root.toList.Sublist (t.tracks (t.albumOf track)) := hroot ▸ List.erase_sublist
  refine ⟨root, by rw [removeTrack, hrun]; rfl, hroot, h.writeTracks (h.trackRows.narrow ?_ ?_)⟩
  · exact (h.trackRows.nodup _ hp).sublist hsub
  · exact fun q hq => hsub.subset hq

end GracefulMusic.Lib.Tree
