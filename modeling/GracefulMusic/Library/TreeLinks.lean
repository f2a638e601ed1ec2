import GracefulMusic.Foundation.Rows
import GracefulMusic.Library.TreeOrder

/-! What holds of the artist tree through every change.

Artists and albums are in order, the albums of an artist differ by name, and the rows of
albums and tracks are linked both ways. Whether a row may be empty is left to
`tree_add_track` and `tree_remove`, which empty and fill them on the way. -/
namespace GracefulMusic.Lib.Tree
open Tracks

variable {P : Type} [DecidableEq P] (cfg : TreeConfig P) {t : Tree P} {p track : P}

/-! ### Writing to memory -/

theorem setArtist_albums (t : Tree P) (p : P) (artist : Artist P) :
    (t.setArtist p artist).albums = Function.update t.albums p artist.albumRoot.toList := by
  funext q
  by_cases hq : q = p
  · subst hq
    simp [albums, setArtist]
  · simp [albums, setArtist, hq]

theorem setAlbum_tracks (t : Tree P) (p : P) (album : Album P) :
    (t.setAlbum p album).tracks = Function.update t.tracks p album.trackRoot.toList := by
  funext q
  by_cases hq : q = p
  · subst hq
    simp [tracks, setAlbum]
  · simp [tracks, setAlbum, hq]

/-- Writing a field of a structure to memory without changing it. -/
theorem field_update {α β : Type} {f : P → α} {x : α} (g : α → β) (h : g x = g (f p)) (q : P) :
    g (Function.update f p x q) = g (f q) := by
  by_cases hq : q = p
  · subst hq
    rw [Function.update_self, h]
  · rw [Function.update_of_ne hq]

/-! ### The invariant -/

structure Linked (t : Tree P) : Prop where
  artists : t.artists.Pairwise fun p q => artistCmp cfg (t.artist p) (t.artist q) < 0
  albums : ∀ a ∈ t.artists,
    (t.albums a).Pairwise fun p q => albumCmp (t.artist a) (t.album p) (t.album q) < 0
  names : ∀ a ∈ t.artists, (t.albums a).Pairwise fun p q => albumKey (t.album p) ≠ albumKey (t.album q)
  albumRows : Rows.Linked t.artists t.albums fun p => (t.album p).artist
  trackRows : Rows.Linked t.allAlbums t.tracks t.albumOf

variable {cfg}

theorem Linked.artists_nodup (h : Linked cfg t) : t.artists.Nodup :=
  ((artistCmp_totalPreorder cfg).comap t.artist).nodup h.artists

theorem Linked.albums_nodup (h : Linked cfg t) : t.allAlbums.Nodup :=
  h.albumRows.members_nodup h.artists_nodup

theorem Linked.artist_mem (h : Linked cfg t) (hp : p ∈ t.allAlbums) :
    (t.album p).artist ∈ t.artists ∧ p ∈ t.albums (t.album p).artist :=
  h.albumRows.owner_mem hp

/-- Two artists of the tree do not have the same key. -/
theorem Linked.artistKey_ne (h : Linked cfg t) {a b : P} (ha : a ∈ t.artists) (hb : b ∈ t.artists)
    (hab : a ≠ b) : artistKey cfg (t.artist a) ≠ artistKey cfg (t.artist b) := fun hkey =>
  ((artistCmp_totalPreorder cfg).comap t.artist).ne_of_sorted h.artists ha hb hab
    (nameKeyCmp_eq_zero.mpr hkey)

/-- Two albums of an artist do not have the same key. -/
theorem Linked.albumKey_ne (h : Linked cfg t) {a b c : P} (ha : a ∈ t.artists)
    (hb : b ∈ t.albums a) (hc : c ∈ t.albums a) (hbc : b ≠ c) :
    albumKey (t.album b) ≠ albumKey (t.album c) := by
  have hsymm : Std.Symm fun p q => albumKey (t.album p) ≠ albumKey (t.album q) :=
    ⟨fun _ _ => Ne.symm⟩
  exact (h.names a ha).forall hb hc hbc

/-- Albums and tracks stay what they are, and artists and albums may change places. -/
structure Kept (t t' : Tree P) : Prop where
  artists : t'.artists.Perm t.artists
  albums : ∀ a, (t'.albums a).Perm (t.albums a)
  tracks : t'.tracks = t.tracks
  albumOf : t'.albumOf = t.albumOf

theorem Kept.allAlbums {t' : Tree P} (h : Kept t t') : t'.allAlbums.Perm t.allAlbums :=
  (h.artists.flatMap_right _).trans (List.Perm.flatMap_left _ fun a _ => h.albums a)

theorem Kept.allTracks {t' : Tree P} (h : Kept t t') : t'.allTracks.Perm t.allTracks := by
  rw [Tree.allTracks, h.tracks]
  exact h.allAlbums.flatMap_right _

end GracefulMusic.Lib.Tree

/-! Changes to the row of artists, and to an artist.

An artist keeps its key when names are added to it, so it can be taken out of the tree and
put in again. -/
namespace GracefulMusic.Lib.Tree
open Tracks

variable {P : Type} [DecidableEq P] (cfg : TreeConfig P) {t t' : Tree P} {p track : P}

theorem rbErase_of_mem {root : OrderedTree P} (hp : p ∈ root.toList) :
    ∃ root', rbErase cfg root p = some root' ∧ root'.toList = root.toList.erase p :=
  ⟨_, if_pos hp, cfg.rb.toList_remove root p⟩

/-- The order of artists, by their keys. -/
theorem artistCmp_congr {f g : P → Artist P}
    (h : ∀ q, artistKey cfg (f q) = artistKey cfg (g q)) (p q : P) :
    artistCmp cfg (f p) (f q) = artistCmp cfg (g p) (g q) := by
  rw [artistCmp_eq, artistCmp_eq, h, h]

omit [DecidableEq P] in
theorem albumCmp_congr {a b : Artist P} (h : a.isCompilation = b.isCompilation) :
    albumCmp a = albumCmp b := by
  unfold albumCmp
  rw [h]

variable {cfg}

theorem setArtist_key {artist : Artist P} (hkey : artistKey cfg artist = artistKey cfg (t.artist p))
    (q : P) : artistKey cfg ((t.setArtist p artist).artist q) = artistKey cfg (t.artist q) :=
  field_update (artistKey cfg) hkey q

/-- An artist whose albums are written: what else holds of it stays. -/
theorem Linked.setAlbums (h : Linked cfg t) {artist : Artist P}
    (hkey : artistKey cfg artist = artistKey cfg (t.artist p))
    (hsorted : artist.albumRoot.toList.Pairwise fun q r =>
      albumCmp artist (t.album q) (t.album r) < 0)
    (hnames : artist.albumRoot.toList.Pairwise fun q r =>
      albumKey (t.album q) ≠ albumKey (t.album r))
    (halbums : Rows.Linked t.artists (Function.update t.albums p artist.albumRoot.toList)
      fun q => (t.album q).artist)
    (htracks : Rows.Linked (t.artists.flatMap (Function.update t.albums p artist.albumRoot.toList))
      t.tracks t.albumOf) :
    Linked cfg (t.setArtist p artist) := by
  have hrow : (t.setArtist p artist).albums = Function.update t.albums p artist.albumRoot.toList :=
    setArtist_albums t p artist
  constructor
  · apply h.artists.imp
    intro q r hqr
    rwa [artistCmp_congr cfg (setArtist_key hkey)]
  · intro a ha
    rw [hrow]
    by_cases hap : a = p
    · subst hap
      rw [Function.update_self]
      show List.Pairwise (fun q r => albumCmp ((t.setArtist a artist).artist a) _ _ < 0) _
      rw [show (t.setArtist a artist).artist a = artist from Function.update_self ..]
      exact hsorted
    · rw [Function.update_of_ne hap]
      rw [show (t.setArtist p artist).artist a = t.artist a from Function.update_of_ne hap ..]
      exact h.albums a ha
  · intro a ha
    rw [hrow]
    by_cases hap : a = p
    · subst hap
      rw [Function.update_self]
      exact hnames
    · rw [Function.update_of_ne hap]
      exact h.names a ha
  · rw [hrow]
    exact halbums
  · rw [allAlbums, hrow]
    exact htracks

/-- An artist whose names are written and that keeps its place. -/
theorem Linked.writeNames (h : Linked cfg t) {artist : Artist P}
    (hkey : artistKey cfg artist = artistKey cfg (t.artist p))
    (hroot : artist.albumRoot = (t.artist p).albumRoot)
    (hcomp : artist.isCompilation = (t.artist p).isCompilation) :
    Linked cfg (t.setArtist p artist) ∧ (t.setArtist p artist).albums = t.albums := by
  have hrow : (t.setArtist p artist).albums = t.albums := by
    rw [setArtist_albums, hroot]
    exact Function.update_eq_self p t.albums
  refine ⟨?_, hrow⟩
  constructor
  · apply h.artists.imp
    intro q r hqr
    rwa [artistCmp_congr cfg (setArtist_key hkey)]
  · intro a ha
    have hcmp : albumCmp ((t.setArtist p artist).artist a) = albumCmp (t.artist a) :=
      albumCmp_congr (field_update Artist.isCompilation hcomp a)
    rw [hrow, hcmp]
    exact h.albums a ha
  · rw [hrow]
    exact h.names
  · rw [hrow]
    exact h.albumRows
  · rw [allAlbums, hrow]
    exact h.trackRows

/-- The artists of a tree in another order, or fewer of them. -/
theorem Linked.withRoot (h : Linked cfg t) {root : OrderedTree P}
    (hsorted : root.toList.Pairwise fun p q => artistCmp cfg (t.artist p) (t.artist q) < 0)
    (hsub : ∀ a ∈ root.toList, a ∈ t.artists) : Linked cfg {t with libArtistRoot := root} := by
  refine ⟨hsorted, fun a ha => h.albums a (hsub a ha), fun a ha => h.names a (hsub a ha),
    h.albumRows.mono hsub, h.trackRows.mono fun b hb => ?_⟩
  obtain ⟨a, ha, hb⟩ := List.mem_flatMap.mp hb
  exact List.mem_flatMap.mpr ⟨a, hsub a ha, hb⟩

theorem removeArtist_spec (h : Linked cfg t) (hp : p ∈ t.artists) :
    ∃ root, t.removeArtist cfg p = some {t with libArtistRoot := root} ∧
      root.toList = t.artists.erase p ∧ Linked cfg {t with libArtistRoot := root} := by
  obtain ⟨root, hrun, hroot⟩ := rbErase_of_mem cfg hp
  refine ⟨root, by rw [removeArtist, hrun, Option.map_some], hroot, h.withRoot ?_ fun a ha => ?_⟩
  · rw [hroot]
    exact h.artists.sublist List.erase_sublist
  · rw [hroot] at ha
    exact List.mem_of_mem_erase ha

/-- An artist that differs from all those in the tree. -/
theorem addArtist_root (h : Linked cfg t)
    (hnew : ∀ q ∈ t.artists, artistKey cfg (t.artist p) ≠ artistKey cfg (t.artist q)) :
    ∃ root, t.addArtist cfg p = {t with libArtistRoot := root} ∧
      root.toList.Perm (p :: t.artists) ∧
      root.toList.Pairwise fun p q => artistCmp cfg (t.artist p) (t.artist q) < 0 := by
  have hcmp := (artistCmp_totalPreorder cfg).comap t.artist
  have hne : ∀ q ∈ t.artists, artistCmp cfg (t.artist p) (t.artist q) ≠ 0 := fun q hq heq =>
    hnew q hq (nameKeyCmp_eq_zero.mp heq)
  obtain ⟨hsorted, hperm⟩ := hcmp.link_sorted cfg.rb h.artists hne
  refine ⟨_, ?_, hperm, hsorted⟩
  have hnone : t.libArtistRoot.locate (fun q => artistCmp cfg (t.artist p) (t.artist q)) = none :=
    OrderedTree.locate_eq_none hne
  rw [addArtist]
  simp only [hnone]

theorem relinkArtist_spec (h : Linked cfg t) (hp : p ∈ t.artists) (changed : Bool) :
    ∃ root, t.relinkArtist cfg p changed = some {t with libArtistRoot := root} ∧
      root.toList.Perm t.artists ∧ Linked cfg {t with libArtistRoot := root} := by
  cases changed with
  | false => exact ⟨t.libArtistRoot, rfl, .refl _, h⟩
  | true =>
    obtain ⟨root, hrun, hroot, h₁⟩ := removeArtist_spec h hp
    have hnew : ∀ q ∈ root.toList, artistKey cfg (t.artist p) ≠ artistKey cfg (t.artist q) := by
      intro q hq
      rw [hroot, h.artists_nodup.mem_erase_iff] at hq
      exact h.artistKey_ne hp hq.2 (Ne.symm hq.1)
    obtain ⟨root', hadd, hperm, hsorted⟩ := addArtist_root h₁ hnew
    have hperm' : root'.toList.Perm t.artists := by
      refine hperm.trans ?_
      show (p :: root.toList).Perm t.artists
      rw [hroot]
      exact (List.perm_cons_erase hp).symm
    refine ⟨root', ?_, hperm', h.withRoot hsorted fun a ha => hperm'.mem_iff.mp ha⟩
    rw [relinkArtist, if_pos rfl, hrun, Option.map_some, hadd]

/-- An artist that is new in the tree, still without albums. -/
theorem addArtist_spec (h : Linked cfg t) (hempty : t.albums p = [])
    (hnew : ∀ q ∈ t.artists, artistKey cfg (t.artist p) ≠ artistKey cfg (t.artist q)) :
    ∃ root, t.addArtist cfg p = {t with libArtistRoot := root} ∧
      root.toList.Perm (p :: t.artists) ∧ Linked cfg {t with libArtistRoot := root} ∧
      ({t with libArtistRoot := root} : Tree P).allAlbums.Perm t.allAlbums := by
  obtain ⟨root, hadd, hperm, hsorted⟩ := addArtist_root h hnew
  have hall : ({t with libArtistRoot := root} : Tree P).allAlbums.Perm t.allAlbums := by
    refine (hperm.flatMap_right t.albums).trans ?_
    rw [List.flatMap_cons, hempty, List.nil_append]
    exact .refl _
  have hcases : ∀ a ∈ root.toList, t.albums a = [] ∨ a ∈ t.artists := by
    intro a ha
    rcases List.mem_cons.mp (hperm.mem_iff.mp ha) with rfl | ha
    · exact .inl hempty
    · exact .inr ha
  refine ⟨root, hadd, hperm, ⟨hsorted, fun a ha => ?_, fun a ha => ?_, ⟨fun a ha => ?_,
    fun a ha => ?_⟩, h.trackRows.mono fun q hq => hall.mem_iff.mp hq⟩, hall⟩
  · rcases hcases a ha with hnil | ha
    · show (t.albums a).Pairwise _
      rw [hnil]
      exact List.Pairwise.nil
    · exact h.albums a ha
  · rcases hcases a ha with hnil | ha
    · show (t.albums a).Pairwise _
      rw [hnil]
      exact List.Pairwise.nil
    · exact h.names a ha
  · rcases hcases a ha with hnil | ha
    · show (t.albums a).Nodup
      rw [hnil]
      exact List.nodup_nil
    · exact h.albumRows.nodup a ha
  · rcases hcases a ha with hnil | ha
    · intro q hq
      have hq : q ∈ t.albums a := hq
      rw [hnil] at hq
      cases hq
    · exact h.albumRows.back a ha

/-- Memory of an artist that is not in the tree. -/
theorem Linked.writeFreeArtist (h : Linked cfg t) (hp : p ∉ t.artists) (artist : Artist P) :
    Linked cfg (t.setArtist p artist) ∧ (t.setArtist p artist).allAlbums = t.allAlbums ∧
      ∀ a ∈ t.artists, (t.setArtist p artist).artist a = t.artist a := by
  have hkeep : ∀ a ∈ t.artists, (t.setArtist p artist).artist a = t.artist a := by
    intro a ha
    apply Function.update_of_ne
    intro heq
    subst heq
    exact hp ha
  have hrow : ∀ a ∈ t.artists, (t.setArtist p artist).albums a = t.albums a := by
    intro a ha
    rw [Tree.albums, hkeep a ha]
  have hall : (t.setArtist p artist).allAlbums = t.allAlbums := List.flatMap_congr hrow
  refine ⟨⟨?_, fun a ha => ?_, fun a ha => ?_, ⟨fun a ha => ?_, fun a ha => ?_⟩, ?_⟩, hall, hkeep⟩
  · refine h.artists.imp_of_mem fun {q r} hq hr hqr => ?_
    rw [hkeep q hq, hkeep r hr]
    exact hqr
  · rw [hrow a ha, hkeep a ha]
    exact h.albums a ha
  · rw [hrow a ha]
    exact h.names a ha
  · rw [hrow a ha]
    exact h.albumRows.nodup a ha
  · rw [hrow a ha]
    exact h.albumRows.back a ha
  · rw [hall]
    exact h.trackRows

end GracefulMusic.Lib.Tree
