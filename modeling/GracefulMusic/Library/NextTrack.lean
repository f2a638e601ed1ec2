import GracefulMusic.Foundation.Rounds
import GracefulMusic.Library.AlbumSteps
import GracefulMusic.Library.CollectionShape

/-! The next and the previous track of the tree (`lib.c`).

Each level of the tree has its own way round: the tracks of the current album, then the albums
of its artist, then the artists. Together they lead through what `aaa_mode` plays. -/
namespace GracefulMusic.Lib
open Sequence

deriving instance DecidableEq for AaaMode

namespace Tree
variable {P : Type} [DecidableEq P] (t : Tree P)

/-! ### First and last tracks -/

def albumFirstTrack (album : P) : Option P := (t.tracks album).head?

def artistFirstTrack (artist : P) : Option P := (t.albums artist).head?.bind t.albumFirstTrack

def normalGetFirst : Option P := t.artists.head?.bind t.artistFirstTrack

def albumLastTrack (album : P) : Option P := (t.tracks album).getLast?

def artistLastTrack (artist : P) : Option P := (t.albums artist).getLast?.bind t.albumLastTrack

def normalGetLast : Option P := t.artists.getLast?.bind t.artistLastTrack

/-! ### Steps -/

variable (repeats : Bool) (aaa : AaaMode) (allowRepeat skipAlbum : Bool)

def normalGetNext (libCurTrack : Option P) : Option P :=
  match libCurTrack with
  | none => if !allowRepeat then none else t.normalGetFirst
  | some cur =>
    let album := t.albumOf cur
    let artist := (t.album album).artist
    -- not last track of the album?
    match if skipAlbum then none else after (t.tracks album) cur with
    | some track => some track
    | none =>
      if aaa = .album then
        if !allowRepeat || !repeats then none else t.albumFirstTrack album
      else
        -- not last album of the artist?
        match after (t.albums artist) album with
        | some album => t.albumFirstTrack album
        | none =>
          if aaa = .artist then
            if !allowRepeat || !repeats then none else t.artistFirstTrack artist
          else
            -- not last artist of the library?
            match after t.artists artist with
            | some artist => t.artistFirstTrack artist
            | none => if !allowRepeat || !repeats then none else t.normalGetFirst

def normalGetPrev (libCurTrack : Option P) : Option P :=
  match libCurTrack with
  | none => if !allowRepeat then none else t.normalGetLast
  | some cur =>
    let album := t.albumOf cur
    let artist := (t.album album).artist
    -- not first track of the album?
    match if skipAlbum then none else (before (t.tracks album) cur).getLast? with
    | some track => some track
    | none =>
      if aaa = .album then
        if !allowRepeat || !repeats then none else t.albumLastTrack album
      else
        -- not first album of the artist?
        match (before (t.albums artist) album).getLast? with
        | some album => t.albumLastTrack album
        | none =>
          if aaa = .artist then
            if !allowRepeat || !repeats then none
            else (t.albums artist).getLast?.bind t.albumLastTrack
          else
            -- not first artist of the library?
            match (before t.artists artist).getLast? with
            | some artist => t.artistLastTrack artist
            | none => if !allowRepeat || !repeats then none else t.normalGetLast

/-! ### What is played -/

/-- The tracks that `aaa_mode` plays while one of them is the current one. -/
def playingScope (cur : P) : List P :=
  match aaa with
  | .all => t.allTracks
  | .artist => (t.albums (t.album (t.albumOf cur)).artist).flatMap t.tracks
  | .album => t.tracks (t.albumOf cur)

/-- With `repeat`, next and previous lead round the tracks that are played. -/
structure Round (cur : P) : Prop where
  nodup : (t.playingScope aaa cur).Nodup
  mem : cur ∈ t.playingScope aaa cur
  inverse : ∀ track ∈ t.playingScope aaa cur,
    (t.normalGetNext true aaa true false (some track)).bind
        (fun track => t.normalGetPrev true aaa true false (some track)) = some track ∧
      (t.normalGetPrev true aaa true false (some track)).bind
        (fun track => t.normalGetNext true aaa true false (some track)) = some track
  visits : ∀ track ∈ t.playingScope aaa cur, ∃ visited : List P,
    visited.Perm (t.playingScope aaa cur) ∧
      (∀ n (hn : n < visited.length),
        walk (fun track => t.normalGetNext true aaa true false (some track)) n track =
          some visited[n]) ∧
      walk (fun track => t.normalGetNext true aaa true false (some track)) visited.length track =
        some track

variable {t} {aaa} {cfg : TreeConfig P} {cur track : P}

/-! ### Rows -/

theorem Linked.owners (h : Linked cfg t) (hcur : cur ∈ t.allTracks) :
    t.albumOf cur ∈ t.allAlbums ∧ cur ∈ t.tracks (t.albumOf cur) ∧
      (t.album (t.albumOf cur)).artist ∈ t.artists ∧
      t.albumOf cur ∈ t.albums (t.album (t.albumOf cur)).artist := by
  obtain ⟨halbum, htrack⟩ := h.trackRows.owner_mem hcur
  exact ⟨halbum, htrack, h.artist_mem halbum⟩

/-- The albums of an artist of the tree, with their tracks. -/
theorem Linked.artistRows (h : Linked cfg t) {artist : P} (hartist : artist ∈ t.artists) :
    Rows.Linked (t.albums artist) t.tracks t.albumOf :=
  h.trackRows.mono fun _ hp => List.mem_flatMap.mpr ⟨artist, hartist, hp⟩

omit [DecidableEq P] in
theorem Full.artistAlbums (h : Full t) {artist : P} (hartist : artist ∈ t.artists) :
    ∀ p ∈ t.albums artist, t.tracks p ≠ [] :=
  fun p hp => h.albums p (List.mem_flatMap.mpr ⟨artist, hartist, hp⟩)

/-! ### Round a scope -/

theorem normalGetNext_eq (h : Linked cfg t) (hfull : Full t) (hcur : cur ∈ t.allTracks) :
    t.normalGetNext true aaa true false (some cur) = next (t.playingScope aaa cur) cur := by
  obtain ⟨halbum, htrack, hartist, hofartist⟩ := h.owners hcur
  cases aaa with
  | album =>
    simp only [normalGetNext, playingScope, next]
    cases after (t.tracks (t.albumOf cur)) cur <;> rfl
  | artist =>
    have hmem := List.mem_flatMap.mpr ⟨_, hofartist, htrack⟩
    simp only [normalGetNext, playingScope, (h.artistRows hartist).next_flatMap
      (h.albumRows.nodup _ hartist) (hfull.artistAlbums hartist) hmem]
    cases after (t.tracks (t.albumOf cur)) cur with
    | some track => rfl
    | none => cases after (t.albums (t.album (t.albumOf cur)).artist) (t.albumOf cur) <;> rfl
  | all =>
    simp only [normalGetNext, playingScope, allTracks, h.trackRows.next_flatMap h.albums_nodup
      hfull.albums hcur]
    cases after (t.tracks (t.albumOf cur)) cur with
    | some track => rfl
    | none =>
      rw [allAlbums, h.albumRows.after_flatMap h.artists_nodup hfull.artists halbum,
        Rows.head?_flatMap hfull.artists]
      cases after (t.albums (t.album (t.albumOf cur)).artist) (t.albumOf cur) with
      | some album => rfl
      | none =>
        cases hafter : after t.artists (t.album (t.albumOf cur)).artist with
        | some artist =>
          have halbums := hfull.artists artist (mem_of_after hafter)
          simp [artistFirstTrack, albumFirstTrack, List.head?_eq_some_head halbums]
        | none =>
          simp only [Option.none_or, Option.bind_none, Option.bind_assoc]
          rfl

theorem normalGetPrev_eq (h : Linked cfg t) (hfull : Full t) (hcur : cur ∈ t.allTracks) :
    t.normalGetPrev true aaa true false (some cur) = prev (t.playingScope aaa cur) cur := by
  obtain ⟨halbum, htrack, hartist, hofartist⟩ := h.owners hcur
  cases aaa with
  | album =>
    simp only [normalGetPrev, playingScope, prev]
    cases (before (t.tracks (t.albumOf cur)) cur).getLast? <;> rfl
  | artist =>
    have hmem := List.mem_flatMap.mpr ⟨_, hofartist, htrack⟩
    simp only [normalGetPrev, playingScope, (h.artistRows hartist).prev_flatMap
      (h.albumRows.nodup _ hartist) (hfull.artistAlbums hartist) hmem]
    cases (before (t.tracks (t.albumOf cur)) cur).getLast? with
    | some track => rfl
    | none =>
      cases (before (t.albums (t.album (t.albumOf cur)).artist) (t.albumOf cur)).getLast? <;> rfl
  | all =>
    simp only [normalGetPrev, playingScope, allTracks, h.trackRows.prev_flatMap h.albums_nodup
      hfull.albums hcur]
    cases (before (t.tracks (t.albumOf cur)) cur).getLast? with
    | some track => rfl
    | none =>
      rw [allAlbums, h.albumRows.before_flatMap h.artists_nodup hfull.artists halbum,
        Rows.getLast?_flatMap hfull.artists]
      cases (before (t.albums (t.album (t.albumOf cur)).artist) (t.albumOf cur)).getLast? with
      | some album => rfl
      | none =>
        cases hbefore : (before t.artists (t.album (t.albumOf cur)).artist).getLast? with
        | some artist =>
          have halbums := hfull.artists artist (mem_of_before hbefore)
          simp [artistLastTrack, albumLastTrack, List.getLast?_eq_some_getLast halbums]
        | none =>
          simp only [Option.none_or, Option.bind_none, Option.bind_assoc]
          rfl

theorem playingScope_nodup (h : Linked cfg t) (hcur : cur ∈ t.allTracks) :
    (t.playingScope aaa cur).Nodup := by
  obtain ⟨halbum, -, hartist, -⟩ := h.owners hcur
  cases aaa with
  | album => exact h.trackRows.nodup _ halbum
  | artist => exact (h.artistRows hartist).members_nodup (h.albumRows.nodup _ hartist)
  | all => exact h.trackRows.members_nodup h.albums_nodup

theorem mem_playingScope (h : Linked cfg t) (hcur : cur ∈ t.allTracks) :
    cur ∈ t.playingScope aaa cur := by
  obtain ⟨-, htrack, -, hofartist⟩ := h.owners hcur
  cases aaa with
  | album => exact htrack
  | artist => exact List.mem_flatMap.mpr ⟨_, hofartist, htrack⟩
  | all => exact hcur

/-- The tracks of a scope are in the tree and have that scope. -/
theorem playingScope_of_mem (h : Linked cfg t) (hcur : cur ∈ t.allTracks)
    (htrack : track ∈ t.playingScope aaa cur) :
    track ∈ t.allTracks ∧ t.playingScope aaa track = t.playingScope aaa cur := by
  obtain ⟨halbum, -, hartist, hofartist⟩ := h.owners hcur
  cases aaa with
  | album =>
    have halbumOf := h.trackRows.back _ halbum track htrack
    refine ⟨List.mem_flatMap.mpr ⟨_, halbum, htrack⟩, ?_⟩
    simp only [playingScope, halbumOf]
  | artist =>
    obtain ⟨album, hofartist, hofalbum⟩ := List.mem_flatMap.mp htrack
    have halbum := List.mem_flatMap.mpr ⟨_, hartist, hofartist⟩
    have halbumOf := h.trackRows.back _ halbum track hofalbum
    have hartistOf := h.albumRows.back _ hartist album hofartist
    refine ⟨List.mem_flatMap.mpr ⟨_, halbum, hofalbum⟩, ?_⟩
    simp only [playingScope, halbumOf, hartistOf]
  | all => exact ⟨htrack, rfl⟩

theorem round (h : Linked cfg t) (hfull : Full t) (hcur : cur ∈ t.allTracks) :
    t.Round aaa cur := by
  have hnodup : (t.playingScope aaa cur).Nodup := playingScope_nodup h hcur
  have hnext : Circular (t.playingScope aaa cur)
      fun track => t.normalGetNext true aaa true false (some track) := by
    refine (next_circular hnodup).congr fun track htrack => ?_
    obtain ⟨hmem, hscope⟩ := playingScope_of_mem h hcur htrack
    rw [normalGetNext_eq h hfull hmem, hscope]
  have hprev : CircularBack (t.playingScope aaa cur)
      fun track => t.normalGetPrev true aaa true false (some track) := by
    refine (prev_circularBack hnodup).congr fun track htrack => ?_
    obtain ⟨hmem, hscope⟩ := playingScope_of_mem h hcur htrack
    rw [normalGetPrev_eq h hfull hmem, hscope]
  exact ⟨hnodup, mem_playingScope h hcur, fun _ htrack => circular_inverse hnext hprev htrack,
    fun _ htrack => circular_visits hnext htrack⟩

end Tree

end GracefulMusic.Lib
