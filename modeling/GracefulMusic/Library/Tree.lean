import GracefulMusic.Library.Views

/-! The artist tree of the library (`tree.c`).

Artists in a tree, each with a tree of its albums, each with a tree of its tracks. The
nodes are part of the structures, so a structure is in at most one tree of its kind and
keeps its place while it is written to. `P` is the type of pointers, and what an artist
or an album points at is looked up in the state. A track's info is the editable's.

Names are kept with their collation keys. Keys are compared with `strcmp`, dates by their
difference, which is taken not to overflow. As with the index tree, `rb_erase` of a node
that is in no tree is `none`. Windows are left out, and with them `expanded`. -/
namespace GracefulMusic.Lib
open Tracks

/-- What `u_strcasecoll_key` makes of a string: a string, so its terminator is not in it. -/
abbrev CollKey := {key : Text // 0 ∉ key}

structure Name where
  text : Text
  collkey : CollKey
  deriving DecidableEq

structure Artist (P : Type) where
  albumRoot : OrderedTree P
  name : Name
  sortName : Option Name
  autoSortName : Option Name
  isCompilation : Bool

structure Album (P : Type) where
  trackRoot : OrderedTree P
  artist : P
  name : Name
  sortName : Option Name
  /-- max date of the tracks added to this album -/
  date : Int
  /-- min date of the tracks added to this album -/
  minDate : Int

/-- What the trees are built on: the collation of the locale, and the option
`smart_artist_sort`. -/
structure TreeConfig (P : Type) [DecidableEq P] extends Config P where
  uStrcasecollKey : Text → CollKey
  smartArtistSort : Bool

/-! ### Comparisons -/

/-- Names like `<Stream>` come before the others. -/
def notTop (name : Text) : Int := if name.head? ≠ some (ch '<') then 1 else 0

def specialNameCmp (a : Text) (collkeyA : CollKey) (b : Text) (collkeyB : CollKey) : Int :=
  -- keep <Stream> etc. top
  let cmp := notTop a - notTop b
  if cmp ≠ 0 then cmp else strcmp collkeyA.val collkeyB.val

/-- What `artist_sort_name` and `artist_sort_collkey` choose. -/
def artistSortName (smartArtistSort : Bool) {P : Type} (a : Artist P) : Name :=
  match a.sortName, a.autoSortName with
  | some name, _ => name
  | none, some auto => if smartArtistSort then auto else a.name
  | none, none => a.name

def albumSortCollkey {P : Type} (a : Album P) : CollKey :=
  match a.sortName with
  | some name => name.collkey
  | none => a.name.collkey

def specialAlbumCmp {P : Type} (a b : Album P) : Int :=
  specialNameCmp a.name.text (albumSortCollkey a) b.name.text (albumSortCollkey b)

def specialAlbumCmpDate {P : Type} (a b : Album P) : Int :=
  -- keep <Stream> etc. top
  let cmp := notTop a.name.text - notTop b.name.text
  if cmp ≠ 0 then cmp
  else
    let cmp := a.date - b.date
    if cmp ≠ 0 then cmp else strcmp (albumSortCollkey a).val (albumSortCollkey b).val

/-! ### Names -/

/-- "The Beatles" sorts as "Beatles, The". -/
def autoArtistSortName (name : Text) : Option Text :=
  if strcasecmp (name.take 4) (ascii "the ") ≠ 0 then none
  else
    let rest := (name.drop 4).dropWhile isSpace
    if rest = [] then none else some (rest ++ ascii ", " ++ name.take 3)

def orNoName (val : Option Text) : Text :=
  match val with
  | none => ascii "<No Name>"
  | some val => if val = [] then ascii "<No Name>" else val

def treeArtistName (ti : TrackInfo) : Text :=
  orNoName (if ti.isVaCompilation then some (ascii "<Various Artists>") else ti.albumartist)

def treeAlbumName (ti : TrackInfo) : Text := orNoName ti.album

/-- Where a track belongs, as `tree_add_track` reads it off the info. -/
structure Tags where
  artistName : Text
  albumName : Text
  artistsortName : Option Text
  albumsortName : Option Text
  isVaCompilation : Bool
  date : Int

def tags (ti : TrackInfo) : Tags :=
  let date := if ti.originaldate < 0 then ti.date else ti.originaldate
  if Expr.isHttpUrl ti.filename then
    ⟨ascii "<Stream>", ascii "<Stream>", none, none, false, date⟩
  else
    ⟨treeArtistName ti, treeAlbumName ti, ti.artistsort, ti.albumsort, ti.isVaCompilation, date⟩

/-! ### The tree -/

/-- `lib_artist_root`, with the memory of artists and albums and the `album` of each
track. -/
structure Tree (P : Type) where
  libArtistRoot : OrderedTree P
  artist : P → Artist P
  album : P → Album P
  albumOf : P → P

/-- The keys that order the tracks of an album. -/
def albumTrackSortKeys : List SortKey :=
  [⟨.discnumber, false⟩, ⟨.tracknumber, false⟩, ⟨.filename, false⟩]

namespace Tree
variable {P : Type} [DecidableEq P] (cfg : TreeConfig P) (t : Tree P)

abbrev artists : List P := t.libArtistRoot.toList

abbrev albums (artist : P) : List P := (t.artist artist).albumRoot.toList

abbrev tracks (album : P) : List P := (t.album album).trackRoot.toList

/-- All albums, artist by artist. -/
def allAlbums : List P := t.artists.flatMap t.albums

/-- All tracks, album by album. -/
def allTracks : List P := t.allAlbums.flatMap t.tracks

def setArtist (p : P) (artist : Artist P) : Tree P :=
  {t with artist := Function.update t.artist p artist}

def setAlbum (p : P) (album : Album P) : Tree P :=
  {t with album := Function.update t.album p album}

/-- `rb_erase`. -/
def rbErase (root : OrderedTree P) (p : P) : Option (OrderedTree P) :=
  if p ∈ root.toList then some (cfg.rb.remove root p) else none

def toName (text : Text) : Name := ⟨text, cfg.uStrcasecollKey text⟩

def artistNew (name : Text) (sortName : Option Text) (isCompilation : Bool) : Artist P where
  albumRoot := .leaf
  name := toName cfg name
  sortName := sortName.map (toName cfg)
  autoSortName := (autoArtistSortName name).map (toName cfg)
  isCompilation

def albumNew (artist : P) (name : Text) (sortName : Option Text) (date : Int) : Album P where
  trackRoot := .leaf
  artist
  name := toName cfg name
  sortName := sortName.map (toName cfg)
  date
  minDate := date

/-- The comparison of `do_find_artist`. -/
def artistCmp (a b : Artist P) : Int :=
  specialNameCmp
    (artistSortName cfg.smartArtistSort a).text (artistSortName cfg.smartArtistSort a).collkey
    (artistSortName cfg.smartArtistSort b).text (artistSortName cfg.smartArtistSort b).collkey

def findArtist (artist : Artist P) : Option P :=
  t.libArtistRoot.locate fun p => artistCmp cfg artist (t.artist p)

def addArtist (p : P) : Tree P :=
  let probe q := artistCmp cfg (t.artist p) (t.artist q)
  match t.libArtistRoot.locate probe with
  | some _ => t
  | none => {t with libArtistRoot := cfg.rb.rebalance (t.libArtistRoot.attach probe p)}

def removeArtist (p : P) : Option (Tree P) :=
  (rbErase cfg t.libArtistRoot p).map fun libArtistRoot => {t with libArtistRoot}

/-- A linear search, because we want to find albums with a different date. -/
def findAlbum (album : Album P) : Option P :=
  (t.albums album.artist).find? fun p => specialAlbumCmp album (t.album p) = 0

/-- Regular albums are sorted by date, those of compilations alphabetically. -/
def albumCmp (artist : Artist P) : Album P → Album P → Int :=
  if artist.isCompilation then specialAlbumCmp else specialAlbumCmpDate

def addAlbum (p : P) : Tree P :=
  let artist := t.artist (t.album p).artist
  let probe q := albumCmp artist (t.album p) (t.album q)
  match artist.albumRoot.locate probe with
  | some _ => t
  | none => t.setArtist (t.album p).artist
      {artist with albumRoot := cfg.rb.rebalance (artist.albumRoot.attach probe p)}

def removeAlbum (p : P) : Option (Tree P) :=
  let artist := t.artist (t.album p).artist
  (rbErase cfg artist.albumRoot p).map fun albumRoot =>
    t.setArtist (t.album p).artist {artist with albumRoot}

/-- A track goes behind those it equals. -/
def albumAddTrack (info : P → TrackInfo) (p track : P) : Tree P :=
  let album := t.album p
  let probe q :=
    if trackInfoCmp cfg.fieldCmp (info track) (info q) albumTrackSortKeys < 0 then -1 else 1
  {t.setAlbum p
      {album with trackRoot := cfg.rb.rebalance (album.trackRoot.attach probe track)} with
    albumOf := Function.update t.albumOf track p}

def removeTrack (track : P) : Option (Tree P) :=
  let album := t.album (t.albumOf track)
  (rbErase cfg album.trackRoot track).map fun trackRoot =>
    t.setAlbum (t.albumOf track) {album with trackRoot}

/-- The names that `tree_add_track` updates where it makes sense, and whether it did. -/
def updateNames (artist : Artist P) (tags : Tags) : Artist P × Bool :=
  let (artist, changed) :=
    match artist.sortName, tags.artistsortName with
    | none, some name => ({artist with sortName := some (toName cfg name)}, true)
    | _, _ => (artist, false)
  match artist.autoSortName, autoArtistSortName tags.artistName with
  | none, some auto =>
    ({artist with
        name := toName cfg tags.artistName, autoSortName := some (toName cfg auto)}, true)
  | _, _ => (artist, changed)

/-- An artist whose names were written to is taken out and put in again. -/
def relinkArtist (p : P) (changed : Bool) : Option (Tree P) :=
  if changed then (t.removeArtist cfg p).map fun t => t.addArtist cfg p else some t

/-- So is an album whose dates were written to. -/
def relinkAlbum (p : P) : Option (Tree P) := (t.removeAlbum cfg p).map fun t => t.addAlbum cfg p

/-- If it makes sense to update the album's dates, do it. -/
def updateDates (p : P) (date : Int) : Option (Tree P) := do
  let album := t.album p
  let t ←
    if album.date < date then (t.setAlbum p {album with date}).relinkAlbum cfg p else some t
  let album := t.album p
  if album.minDate ≤ 0 ∨ (date < album.minDate ∧ 0 < date) then
    (t.setAlbum p {album with minDate := date}).relinkAlbum cfg p
  else some t

/-- The tree with the track, and the album given to `add_album_cb`. -/
def treeAddTrack (info : P → TrackInfo) (track : P) : Option (Tree P × Option P) := do
  let tags := tags (info track)
  let newArtist := artistNew cfg tags.artistName tags.artistsortName tags.isVaCompilation
  match t.findArtist cfg newArtist with
  | some artist =>
    let newAlbum := albumNew cfg artist tags.albumName tags.albumsortName tags.date
    let found := t.findAlbum newAlbum
    let (updated, changed) := updateNames cfg (t.artist artist) tags
    let t ← (t.setArtist artist updated).relinkArtist cfg artist changed
    match found with
    | some album =>
      let t ← (t.albumAddTrack cfg info album track).updateDates cfg album tags.date
      some (t, none)
    | none =>
      let album := cfg.malloc t.allAlbums
      let t := (t.setAlbum album newAlbum).addAlbum cfg album
      some (t.albumAddTrack cfg info album track, some album)
  | none =>
    let artist := cfg.malloc t.artists
    let album := cfg.malloc t.allAlbums
    let newAlbum := albumNew cfg artist tags.albumName tags.albumsortName tags.date
    let t := ((t.setArtist artist newArtist).setAlbum album newAlbum).addArtist cfg artist
    some ((t.addAlbum cfg album).albumAddTrack cfg info album track, some album)

/-- The tree without the track, and the album given to `remove_album_cb`. -/
def treeRemove (track : P) : Option (Tree P × Option P) := do
  let album := t.albumOf track
  let t ← t.removeTrack cfg track
  if (t.album album).trackRoot.isEmpty then
    let artist := (t.album album).artist
    let t ← t.removeAlbum cfg album
    if (t.artist artist).albumRoot.isEmpty then
      let t ← t.removeArtist cfg artist
      some (t, some album)
    else some (t, some album)
  else some (t, none)

end Tree

end GracefulMusic.Lib
