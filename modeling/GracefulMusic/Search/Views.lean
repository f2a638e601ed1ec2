import GracefulMusic.Library.NextTrack
import GracefulMusic.Search.Searchable

/-! What the views search in (`tree.c`, `pl.c`, `track.c`, `browser.c`).

The tree is searched track by track, whatever is expanded; where the search is restricted, from
each track to the first one of the next album. The sorted list and the browser are searched row
by row. The playlists have a row each, and one for each of their tracks. What is selected when
a row matches is left out. -/
namespace GracefulMusic.Searching
open Sequence Lib

/-! ### Both ways -/

namespace Direction
variable {α β : Type*} (dir : Direction)

/-- A list as one comes by it. -/
def order (l : List α) : List α :=
  match dir with
  | .forward => l
  | .backward => l.reverse

def first (l : List α) : Option α :=
  match dir with
  | .forward => l.head?
  | .backward => l.getLast?

def neighbour [DecidableEq α] (l : List α) (a : α) : Option α :=
  match dir with
  | .forward => after l a
  | .backward => (before l a).getLast?

variable {dir} {l : List α} {a : α}

@[simp]
theorem mem_order : a ∈ dir.order l ↔ a ∈ l := by cases dir <;> simp [order]

variable (dir) in
theorem order_nodup (hl : l.Nodup) : (dir.order l).Nodup := by
  cases dir with
  | forward => exact hl
  | backward => exact List.nodup_reverse.mpr hl

theorem first_eq : dir.first l = (dir.order l).head? := by cases dir <;> simp [first, order]

theorem order_ne_nil (hl : l ≠ []) : dir.order l ≠ [] := by cases dir <;> simpa [order] using hl

theorem order_flatMap (row : α → List β) :
    dir.order (l.flatMap row) = (dir.order l).flatMap fun a => dir.order (row a) := by
  cases dir with
  | forward => rfl
  | backward => exact List.reverse_flatMap

variable (dir) in
theorem linked {owners : List α} {row : α → List β} {owner : β → α}
    (h : Rows.Linked owners row owner) :
    Rows.Linked (dir.order owners) (fun a => dir.order (row a)) owner :=
  ⟨fun a ha => order_nodup dir (h.nodup a (mem_order.mp ha)),
    fun a ha b hb => h.back a (mem_order.mp ha) b (mem_order.mp hb)⟩

variable (dir) in
theorem neighbour_eq [DecidableEq α] (hl : l.Nodup) (ha : a ∈ l) :
    dir.neighbour l a = after (dir.order l) a := by
  cases dir with
  | forward => rfl
  | backward =>
    obtain ⟨front, back, rfl⟩ := List.append_of_mem ha
    have hnot := (List.nodup_middle.mp hl).notMem
    have hfront : a ∉ front := fun hmem => hnot (List.mem_append_left _ hmem)
    have hback : a ∉ back.reverse := fun hmem =>
      hnot (List.mem_append_right _ (List.mem_reverse.mp hmem))
    simp only [neighbour, order]
    rw [before_split rfl hfront, List.reverse_append, List.reverse_cons, List.append_assoc,
      List.singleton_append, after_split _ hback, List.head?_reverse]

end Direction

/-! ### Iterators (`iter.h`) -/

/-- The list with its head, the row, and for a row of a playlist that playlist. -/
structure Iter (H P : Type) where
  data0 : Option H
  data1 : Option P
  data2 : Option H
deriving DecidableEq

section
variable {H P : Type} [DecidableEq P] (dir : Direction) (items : H → List P)

/-- `GENERIC_ITER_PREV` and `GENERIC_ITER_NEXT`. -/
def genericIter (iter : Iter H P) : Option (Iter H P) :=
  match iter.data0 with
  | none => none
  | some head =>
    let e :=
      match iter.data1 with
      | none => dir.first (items head) -- head, get last or first
      | some e => dir.neighbour (items head) e
    e.map fun e => {iter with data1 := some e}

def genericIterPrev : Iter H P → Option (Iter H P) := genericIter .backward items

def genericIterNext : Iter H P → Option (Iter H P) := genericIter .forward items

end

/-! ### Matching (`track_info.c`) -/

/-- The `TI_MATCH_` flags. -/
inductive MatchFlag where
  | artist
  | album
  | title
  | albumartist

def MatchFlag.field (ti : TrackInfo) : MatchFlag → Option Text
  | .artist => ti.artist
  | .album => ti.album
  | .title => ti.title
  | .albumartist => ti.albumartist

section
variable (strs : Lib.Search) (ti : TrackInfo)

def matchWord (word : Text) (flags : List MatchFlag) : Bool :=
  flags.any fun flag => (flag.field ti).any fun text => strs.strcasestrBase text word

def flagsSet (flags : List MatchFlag) : Bool := flags.any fun flag => (flag.field ti).isSome

def trackInfoMatchesFull (text : Text) (flags excludeFlags : List MatchFlag)
    (matchAllWords : Bool) : Bool :=
  loop (getWords text) false
where
  loop : List Text → Bool → Bool
    | [], matched => matched
    | word :: rest, _ =>
      -- compare with url or filename without path
      let filename := if isUrl ti.filename then ti.filename else pathBasename ti.filename
      let matched := (flagsSet ti flags && matchWord strs ti word flags) ||
        strs.strcasestrFilename filename word
      let matched := matched && !(flagsSet ti excludeFlags && matchWord strs ti word excludeFlags)
      if (if matchAllWords then !matched else matched) then matched else loop rest matched

def trackInfoMatches (text : Text) (flags : List MatchFlag) : Bool :=
  trackInfoMatchesFull strs ti text flags [] true

def simpleTrackSearchMatches (restricted : Bool) (text : Text) : Bool :=
  let flags := if !restricted then [.artist, .album, .albumartist] else []
  trackInfoMatches strs ti text (.title :: flags)

end

/-! ### The library tree -/

/-- `lib_artist_root`, with the track that is selected in the window of the tracks and the
artist that is selected in that of the tree. -/
structure TreeView (H P : Type) [DecidableEq P] where
  cfg : TreeConfig P
  tree : Lib.Tree P
  linked : Lib.Tree.Linked cfg tree
  full : tree.Full
  libArtistRoot : H
  info : P → TrackInfo
  trackSel : Option P
  artistSel : Option P
  trackSel_mem : ∀ track ∈ trackSel, track ∈ tree.allTracks
  artistSel_mem : tree.artists ≠ [] → ∃ artist ∈ artistSel, artist ∈ tree.artists

namespace TreeView
variable {H P : Type} [DecidableEq P] (v : TreeView H P) (dir : Direction) (restricted : Bool)

def treeSearchTrackToIter (track : P) : Iter H P := ⟨some v.libArtistRoot, some track, none⟩

def albumEnd (album : P) : Option P := dir.first (v.tree.tracks album)

def artistEnd (artist : P) : Option P := (dir.first (v.tree.albums artist)).bind (v.albumEnd dir)

/-- `tree_search_get_prev` and `tree_search_get_next`. -/
def treeSearchGet (iter : Iter H P) : Option (Iter H P) :=
  match iter.data0 with
  | none => none
  | some _ =>
    let track :=
      match iter.data1 with
      | none => (dir.first v.tree.artists).bind (v.artistEnd dir) -- head
      | some track =>
        let album := v.tree.albumOf track
        let artist := (v.tree.album album).artist
        match if restricted then none else dir.neighbour (v.tree.tracks album) track with
        | some track => some track
        | none =>
          match dir.neighbour (v.tree.albums artist) album with
          | some album => v.albumEnd dir album
          | none => (dir.neighbour v.tree.artists artist).bind (v.artistEnd dir)
    track.map fun track => {iter with data1 := some track}

def treeSearchGetPrev : Iter H P → Option (Iter H P) := v.treeSearchGet .backward restricted

def treeSearchGetNext : Iter H P → Option (Iter H P) := v.treeSearchGet .forward restricted

def treeSearchGetCurrent : Option (Iter H P) :=
  if v.tree.artists = [] then none
  else
    match v.trackSel with
    | some track => some (v.treeSearchTrackToIter track)
    | none => (v.artistSel.bind v.tree.artistFirstTrack).map v.treeSearchTrackToIter

def treeSearchMatches (strs : Lib.Search) (iter : Iter H P) (text : Text) : Bool :=
  let flags := [.artist, .album, .albumartist]
  let flags := if !restricted then .title :: flags else flags
  iter.data1.any fun track => trackInfoMatches strs (v.info track) text flags

def searchable (strs : Lib.Search) : Searchable (Iter H P) where
  head := ⟨some v.libArtistRoot, none, none⟩
  getPrev := v.treeSearchGetPrev restricted
  getNext := v.treeSearchGetNext restricted
  getCurrent := v.treeSearchGetCurrent
  isMatch := v.treeSearchMatches restricted strs

def rows : List (Iter H P) := (dir.order v.tree.allTracks).map v.treeSearchTrackToIter

/-- A restricted search looks at one track of each album, the first one it comes by. -/
def allowed (iter : Iter H P) : Bool :=
  !restricted || iter.data1.any fun track => v.albumEnd dir (v.tree.albumOf track) = some track

end TreeView

/-! ### The sorted list and the browser -/

/-- A list in a window, of tracks or of what is in a directory. -/
structure ListView (H P : Type) where
  head : H
  items : List P
  sel : Option P
  nodup : items.Nodup
  sel_mem : ∀ e ∈ sel, e ∈ items
  sel_none : sel = none → items = []

namespace ListView
variable {H P : Type} [DecidableEq P] (v : ListView H P) (dir : Direction)

def toIter (e : P) : Iter H P := ⟨some v.head, some e, none⟩

/-- `window_get_sel`. -/
def windowGetSel : Option (Iter H P) := v.sel.map v.toIter

def searchable (isMatch : P → Text → Bool) : Searchable (Iter H P) where
  head := ⟨some v.head, none, none⟩
  getPrev := genericIterPrev fun _ => v.items
  getNext := genericIterNext fun _ => v.items
  getCurrent := v.windowGetSel
  isMatch iter text := iter.data1.any fun e => isMatch e text

def rows : List (Iter H P) := (dir.order v.items).map v.toIter

end ListView

def browserSearchMatches (strs : Lib.Search) (name : Text) (text : Text) : Bool :=
  let words := getWords text
  words ≠ [] && words.all fun word => strs.strcasestrFilename name word

/-! ### The playlists -/

/-- The playlists with their tracks, and what is selected in the window of the tracks. -/
structure PlaylistView (H P : Type) where
  plHead : List H
  tracks : H → List P
  name : H → Text
  info : P → TrackInfo
  plVisible : H
  sel : Option P
  nodup : plHead.Nodup
  tracks_nodup : ∀ pl ∈ plHead, (tracks pl).Nodup
  visible_mem : plVisible ∈ plHead
  sel_mem : ∀ track ∈ sel, track ∈ tracks plVisible

namespace PlaylistView
variable {H P : Type} [DecidableEq H] [DecidableEq P] (v : PlaylistView H P) (dir : Direction)
  (restricted : Bool)

/-- `list_prev` and `list_next`, where the head is `none`. -/
def listStep : Option H → Option H
  | none => dir.first v.plHead
  | some pl => dir.neighbour v.plHead pl

def plSearchGetGeneric (iter : Iter H P) (listStep : Option H → Option H)
    (iterStep : Iter H P → Option (Iter H P)) : Option (Iter H P) :=
  match iterStep iter with
  | some iter => some iter
  | none => (listStep iter.data2).map fun pl => ⟨some pl, none, some pl⟩

def plSearchGetPrev (iter : Iter H P) : Option (Iter H P) :=
  plSearchGetGeneric iter (v.listStep .backward) (genericIterPrev v.tracks)

def plSearchGetNext (iter : Iter H P) : Option (Iter H P) :=
  plSearchGetGeneric iter (v.listStep .forward) (genericIterNext v.tracks)

def plSearchGetCurrent : Option (Iter H P) := some ⟨some v.plVisible, v.sel, some v.plVisible⟩

def plSearchMatches (strs : Lib.Search) (iter : Iter H P) (text : Text) : Bool :=
  let words := getWords text
  let matched := iter.data2.any fun pl =>
    words ≠ [] && words.all fun word => strs.strcasestrBase (v.name pl) word
  matched || iter.data1.any fun track =>
    simpleTrackSearchMatches strs (v.info track) restricted text

def searchable (strs : Lib.Search) : Searchable (Iter H P) where
  head := ⟨none, none, none⟩
  getPrev := v.plSearchGetPrev
  getNext := v.plSearchGetNext
  getCurrent := v.plSearchGetCurrent
  isMatch := v.plSearchMatches restricted strs

def toIter (row : H × Option P) : Iter H P := ⟨some row.1, row.2, some row.1⟩

/-- A playlist in front of its tracks, also backward. -/
def plRows (pl : H) : List (H × Option P) :=
  (pl, none) :: (dir.order (v.tracks pl)).map fun track => (pl, some track)

def rows : List (Iter H P) := ((dir.order v.plHead).flatMap (v.plRows dir)).map toIter

end PlaylistView

/-! ### All views -/

inductive View (H P : Type) [DecidableEq P] where
  | tree (v : TreeView H P)
  | sorted (v : ListView H P) (info : P → TrackInfo)
  | playlists (v : PlaylistView H P)
  | browser (v : ListView H P) (name : P → Text)

namespace View
variable {H P : Type} [DecidableEq H] [DecidableEq P]

def searchable (strs : Lib.Search) (opts : Options) : View H P → Searchable (Iter H P)
  | tree v => v.searchable opts.searchRestricted strs
  | sorted v info =>
    v.searchable fun track => simpleTrackSearchMatches strs (info track) opts.searchRestricted
  | playlists v => v.searchable opts.searchRestricted strs
  | browser v name => v.searchable fun e => browserSearchMatches strs (name e)

omit [DecidableEq H] in
/-- All rows, in the order of the direction. -/
def rows (dir : Direction) : View H P → List (Iter H P)
  | tree v => v.rows dir
  | sorted v _ => v.rows dir
  | playlists v => v.rows dir
  | browser v _ => v.rows dir

omit [DecidableEq H] in
/-- The rows of the kind that the restriction allows. -/
def allowed (opts : Options) (dir : Direction) : View H P → Iter H P → Bool
  | tree v => v.allowed dir opts.searchRestricted
  | _ => fun _ => true

end View
end GracefulMusic.Searching
