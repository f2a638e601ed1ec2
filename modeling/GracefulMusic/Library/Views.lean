import GracefulMusic.Foundation.HashTable
import GracefulMusic.Tracks.Editable
import GracefulMusic.Expr.ShortForm

/-! The library (`lib.c`).

The store is a hash table of track infos by filename. The views show the part of it that
the filters let through: a track for each info, in the editable `lib_editable`, in the
shuffle tree and in the artist tree. The last two are kept as the lists of the tracks
they hold. Cursors and window positions are left out. -/
namespace GracefulMusic.Lib
open Tracks GracefulMusic.Expr

/-! ### The store -/

def hashStr (s : Text) : UInt32 :=
  let h := s.foldl (fun h c => (h * 33) ^^^ c.toUInt32) 5381
  h ^^^ (h >>> 16)

def fhSize : Nat := 1024

/-- `ti_hash`, with `hash_insert` and `hash_remove`. -/
def tiTable : HashTable TrackInfo Text where
  size := fhSize
  key := TrackInfo.filename
  place filename := (hashStr filename).toNat % fhSize
  place_lt _ := Nat.mod_lt _ (by decide)

/-! ### Plain live filters -/

/-- The substring searches of `uchar.c`, with their case folding. -/
structure Search where
  strcasestrBase : Text → Text → Bool
  strcasestrFilename : Text → Text → Bool

def getWords (text : Text) : List Text := (text.splitOn (ch ' ')).filter (· ≠ [])

def isUrl (name : Text) : Bool :=
  isHttpUrl name || (ascii "cdda://").isPrefixOf name || (ascii "cue://").isPrefixOf name

def pathBasename (path : Text) : Text := (path.reverse.takeWhile (· ≠ ch '/')).reverse

def matchWord (s : Search) (ti : TrackInfo) (word : Text) : Bool :=
  [ti.artist, ti.album, ti.title, ti.albumartist].any fun field =>
    field.any fun text => s.strcasestrBase text word

/-- `track_info_matches` in all fields: all words match, and there is one. -/
def trackInfoMatches (s : Search) (ti : TrackInfo) (text : Text) : Bool :=
  loop (getWords text) false
where
  loop : List Text → Bool → Bool
    | [], matched => matched
    | word :: rest, _ =>
      -- compare with url or filename without path
      let filename := if isUrl ti.filename then ti.filename else pathBasename ti.filename
      if matchWord s ti word || s.strcasestrFilename filename word then loop rest true else false

/-! ### The library -/

/-- What the library is built on. -/
structure Config (P : Type) [DecidableEq P] extends Memory P where
  env : Env
  search : Search

/-- The filters in force. -/
structure InForce where
  filter : Option Expr := none
  addFilter : Option Expr := none
  liveFilter : Option Text := none
  liveFilterExpr : Option Expr := none

structure Library (P : Type) where
  editable : Editable P
  shuffle : List P
  tree : List P
  tiHash : Nat → List TrackInfo
  removeFromHash : Bool
  inForce : InForce

def isFiltered {P : Type} [DecidableEq P] (cfg : Config P) (f : InForce) (ti : TrackInfo) : Bool :=
  f.liveFilterExpr.any (fun e => !e.eval cfg.env ti) ||
  (f.liveFilterExpr.isNone && f.liveFilter.any fun text => !trackInfoMatches cfg.search ti text) ||
  f.filter.any fun e => !e.eval cfg.env ti

namespace Library
variable {P : Type} [DecidableEq P] (cfg : Config P)

/-- The infos of the store, in the order of a walk over it. -/
def store (lib : Library P) : List TrackInfo := tiTable.entries lib.tiHash

/-- The infos that the library shows. -/
def shown (lib : Library P) : List TrackInfo := lib.editable.head.map lib.editable.info

/-- `lib_init`, with the sort keys of the options. -/
def init (clear marked : P → Bool) (info : P → TrackInfo) (sortKeys : List SortKey) : Library P :=
  ⟨.init clear marked info sortKeys, [], [], HashTable.empty, true, {}⟩

def viewsAddTrack (lib : Library P) (ti : TrackInfo) : Library P :=
  let track := cfg.malloc lib.editable.head
  {lib with
    tree := track :: lib.tree
    shuffle := track :: lib.shuffle
    editable := lib.editable.add cfg.rb cfg.fieldCmp track ti}

def libAddTrack (lib : Library P) (ti : TrackInfo) : Library P :=
  if lib.inForce.addFilter.any fun e => !e.eval cfg.env ti then
    -- filter any files excluded by lib_add_filter
    lib
  else
    match tiTable.insert lib.tiHash ti with
    | none => lib -- duplicate files not allowed
    | some tiHash =>
      let lib := {lib with tiHash}
      if isFiltered cfg lib.inForce ti then lib else lib.viewsAddTrack cfg ti

/-- `none` is the `BUG_ON` of `hash_remove`. -/
def freeLibTrack (lib : Library P) (track : P) : Option (Library P) :=
  let tiHash :=
    if lib.removeFromHash then tiTable.remove lib.tiHash (lib.editable.info track).filename
    else some lib.tiHash
  tiHash.map fun tiHash =>
    {lib with tiHash, shuffle := lib.shuffle.erase track, tree := lib.tree.erase track}

/-- `editable_remove_track`, which gives the track to `free_lib_track`. -/
def removeTrack (lib : Library P) (track : P) : Option (Library P) := do
  let editable ← lib.editable.removeTrack cfg.rb track
  {lib with editable}.freeLibTrack track

/-- `editable_remove_matching_tracks` on the library. -/
def removeMatchingTracks (lib : Library P) (cb : TrackInfo → Bool) : Option (Library P) :=
  lib.editable.head.foldlM
    (fun lib t => if cb (lib.editable.info t) then lib.removeTrack cfg t else some lib) lib

/-- `editable_clear` on the library. -/
def clear (lib : Library P) : Option (Library P) := lib.removeMatchingTracks cfg fun _ => true

def hashAddToViews (lib : Library P) : Library P :=
  lib.store.foldl
    (fun lib ti => if isFiltered cfg lib.inForce ti then lib else lib.viewsAddTrack cfg ti) lib

def doLibFilter (lib : Library P) (clearBefore : Bool) : Option (Library P) :=
  let lib := {lib with removeFromHash := false}
  let filtered :=
    if clearBefore then (lib.clear cfg).map fun lib => lib.hashAddToViews cfg
    else lib.removeMatchingTracks cfg (isFiltered cfg lib.inForce)
  filtered.map fun lib => {lib with removeFromHash := true}

def libSetFilter (lib : Library P) (expr : Option Expr) : Option (Library P) :=
  let clearBefore := lib.inForce.liveFilter.isSome || lib.inForce.filter.isSome
  doLibFilter cfg {lib with inForce := {lib.inForce with
    filter := expr, liveFilter := none, liveFilterExpr := none}} clearBefore

def libSetAddFilter (lib : Library P) (expr : Option Expr) : Library P :=
  {lib with inForce := {lib.inForce with addFilter := expr}}

/-- Determine if filter results could grow, in which case all tracks must be cleared and
re-added. -/
def doClearBefore (f : InForce) (str : Option Text) (expr : Option Expr) : Bool :=
  match f.liveFilter, str with
  | none, _ => false
  | some _, none => true
  | some live, some text =>
    if (expr.isNone && f.liveFilterExpr.isSome) || (expr.isSome && f.liveFilterExpr.isNone) then
      true
    else if expr.all Expr.isHarmless then !decide (live <:+: text)
    else true

/-- The expression of a live filter in short form; `none` if it does not parse. -/
def liveExpr (str : Option Text) : Option (Option Expr) :=
  match str with
  | none => some none
  | some text =>
    if exprIsShort text then (exprParse cfg.env text).toOption.map some else some none

def libSetLiveFilter (lib : Library P) (str : Option Text) : Option (Library P) :=
  if str = lib.inForce.liveFilter then some lib
  else
    match liveExpr cfg str with
    | none => some lib
    | some expr =>
      doLibFilter cfg {lib with inForce := {lib.inForce with
        liveFilter := str, liveFilterExpr := expr}} (doClearBefore lib.inForce str expr)

/-- Only the tracks that are shown are looked through. -/
def libRemove (lib : Library P) (ti : TrackInfo) : Option (Library P) :=
  match lib.editable.head.find? fun t => lib.editable.info t = ti with
  | some track => lib.removeTrack cfg track
  | none => some lib

def libClearStore (lib : Library P) : Library P := {lib with tiHash := HashTable.empty}

end Library

/-! ### Runs -/

inductive Op where
  | addTrack (ti : TrackInfo)
  | remove (ti : TrackInfo)
  | setFilter (expr : Option Expr)
  | setAddFilter (expr : Option Expr)
  | setLiveFilter (text : Option Text)

def step {P : Type} [DecidableEq P] (cfg : Config P) (lib : Library P) :
    Op → Option (Library P)
  | .addTrack ti => some (lib.libAddTrack cfg ti)
  | .remove ti => lib.libRemove cfg ti
  | .setFilter expr => lib.libSetFilter cfg expr
  | .setAddFilter expr => some (lib.libSetAddFilter expr)
  | .setLiveFilter text => lib.libSetLiveFilter cfg text

end GracefulMusic.Lib
