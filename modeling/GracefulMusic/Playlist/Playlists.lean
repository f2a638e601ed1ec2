import GracefulMusic.Foundation.Runs
import GracefulMusic.Tracks.Editable

/-! Playlists (`pl.c`).

Playlists are objects in memory, found by their pointers; `plHead` lists those that
exist, and a deleted one lives on until the worker is done with its jobs. The shuffle
tree is kept as the list of its tracks in order. Names, files and window positions are
left out: the selected track and the outcome of a shuffle are arguments. -/
namespace GracefulMusic.Pl
open Tracks

structure Options where
  shuffle : Bool
  repeats : Bool
  follow : Bool
  autoReshuffle : Bool

structure Playlist (P : Type) where
  editable : Editable P
  shuffleRoot : List P

structure Playlists (P : Type) where
  plHead : List Nat
  deleted : List Nat
  playlist : Nat → Playlist P
  visible : Nat
  marked : Nat
  playing : Option Nat
  playingTrack : Option P
  cursorInTrackWindow : Bool
  options : Options

/-! ### Shuffle lists (`track.c`) -/

section
variable {P : Type} [DecidableEq P]

/-- Right behind `previous`, at the front without one. -/
def shuffleInsert (root : List P) (previous : Option P) (next : P) : List P :=
  if previous = some next then root else Sequence.insertAfter next previous (root.erase next)

/-- `order` is what a reshuffle brings about. -/
def shuffleListGetNext (o : Options) (order root : List P) (cur : Option P) : List P × Option P :=
  let reshuffled := if o.autoReshuffle then order else root
  match cur with
  | none => (reshuffled, reshuffled.head?)
  | some cur =>
    match Sequence.after root cur with
    | some track => (root, some track)
    | none => if o.repeats then (reshuffled, reshuffled.head?) else (root, none)

def shuffleListGetPrev (o : Options) (order root : List P) (cur : P) : List P × Option P :=
  let reshuffled := if o.autoReshuffle then order else root
  match (Sequence.before root cur).getLast? with
  | some track => (root, some track)
  | none => if o.repeats then (reshuffled, reshuffled.getLast?) else (root, none)

def simpleListGetNext (o : Options) (head : List P) (cur : P) : Option P :=
  match Sequence.after head cur with
  | some track => some track
  | none => if o.repeats then head.head? else none

def simpleListGetPrev (o : Options) (head : List P) (cur : P) : Option P :=
  match (Sequence.before head cur).getLast? with
  | some track => some track
  | none => if o.repeats then head.getLast? else none

end

/-! ### One playlist -/

namespace Playlist
variable {P : Type} [DecidableEq P] (mem : Memory P)

/-- `editable_remove_track`, which gives the track to `pl_free_track`. -/
def removeTrack (pl : Playlist P) (track : P) : Option (Playlist P) := do
  let editable ← pl.editable.removeTrack mem.rb track
  some ⟨editable, pl.shuffleRoot.erase track⟩

/-- The walks of `editable_clear`, `editable_remove_sel` and `editable_update_track`. -/
def removeWhere (p : P → Bool) (pl : Playlist P) : Option (Playlist P) :=
  pl.editable.head.foldlM (fun pl t => if p t then pl.removeTrack mem t else some pl) pl

def clear (pl : Playlist P) : Option (Playlist P) := pl.removeWhere mem fun _ => true

def removeSel (pl : Playlist P) (sel : Option P) : Option (Playlist P) :=
  if pl.editable.nrMarked ≠ 0 then
    -- treat marked tracks as selected
    pl.removeWhere mem pl.editable.marked
  else
    match sel with
    | some t => pl.removeTrack mem t
    | none => some pl

def updateTrack (pl : Playlist P) (old : TrackInfo) (new : Option TrackInfo) :
    Option (Playlist P) :=
  match new with
  | some new => some {pl with editable := {pl.editable with
      info := fun t =>
        if t ∈ pl.editable.head ∧ pl.editable.info t = old then new else pl.editable.info t}}
  | none => pl.removeWhere mem fun t => pl.editable.info t = old

/-- `pl_add_track`; the shuffle tree takes the track at a random place. -/
def addTrack (pl : Playlist P) (track : P) (ti : TrackInfo) (place : Nat) : Playlist P where
  editable := pl.editable.add mem.rb mem.fieldCmp track ti
  shuffleRoot := pl.shuffleRoot.take place ++ track :: pl.shuffleRoot.drop place

end Playlist

/-! ### All playlists -/

namespace Playlists
variable {P : Type} [DecidableEq P] (mem : Memory P)

def set (s : Playlists P) (id : Nat) (pl : Playlist P) : Playlists P :=
  {s with playlist := Function.update s.playlist id pl}

abbrev head (s : Playlists P) (id : Nat) : List P := (s.playlist id).editable.head

/-- The tracks in memory. -/
def live (s : Playlists P) : List P := (s.plHead ++ s.deleted).flatMap s.head

def plEmpty (s : Playlists P) (id : Nat) : Bool := (s.head id).isEmpty

/-- Selecting a row of the list window; `pl_list_sel_changed` follows it. -/
def select (s : Playlists P) (id : Nat) : Playlists P := {s with visible := id}

def plWinNext (s : Playlists P) : Playlists P :=
  {s with cursorInTrackWindow := !s.cursorInTrackWindow && !s.plEmpty s.visible}

def plSelectPlayingTrack (s : Playlists P) : Playlists P :=
  match s.playingTrack, s.playing with
  | some _, some pl => {s.select pl with cursorInTrackWindow := true}
  | _, _ => s

/-! ### Playing -/

def plPlayTrack (s : Playlists P) (pl : Nat) (t : P) (forceFollow : Bool) : Playlists P :=
  let s := {s with playingTrack := some t, playing := some pl}
  if forceFollow || s.options.follow then s.plSelectPlayingTrack else s

/-- `none` where a list with tracks has no selected one. -/
def plPlaySelectedTrack (s : Playlists P) (sel : Option P) : Option (Playlists P) :=
  if s.plEmpty s.visible then some s
  else sel.map fun t => s.plPlayTrack s.visible t false

/-- The first track, and the playlist after a reshuffle. -/
def plGetFirstTrack (s : Playlists P) (pl : Nat) (order : List P) : Playlists P × Option P :=
  if s.options.shuffle then
    let (root, t) := shuffleListGetNext s.options order (s.playlist pl).shuffleRoot none
    (s.set pl {s.playlist pl with shuffleRoot := root}, t)
  else (s, (s.head pl).head?)

def plPlayFirstInPlPlaying (s : Playlists P) (order : List P) : Option (Playlists P) :=
  let pl := s.playing.getD s.visible
  if s.plEmpty pl then some {s with playing := none}
  else
    let (s, t) := {s with playing := some pl}.plGetFirstTrack pl order
    t.map fun t => s.plPlayTrack pl t false

/-- The track to go to, `forward` or back, and the playlist after a reshuffle. -/
def plGetMove (s : Playlists P) (forward : Bool) (pl : Nat) (cur : P) (order : List P) :
    Playlists P × Option P :=
  if s.options.shuffle then
    let root := (s.playlist pl).shuffleRoot
    let (root, t) :=
      if forward then shuffleListGetNext s.options order root (some cur)
      else shuffleListGetPrev s.options order root cur
    (s.set pl {s.playlist pl with shuffleRoot := root}, t)
  else if forward then (s, simpleListGetNext s.options (s.head pl) cur)
  else (s, simpleListGetPrev s.options (s.head pl) cur)

/-- `pl_goto_generic`; `none` where the playing track is followed after it was freed. -/
def plGotoGeneric (s : Playlists P) (forward : Bool) (order : List P) : Option (Playlists P) :=
  match s.playingTrack with
  | none => s.plPlayFirstInPlPlaying order
  | some cur =>
    match s.playing with
    | none => none
    | some pl =>
      if cur ∈ s.head pl then
        match s.plGetMove forward pl cur order with
        | (s, some track) => some (s.plPlayTrack pl track false)
        | (s, none) => some s
      else none

/-- The part of `pl_play_selected_row` that plays: with shuffle a row of the list window
plays its first track in the shuffle order. -/
def plPlayRow (s : Playlists P) (sel : Option P) (order : List P) : Option (Playlists P) :=
  if !s.cursorInTrackWindow && s.options.shuffle && !s.plEmpty s.visible then
    let pl := s.visible
    let (root, t) := shuffleListGetNext s.options order (s.playlist pl).shuffleRoot none
    let s := s.set pl {s.playlist pl with shuffleRoot := root}
    t.map fun t => s.plPlayTrack pl t true
  else s.plPlaySelectedTrack sel

def plPlaySelectedRow (s : Playlists P) (sel : Option P) (order : List P) :
    Option (Playlists P) :=
  let wasInTrackWindow := s.cursorInTrackWindow
  let prevPl := s.playing
  let prevTrack := s.playingTrack
  let rv := !s.plEmpty s.visible
  (s.plPlayRow sel order).map fun s =>
    let s :=
      if s.options.shuffle ∧ rv ∧ s.playing = prevPl then
        match s.playing, prevTrack, s.playingTrack with
        | some pl, some prev, some cur =>
          s.set pl {s.playlist pl with
            shuffleRoot := shuffleInsert (s.playlist pl).shuffleRoot (some prev) cur}
        | _, _, _ => s
      else s
    {s with cursorInTrackWindow := wasInTrackWindow}

def plReshuffle (s : Playlists P) (order : List P) : Playlists P :=
  match s.playing with
  | none => s
  | some pl =>
    let root := match s.playingTrack with
      | some t => shuffleInsert order none t
      | none => order
    s.set pl {s.playlist pl with shuffleRoot := root}

/-! ### Adding, removing, updating -/

def plAddTrack (s : Playlists P) (id : Nat) (ti : TrackInfo) (place : Nat) : Playlists P :=
  s.set id ((s.playlist id).addTrack mem (mem.malloc s.live) ti place)

def plClearVisiblePl (s : Playlists P) : Option (Playlists P) :=
  let s := if s.cursorInTrackWindow then s.plWinNext else s
  let s := if s.playing = some s.visible then {s with playingTrack := none} else s
  ((s.playlist s.visible).clear mem).map fun pl => s.set s.visible pl

def plClear (s : Playlists P) : Option (Playlists P) :=
  if s.cursorInTrackWindow then s.plClearVisiblePl mem else some s

def plDeleteSelectedTrack (s : Playlists P) (sel : Option P) : Option (Playlists P) :=
  let s := if sel = s.playingTrack then {s with playingTrack := none} else s
  ((s.playlist s.visible).removeSel mem sel).map fun pl =>
    let s := s.set s.visible pl
    if s.plEmpty s.visible then s.plWinNext else s

/-- The list window moves to the next row, or else to the one before. The playlist is
freed later. -/
def plDeleteSelectedPl (s : Playlists P) (answer : Bool) : Playlists P :=
  match (Sequence.after s.plHead s.visible).or (Sequence.before s.plHead s.visible).getLast? with
  | none => s -- cannot delete the last playlist
  | some next =>
    if answer then
      let pl := s.visible
      let s : Playlists P :=
        {s.select next with plHead := s.plHead.erase pl, deleted := pl :: s.deleted}
      let s := if s.marked = pl then {s with marked := s.visible} else s
      if s.playing = some pl then {s with playing := none, playingTrack := none} else s
    else s

def plWinRemove (s : Playlists P) (sel : Option P) (answer : Bool) : Option (Playlists P) :=
  if s.cursorInTrackWindow then s.plDeleteSelectedTrack mem sel
  else some (s.plDeleteSelectedPl answer)

/-- `pl_free`, from the result of the delete job. -/
def plFree (s : Playlists P) (id : Nat) : Option (Playlists P) :=
  ((s.playlist id).clear mem).map fun pl => {s.set id pl with deleted := s.deleted.erase id}

def plUpdateTrack (s : Playlists P) (old : TrackInfo) (new : Option TrackInfo) :
    Option (Playlists P) :=
  s.plHead.foldlM (fun s id => ((s.playlist id).updateTrack mem old new).map (s.set id)) s

/-- `pl_create`: an empty playlist at the end of the list. -/
def plCreate (s : Playlists P) (id : Nat) (clear marked : P → Bool) (info : P → TrackInfo) :
    Playlists P :=
  let keys := (s.playlist s.visible).editable.sortKeys
  {s.set id ⟨.init clear marked info keys, []⟩ with plHead := s.plHead ++ [id]}

/-- The commands on the marks of the visible playlist, in the track window only. -/
def onMarks (s : Playlists P) (f : Editable P → Editable P) : Playlists P :=
  if s.cursorInTrackWindow then
    s.set s.visible {s.playlist s.visible with editable := f (s.playlist s.visible).editable}
  else s

end Playlists

/-! ### Runs -/

/-- The operations, with what each finds outside the playlists: the selected track, the
outcome of a reshuffle, the answer to a question. -/
inductive Op (P : Type) where
  | playSelectedRow (sel : Option P) (order : List P)
  | goto (forward : Bool) (order : List P)
  | reshuffle (order : List P)
  | addTrack (id : Nat) (ti : TrackInfo) (place : Nat)
  | clear
  | reload (answer : Bool)
  | winRemove (sel : Option P) (answer : Bool)
  | freePlaylist (id : Nat)
  | updateTrack (old : TrackInfo) (new : Option TrackInfo)
  | create (id : Nat) (clear marked : P → Bool) (info : P → TrackInfo)
  | select (id : Nat)
  | markPlaylist (id : Nat)
  | winNext
  | toggleMark (sel : Option P)
  | invertMarks
  | unmark
  | setOptions (options : Options)

variable {P : Type} [DecidableEq P]

/-- One operation. A reload only clears here: its tracks come back one by one. -/
def step (mem : Memory P) (s : Playlists P) : Op P → Option (Playlists P)
  | .playSelectedRow sel order => s.plPlaySelectedRow sel order
  | .goto forward order => s.plGotoGeneric forward order
  | .reshuffle order => some (s.plReshuffle order)
  | .addTrack id ti place => some (s.plAddTrack mem id ti place)
  | .clear => s.plClear mem
  | .reload answer => if answer then s.plClearVisiblePl mem else some s
  | .winRemove sel answer => s.plWinRemove mem sel answer
  | .freePlaylist id => s.plFree mem id
  | .updateTrack old new => s.plUpdateTrack mem old new
  | .create id clear marked info => some (s.plCreate id clear marked info)
  | .select id => some (s.select id)
  | .markPlaylist id => some {s with marked := id}
  | .winNext => some s.plWinNext
  | .toggleMark sel => some (s.onMarks fun e => e.toggleMark sel)
  | .invertMarks => some (s.onMarks Editable.invertMarks)
  | .unmark => some (s.onMarks Editable.unmark)
  | .setOptions options => some {s with options}

/-- What holds outside the playlists: the window selects a row of the visible list if it
has one, a reshuffle is a permutation, results belong to playlists in memory, and new
memory is fresh. -/
def Op.Legal (s : Playlists P) : Op P → Prop
  | .playSelectedRow sel order =>
    (∀ t ∈ sel, t ∈ s.head s.visible) ∧ (s.head s.visible ≠ [] → sel ≠ none) ∧
      order.Perm (s.playlist s.visible).shuffleRoot
  | .goto _ order => order.Perm (s.playlist (s.playing.getD s.visible)).shuffleRoot
  | .reshuffle order => ∀ pl ∈ s.playing, order.Perm (s.playlist pl).shuffleRoot
  | .addTrack id _ _ => id ∈ s.plHead ++ s.deleted
  | .winRemove sel _ => ∀ t ∈ sel, t ∈ s.head s.visible
  | .freePlaylist id => id ∈ s.deleted
  | .create id _ _ _ => id ∉ s.plHead ++ s.deleted
  | .select id => id ∈ s.plHead
  | .markPlaylist id => id ∈ s.plHead
  | .toggleMark sel => ∀ t ∈ sel, t ∈ s.head s.visible
  | _ => True

instance (s : Playlists P) (op : Op P) : Decidable (op.Legal s) := by
  cases op <;> unfold Op.Legal <;> infer_instance

/-- `pl_init` after loading the names of the playlists. -/
def initial (ids : List Nat) (first : Nat) (clear marked : P → Bool) (info : P → TrackInfo)
    (keys : List SortKey) (options : Options) : Playlists P where
  plHead := ids
  deleted := []
  playlist _ := ⟨.init clear marked info keys, []⟩
  visible := first
  marked := first
  playing := none
  playingTrack := none
  cursorInTrackWindow := false
  options := options

end GracefulMusic.Pl
