import GracefulMusic.Playlist.PlayingTrack

/-! The two windows of the playlist view (`pl.c`).

`pl_list_win` has a row for each playlist; the playlists share one window for their
tracks, which shows those of the editable that owns it. When another row of the list is
selected, `pl_list_sel_changed` follows it. What sets neither window is a step of the
playlists. Scroll positions are left out, and so is what is drawn. -/
namespace GracefulMusic.Pl
open Tracks

structure View (P : Type) where
  lists : Playlists P
  /-- The selected row of `pl_list_win`. -/
  listSel : Nat
  /-- The playlist that owns the window of the tracks. -/
  owner : Nat

namespace View
variable {P : Type} (v : View P)

/-- `editable_take_ownership`. -/
def takeOwnership (id : Nat) : View P := {v with owner := id}

def plListSelChanged : View P := {v with lists := v.lists.select v.listSel}.takeOwnership v.listSel

/-- `window_set_sel` on the list window. -/
def setListSel (id : Nat) : View P :=
  if v.listSel = id then v else {v with listSel := id}.plListSelChanged

/-- `window_row_vanishes` on the list window, with the row that comes next. -/
def listRowVanishes (id next : Nat) : View P :=
  if v.listSel = id then {v with listSel := next}.plListSelChanged else v

def setCursor (cursor : Bool) : View P :=
  {v with lists := {v.lists with cursorInTrackWindow := cursor}}

def plSelectPlayingTrack : View P :=
  match v.lists.playingTrack, v.lists.playing with
  | some _, some pl => ((v.takeOwnership pl).setListSel pl).setCursor true
  | _, _ => v

def plPlayTrack (pl : Nat) (t : P) (forceFollow : Bool) : View P :=
  let v := {v with lists := {v.lists with playingTrack := some t, playing := some pl}}
  if forceFollow || v.lists.options.follow then v.plSelectPlayingTrack else v

def plPlaySelectedTrack (sel : Option P) : Option (View P) :=
  if v.lists.plEmpty v.lists.visible then some v
  else sel.map fun t => v.plPlayTrack v.lists.visible t false

variable [DecidableEq P]

def plPlayFirstInPlPlaying (order : List P) : Option (View P) :=
  let pl := v.lists.playing.getD v.lists.visible
  if v.lists.plEmpty pl then some {v with lists := {v.lists with playing := none}}
  else
    let (lists, t) := {v.lists with playing := some pl}.plGetFirstTrack pl order
    t.map fun t => {v with lists}.plPlayTrack pl t false

def plGotoGeneric (forward : Bool) (order : List P) : Option (View P) :=
  match v.lists.playingTrack with
  | none => v.plPlayFirstInPlPlaying order
  | some cur =>
    match v.lists.playing with
    | none => none
    | some pl =>
      if cur ∈ v.lists.head pl then
        match v.lists.plGetMove forward pl cur order with
        | (lists, some track) => some ({v with lists}.plPlayTrack pl track false)
        | (lists, none) => some {v with lists}
      else none

def plPlayRow (sel : Option P) (order : List P) : Option (View P) :=
  if !v.lists.cursorInTrackWindow && v.lists.options.shuffle &&
      !v.lists.plEmpty v.lists.visible then
    let pl := v.lists.visible
    let (root, t) :=
      shuffleListGetNext v.lists.options order (v.lists.playlist pl).shuffleRoot none
    let lists := v.lists.set pl {v.lists.playlist pl with shuffleRoot := root}
    t.map fun t => {v with lists}.plPlayTrack pl t true
  else v.plPlaySelectedTrack sel

def plPlaySelectedRow (sel : Option P) (order : List P) : Option (View P) :=
  let wasInTrackWindow := v.lists.cursorInTrackWindow
  let prevPl := v.lists.playing
  let prevTrack := v.lists.playingTrack
  let rv := !v.lists.plEmpty v.lists.visible
  (v.plPlayRow sel order).map fun v =>
    let lists :=
      if v.lists.options.shuffle ∧ rv ∧ v.lists.playing = prevPl then
        match v.lists.playing, prevTrack, v.lists.playingTrack with
        | some pl, some prev, some cur =>
          v.lists.set pl {v.lists.playlist pl with
            shuffleRoot := shuffleInsert (v.lists.playlist pl).shuffleRoot (some prev) cur}
        | _, _, _ => v.lists
      else v.lists
    {v with lists}.setCursor wasInTrackWindow

omit [DecidableEq P] in
def plDeleteSelectedPl (answer : Bool) : View P :=
  match (Sequence.after v.lists.plHead v.lists.visible).or
      (Sequence.before v.lists.plHead v.lists.visible).getLast? with
  | none => v -- cannot delete the last playlist
  | some next =>
    if answer then
      let pl := v.lists.visible
      let v := v.listRowVanishes pl next
      let lists : Playlists P :=
        {v.lists with plHead := v.lists.plHead.erase pl, deleted := pl :: v.lists.deleted}
      let lists := if lists.marked = pl then {lists with marked := lists.visible} else lists
      {v with lists :=
        if lists.playing = some pl then {lists with playing := none, playingTrack := none}
        else lists}
    else v

def plWinRemove (mem : Memory P) (sel : Option P) (answer : Bool) : Option (View P) :=
  if v.lists.cursorInTrackWindow then
    (v.lists.plDeleteSelectedTrack mem sel).map fun lists => {v with lists}
  else some (v.plDeleteSelectedPl answer)

/-- A match of `pl_search_matches`: the name of a playlist, or one of its tracks. -/
def plSearchMatches (id : Nat) (track : Option P) : View P :=
  ((v.setListSel id).takeOwnership id).setCursor track.isSome

end View

namespace Playlists
variable {P : Type} [DecidableEq P] (s : Playlists P)

/-- The moves of the selection, in the track window only. -/
def plWinMv (move : Editable P → Option (Editable P)) : Option (Playlists P) :=
  if s.cursorInTrackWindow then
    (move (s.playlist s.visible).editable).map fun editable =>
      s.set s.visible {s.playlist s.visible with editable}
  else some s

def plWinMvAfter (sel : Option P) : Option (Playlists P) := s.plWinMv (·.moveAfter sel)

def plWinMvBefore (sel : Option P) : Option (Playlists P) := s.plWinMv (·.moveBefore sel)

end Playlists

/-! ### Runs -/

/-- The operations on the playlists, with `select` for the commands that move in the list
window, and those that are about the windows. -/
inductive ViewOp (P : Type) where
  | lists (op : Op P)
  | selectPlayingTrack
  | searchMatches (id : Nat) (track : Option P)
  | winMvAfter (sel : Option P)
  | winMvBefore (sel : Option P)

variable {P : Type} [DecidableEq P]

def View.step (mem : Memory P) (v : View P) : ViewOp P → Option (View P)
  | .lists (.playSelectedRow sel order) => v.plPlaySelectedRow sel order
  | .lists (.goto forward order) => v.plGotoGeneric forward order
  | .lists (.winRemove sel answer) => v.plWinRemove mem sel answer
  | .lists (.select id) => some (v.setListSel id)
  | .lists op => (Pl.step mem v.lists op).map fun lists => {v with lists}
  | .selectPlayingTrack => some v.plSelectPlayingTrack
  | .searchMatches id track => some (v.plSearchMatches id track)
  | .winMvAfter sel => (v.lists.plWinMvAfter sel).map fun lists => {v with lists}
  | .winMvBefore sel => (v.lists.plWinMvBefore sel).map fun lists => {v with lists}

/-- The commands that move in the list window act while the cursor is there. -/
def Op.InListWindow (s : Playlists P) : Op P → Prop
  | .select _ => s.cursorInTrackWindow = false
  | _ => True

instance (s : Playlists P) (op : Op P) : Decidable (op.InListWindow s) := by
  apply Op.casesOn (motive := fun op => Decidable (op.InListWindow s)) op
  case select =>
    intro id
    show Decidable (s.cursorInTrackWindow = false)
    infer_instance
  all_goals
    intros
    exact isTrue trivial

/-- What holds outside: a search finds what is there, and the window of the tracks selects
a track of the visible list. -/
def ViewOp.Legal (v : View P) : ViewOp P → Prop
  | .lists op => op.Legal v.lists ∧ op.InListWindow v.lists
  | .selectPlayingTrack => True
  | .searchMatches id track => id ∈ v.lists.plHead ∧ ∀ t ∈ track, t ∈ v.lists.head id
  | .winMvAfter sel => ∀ t ∈ sel, t ∈ v.lists.head v.lists.visible
  | .winMvBefore sel => ∀ t ∈ sel, t ∈ v.lists.head v.lists.visible

instance (v : View P) (op : ViewOp P) : Decidable (op.Legal v) := by
  apply ViewOp.casesOn (motive := fun op => Decidable (op.Legal v)) op
  all_goals
    intros
    unfold ViewOp.Legal
    infer_instance

/-- `pl_init`: setting the contents of the list window selects its first row. -/
def View.initial (ids : List Nat) (first : Nat) (clear marked : P → Bool) (info : P → TrackInfo)
    (keys : List SortKey) (options : Options) : View P where
  lists := Pl.initial ids first clear marked info keys options
  listSel := first
  owner := first

end GracefulMusic.Pl
