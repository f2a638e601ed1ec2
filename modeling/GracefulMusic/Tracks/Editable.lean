import GracefulMusic.Foundation.OrderedTree
import GracefulMusic.Foundation.Sequence
import GracefulMusic.TrackInfo

/-! Sorted track lists (`track.c`).

The tracks are cells of a doubly linked list; a search tree indexes them, with one
node for each run of equal tracks. A track carries its own tree node, and an unused
node is marked by pointing at itself (`RB_CLEAR_NODE`, read by `RB_EMPTY_NODE`), so
the marks are state of the tracks, outliving the list and tree they were made for:
a rebuild moves the tracks to a new list and tree and takes their marks along.

The tree's own functions are used within their contract only. `rb_next`,
`rb_replace_node` and `rb_erase` on a node that is in no tree have none, and a call
of that kind is `none` here. `rb_erase` does not mark the node it takes out. -/
namespace GracefulMusic.Tracks
variable {P : Type} [DecidableEq P]

/-- A list head, its tree root, and the marks of the tracks: `clear p` is
`RB_EMPTY_NODE(&p->tree_node)`. -/
structure Index (P : Type) where
  head : List P
  tree : OrderedTree P
  clear : P → Bool

/-- An empty list and tree; the marks are the tracks' own. -/
def Index.empty (clear : P → Bool) : Index P := ⟨[], .leaf, clear⟩

/-- `rb_next` of a node of the tree. -/
def rbNext (t : OrderedTree P) (p : P) : Option P := Sequence.after t.toList p

/-- `rb_replace_node`. -/
def rbReplaceNode (t : OrderedTree P) (victim new : P) : OrderedTree P :=
  t.map fun p => if p = victim then new else p

section
variable (rb : OrderedTree.Balancing P) (cmp : P → P → Int)

def sortedListAddTrack (s : Index P) (track : P) (tiebreak : Int) : Index P :=
  -- try to locate track in tree
  let probe := cmp track
  match s.tree.locate probe with
  | some parent =>
    -- duplicate is present in the tree
    if tiebreak < 0 then
      { head := Sequence.insertBefore track (some parent) s.head
        tree := rbReplaceNode s.tree parent track
        clear := Function.update (Function.update s.clear track false) parent true }
    else {s with head := Sequence.insertBefore track (rbNext s.tree parent) s.head}
  | none =>
    let tree := rb.rebalance (s.tree.attach probe track)
    let node := match s.tree.lastProbed probe with
      | some (parent, result) => if result < 0 then some parent else rbNext tree track
      | none => none
    { head := Sequence.insertBefore track node s.head
      tree
      clear := Function.update s.clear track false }

def sortedListRemoveTrack (s : Index P) (track : P) : Option (Index P) :=
  if s.clear track then some {s with head := s.head.erase track}
  else if track ∈ s.tree.toList then
    let nextTrack := Sequence.after s.head track
    let treeNext := rbNext s.tree track
    match nextTrack with
    | some next =>
      if treeNext ≠ some next then
        some
          { head := s.head.erase track
            tree := rbReplaceNode s.tree track next
            clear := Function.update (Function.update s.clear next false) track true }
      else some {s with head := s.head.erase track, tree := rb.remove s.tree track}
    | none => some {s with head := s.head.erase track, tree := rb.remove s.tree track}
  else none

/-- `shuffled` is what `shuffle_array` makes of the tracks collected from the list.
The empty key list compares all tracks equal. -/
def randListRebuild (s : Index P) (shuffled : List P) : Option (Index P) := do
  let removed ← s.head.foldlM (sortedListRemoveTrack rb) s
  some (shuffled.foldl (fun tmp track => sortedListAddTrack rb (fun _ _ => 0) tmp track 0)
    (Index.empty removed.clear))

/-- One track goes from the old list and tree to the temporary ones. -/
def rebuildStep (s : Index P × Index P) (track : P) : Option (Index P × Index P) := do
  let old ← sortedListRemoveTrack rb s.1 track
  let tmp := sortedListAddTrack rb cmp {s.2 with clear := old.clear} track 0
  some ({old with clear := tmp.clear}, tmp)

def sortedListRebuild (s : Index P) : Option (Index P) := do
  let (_, tmp) ← s.head.foldlM (rebuildStep rb cmp) (s, Index.empty s.clear)
  some tmp

end

end GracefulMusic.Tracks

/-! Editable track lists (`editable.c`).

An editable is a sorted track list with counters and marks. `P` is the type of track
pointers; what a track points at (`info`, `marked`) is looked up in the state, so
that a pointer stays itself while its track changes. `sortKeys` is the key list of
the `editable_shared`. The window is a separate object: the selected track, where an
operation asks for it, is an argument.

Removed tracks go to the owner's `free_track`; the operations here drop them. -/
namespace GracefulMusic.Tracks

structure Editable (P : Type) where
  index : Index P
  info : P → TrackInfo
  marked : P → Bool
  nrTracks : Nat
  nrMarked : Nat
  totalTime : UInt32
  sortKeys : List SortKey

namespace Editable
variable {P : Type} [DecidableEq P]

abbrev head (e : Editable P) : List P := e.index.head

abbrev tree (e : Editable P) : List P := e.index.tree.toList

/-- `editable_init`; the tracks' memory is arbitrary. -/
def init (clear marked : P → Bool) (info : P → TrackInfo) (sortKeys : List SortKey) :
    Editable P :=
  ⟨Index.empty clear, info, marked, 0, 0, 0, sortKeys⟩

/-- Streams and unreadable files have duration -1. -/
def time (ti : TrackInfo) : UInt32 := if ti.duration ≠ -1 then UInt32.ofInt ti.duration else 0

/-- Writing a track's mark, with the counter. -/
def setMark (e : Editable P) (t : P) (mark : Bool) : Editable P :=
  {e with
    marked := Function.update e.marked t mark
    nrMarked := e.nrMarked - (e.marked t).toNat + mark.toNat}

section
variable (rb : OrderedTree.Balancing P) (fieldCmp : SortField → TrackInfo → TrackInfo → Int)

/-- How two tracks compare under the keys in force. -/
def trackCmp (e : Editable P) (a b : P) : Int :=
  trackInfoCmp fieldCmp (e.info a) (e.info b) e.sortKeys

/-- `simple_track_init`: a fresh track holding `ti`. -/
def initTrack (e : Editable P) (track : P) (ti : TrackInfo) : Editable P :=
  {e with
    info := Function.update e.info track ti
    marked := Function.update e.marked track false
    index := {e.index with clear := Function.update e.index.clear track true}}

def doEditableAdd (e : Editable P) (track : P) (tiebreak : Int) : Editable P :=
  {e with
    index := sortedListAddTrack rb (e.trackCmp fieldCmp) e.index track tiebreak
    nrTracks := e.nrTracks + 1
    totalTime := e.totalTime + time (e.info track)}

def add (e : Editable P) (track : P) (ti : TrackInfo) : Editable P :=
  (e.initTrack track ti).doEditableAdd rb fieldCmp track 1

def addBefore (e : Editable P) (track : P) (ti : TrackInfo) : Editable P :=
  (e.initTrack track ti).doEditableAdd rb fieldCmp track (-1)

def removeTrack (e : Editable P) (track : P) : Option (Editable P) := do
  let index ← sortedListRemoveTrack rb e.index track
  some {e with
    index
    nrTracks := e.nrTracks - 1
    nrMarked := e.nrMarked - (e.marked track).toNat
    totalTime := e.totalTime - time (e.info track)}

/-- The removal loops: each walks the list, holding the next item before it removes
the current one. -/
def removeWhere (p : P → Bool) (e : Editable P) : Option (Editable P) :=
  e.head.foldlM (fun e t => if p t then e.removeTrack rb t else some e) e

def removeSel (e : Editable P) (sel : Option P) : Option (Editable P) :=
  if e.nrMarked ≠ 0 then
    -- treat marked tracks as selected
    e.removeWhere rb e.marked
  else
    match sel with
    | some t => e.removeTrack rb t
    | none => some e

def removeMatchingTracks (e : Editable P) (cb : TrackInfo → Bool) : Option (Editable P) :=
  e.removeWhere rb fun t => cb (e.info t)

def clear (e : Editable P) : Option (Editable P) := e.removeWhere rb fun _ => true

/-- `editable_shared_set_sort_keys` and `editable_sort`. -/
def sort (e : Editable P) (keys : List SortKey) : Option (Editable P) :=
  let e := {e with sortKeys := keys}
  if e.nrTracks ≤ 1 then some e
  else do
    let index ← sortedListRebuild rb (e.trackCmp fieldCmp) e.index
    some {e with index}

def rand (e : Editable P) (shuffled : List P) : Option (Editable P) :=
  if e.nrTracks ≤ 1 then some e
  else do
    let index ← randListRebuild rb e.index shuffled
    some {e with index}

end

/-! ### Marks -/

def toggleMark (e : Editable P) (sel : Option P) : Editable P :=
  match sel with
  | some t => e.setMark t (!e.marked t)
  | none => e

/-- `filter` evaluates the expression, everything matches without one. -/
def mark (e : Editable P) (filter : TrackInfo → Bool) : Editable P :=
  e.head.foldl (fun e t => e.setMark t (filter (e.info t))) e

def unmark (e : Editable P) : Editable P := e.head.foldl (fun e t => e.setMark t false) e

def invertMarks (e : Editable P) : Editable P :=
  e.head.foldl (fun e t => e.setMark t (!e.marked t)) e

/-! ### Moving -/

/-- The index follows a changed first track; `none` where there is no track or no
node to follow with. -/
def resetTree (e : Editable P) : Option (Editable P) :=
  match e.tree.head?, e.head.head? with
  | some old, some firstTrack =>
    if old ≠ firstTrack then
      some {e with index := {e.index with
        tree := rbReplaceNode e.index.tree old firstTrack
        clear := Function.update (Function.update e.index.clear firstTrack false) old true}}
    else some e
  | _, _ => none

/-- The moved tracks are pushed on a temporary list, which reverses them, and linked
one after the other behind `after`, which reverses them back. -/
def moveSel (e : Editable P) (sel : Option P) (after : Option P) : Option (Editable P) :=
  let (rest, tmp) :=
    if e.nrMarked ≠ 0 then
      (e.head.filter fun t => !e.marked t, (e.head.filter e.marked).reverse)
    else
      match sel with
      | some t => (e.head.erase t, [t])
      | none => (e.head, [])
  let head := tmp.foldl (fun head item => Sequence.insertAfter item after head) rest
  {e with index := {e.index with head}}.resetTree

/-- The first unmarked track, or the head, going back from a position. -/
def skipMarked (e : Editable P) (back : List P) : Option P := back.find? fun t => !e.marked t

def findInsertAfterPoint (e : Editable P) (item : P) : Option P :=
  if e.nrMarked = 0 then
    -- move the selected track down one row
    Sequence.after e.head item
  else e.skipMarked (item :: (Sequence.before e.head item).reverse)

/-- Before the first track comes the head, and before the head the last track. -/
def findInsertBeforePoint (e : Editable P) (item : P) : Option P :=
  let back := (Sequence.before e.head item).reverse
  if e.nrMarked = 0 then
    -- move the selected track up one row
    match back with
    | [] => e.head.getLast?
    | _ :: rest => rest.head?
  else e.skipMarked back

def moveAfter (e : Editable P) (sel : Option P) : Option (Editable P) :=
  if e.nrTracks ≤ 1 ∨ e.sortKeys ≠ [] then some e
  else
    match sel with
    | some t => e.moveSel sel (e.findInsertAfterPoint t)
    | none => some e

def moveBefore (e : Editable P) (sel : Option P) : Option (Editable P) :=
  if e.nrTracks ≤ 1 ∨ e.sortKeys ≠ [] then some e
  else
    match sel with
    | some t => e.moveSel sel (e.findInsertBeforePoint t)
    | none => some e

end Editable

/-- What the owners of editables have in common: the balancing of the index trees, the
comparison of fields, and fresh memory for a track. -/
structure Memory (P : Type) [DecidableEq P] where
  rb : OrderedTree.Balancing P
  fieldCmp : SortField → TrackInfo → TrackInfo → Int
  malloc : List P → P
  malloc_fresh : ∀ l, malloc l ∉ l

theorem lt_foldr_max (l : List Nat) : ∀ n ∈ l, n < l.foldr max 0 + 1 := by
  induction l with
  | nil => nofun
  | cons a l ih =>
    intro n hn
    rw [List.foldr_cons]
    rcases List.mem_cons.mp hn with rfl | hn
    · omega
    · have := ih n hn
      omega

/-- Numbers for pointers, tracks that all compare equal, and trees as they grow. -/
def plainMemory : Memory Nat where
  rb := .none
  fieldCmp _ _ _ := 0
  malloc l := l.foldr max 0 + 1
  malloc_fresh l h := absurd (lt_foldr_max l _ h) (Nat.lt_irrefl _)

/-! ### Runs -/

/-- The operations, with what each finds outside the editable: a fresh track, the
selected track, the callback's verdicts, the outcome of the shuffle. -/
inductive Op (P : Type) where
  | add (track : P) (ti : TrackInfo)
  | addBefore (track : P) (ti : TrackInfo)
  | removeTrack (track : P)
  | removeSel (sel : Option P)
  | removeMatchingTracks (cb : TrackInfo → Bool)
  | clear
  | sort (keys : List SortKey)
  | rand (shuffled : List P)
  | moveAfter (sel : Option P)
  | moveBefore (sel : Option P)
  | toggleMark (sel : Option P)
  | mark (filter : TrackInfo → Bool)
  | unmark
  | invertMarks

variable {P : Type} [DecidableEq P]

/-- One operation; `none` where a tree function is called outside its contract. -/
def step (rb : OrderedTree.Balancing P) (fieldCmp : SortField → TrackInfo → TrackInfo → Int)
    (e : Editable P) : Op P → Option (Editable P)
  | .add track ti => some (e.add rb fieldCmp track ti)
  | .addBefore track ti => some (e.addBefore rb fieldCmp track ti)
  | .removeTrack track => e.removeTrack rb track
  | .removeSel sel => e.removeSel rb sel
  | .removeMatchingTracks cb => e.removeMatchingTracks rb cb
  | .clear => e.clear rb
  | .sort keys => e.sort rb fieldCmp keys
  | .rand shuffled => e.rand rb shuffled
  | .moveAfter sel => e.moveAfter sel
  | .moveBefore sel => e.moveBefore sel
  | .toggleMark sel => some (e.toggleMark sel)
  | .mark filter => some (e.mark filter)
  | .unmark => some e.unmark
  | .invertMarks => some e.invertMarks

/-- What the callers see to: a track that is added is not in the list yet, one that is
removed is, the window selects a row of the list, a shuffle is a permutation. -/
def Op.Legal (e : Editable P) : Op P → Prop
  | .add track _ => track ∉ e.head
  | .addBefore track _ => track ∉ e.head
  | .removeTrack track => track ∈ e.head
  | .removeSel sel => ∀ t ∈ sel, t ∈ e.head
  | .rand shuffled => shuffled.Perm e.head
  | .moveAfter sel => ∀ t ∈ sel, t ∈ e.head
  | .moveBefore sel => ∀ t ∈ sel, t ∈ e.head
  | .toggleMark sel => ∀ t ∈ sel, t ∈ e.head
  | _ => True

instance (e : Editable P) (op : Op P) : Decidable (op.Legal e) := by
  cases op <;> unfold Op.Legal <;> infer_instance

end GracefulMusic.Tracks
