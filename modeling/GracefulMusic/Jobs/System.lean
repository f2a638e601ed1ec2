import GracefulMusic.Jobs.Worker
import GracefulMusic.Library.Views

/-! The main thread and the worker: adding, updating, clearing and saving
(`job.c`, `command_mode.c`, `pl.c`).

A run interleaves moves of the worker with operations of the main thread; handling one
result is one operation. A clear waits for the job that it cancels, so that the worker's
last moves are a part of it. Of the views the tracks are kept. Playlists are numbered as
they come into being, and a deleted one lives on until its result is handled. -/
namespace GracefulMusic.Jobs
open Tracks GracefulMusic.Expr

/-! ### What is added to -/

structure Stores (P : Type) where
  lib : Lib.Library P
  queue : Editable P
  playlist : Nat → Editable P

namespace Stores
variable {P : Type} [DecidableEq P] (cfg : Lib.Config P)

def contents (st : Stores P) : Target → List TrackInfo
  | .lib => st.lib.store
  | .queue => st.queue.head.map st.queue.info
  | .playlist pl => (st.playlist pl).head.map (st.playlist pl).info

/-- `lib_add_track`, `play_queue_append`, `play_queue_prepend` and `pl_add_cb`. -/
def addCb (data : AddData) (st : Stores P) (ti : TrackInfo) : Stores P :=
  match data.target with
  | .lib => {st with lib := st.lib.libAddTrack cfg ti}
  | .queue =>
    let track := cfg.malloc st.queue.head
    {st with queue :=
      if data.prepend then st.queue.addBefore cfg.rb cfg.fieldCmp track ti
      else st.queue.add cfg.rb cfg.fieldCmp track ti}
  | .playlist pl =>
    let e := st.playlist pl
    let e := e.add cfg.rb cfg.fieldCmp (cfg.malloc e.head) ti
    {st with playlist := Function.update st.playlist pl e}

/-- The add filter of the library keeps the file out. -/
def excluded (data : AddData) (st : Stores P) (ti : TrackInfo) : Bool :=
  data.target = .lib && st.lib.inForce.addFilter.any fun e => !e.eval cfg.env ti

def removeMatchingTracks (st : Stores P) (target : Target) (cb : TrackInfo → Bool) :
    Option (Stores P) :=
  match target with
  | .lib => (st.lib.removeMatchingTracks cfg cb).map fun lib => {st with lib}
  | .queue => (st.queue.removeMatchingTracks cfg.rb cb).map fun queue => {st with queue}
  | .playlist pl => ((st.playlist pl).removeMatchingTracks cfg.rb cb).map fun e =>
    {st with playlist := Function.update st.playlist pl e}

end Stores

/-! ### The record of a run -/

/-- What the code does not keep: the add jobs there were and those cancelled, the tracks
that were given to the callbacks, the files that were kept out or taken out since, and
the playlists that were deleted and those of them that are freed. -/
structure History where
  scheduled : List AddData := []
  cancelled : List Nat := []
  handed : List (AddData × TrackInfo) := []
  missing : Target → List Text := fun _ => []
  deleted : List Nat := []
  freed : List Nat := []

namespace History

def lose (h : History) (target : Target) (tis : List TrackInfo) : History :=
  let missing := tis.map TrackInfo.filename ++ h.missing target
  {h with missing := Function.update h.missing target missing}

def hand (h : History) (excluded : Bool) (data : AddData) (ti : TrackInfo) : History :=
  let missing := h.missing data.target
  let missing := if excluded then ti.filename :: missing else missing.filter (· ≠ ti.filename)
  {h with
    handed := h.handed ++ [(data, ti)]
    missing := Function.update h.missing data.target missing}

/-- What the callback of a job was given so far. -/
def handedOf (h : History) (n : Nat) : List TrackInfo :=
  (h.handed.filter (·.1.serial = n)).map Prod.snd

end History

/-! ### Operations -/

inductive View where
  | lib
  | queue
  | playlist

/-- The clears, with the tracks of the file where one is loaded. -/
inductive Clear where
  | viewClear (view : View)
  | viewLoad (tracks : List TrackInfo)
  | plWinUpdate (tracks : List TrackInfo)

def Clear.view : Clear → View
  | .viewClear view => view
  | .viewLoad _ => .lib
  | .plWinUpdate _ => .playlist

def Clear.loads : Clear → Option (List TrackInfo)
  | .viewClear _ => none
  | .viewLoad tracks | .plWinUpdate tracks => some tracks

structure System (P : Type) where
  stores : Stores P
  plHead : List Nat
  visible : Nat
  marked : Nat
  nextPl : Nat
  worker : Worker
  nextSerial : Nat
  history : History

namespace System

section
variable {P : Type}

/-- What a view shows. -/
def target (s : System P) : View → Target
  | .lib => .lib
  | .queue => .queue
  | .playlist => .playlist s.visible

/-- `cmus_add`. -/
def cmusAdd (s : System P) (target : Target) (prepend : Bool) (tracks : List TrackInfo) :
    System P :=
  let data : AddData := ⟨s.nextSerial, target, prepend, tracks⟩
  {s with
    worker := s.worker.workerAddJob (.add data)
    nextSerial := s.nextSerial + 1
    history := {s.history with scheduled := s.history.scheduled ++ [data]}}

def viewAdd (s : System P) (view : View) (prepend : Bool) (tracks : List TrackInfo) : System P :=
  match view with
  | .lib => s.cmusAdd .lib false tracks
  | .queue => s.cmusAdd .queue prepend tracks
  | .playlist => s.cmusAdd (.playlist s.marked) false tracks

def workerRemoveJobs (s : System P) (cb : Job → Bool) (more : Nat) : System P :=
  {s with
    worker := s.worker.workerRemoveJobs cb more
    history := {s.history with cancelled := s.history.cancelled ++ s.worker.cancelled cb}}

def plCreate (s : System P) : System P :=
  {s with plHead := s.plHead ++ [s.nextPl], nextPl := s.nextPl + 1}

/-- `pl_import` and `pl_load_one`. -/
def plImport (s : System P) (tracks : List TrackInfo) : System P :=
  s.plCreate.cmusAdd (.playlist s.nextPl) false tracks

/-- Selecting a row of the list window. -/
def select (s : System P) (pl : Nat) : System P :=
  if pl ∈ s.plHead then {s with visible := pl} else s

/-- The list window moves to the next row, or else to the one before. -/
def plDeleteSelectedPl (s : System P) (answer : Bool) (more : Nat) : System P :=
  match (Sequence.after s.plHead s.visible).or (Sequence.before s.plHead s.visible).getLast? with
  | none => s -- cannot delete the last playlist
  | some next =>
    if answer then
      let pl := s.visible
      let s := {s with visible := next, plHead := s.plHead.erase pl}
      let s := if s.marked = pl then {s with marked := s.visible} else s
      let s := s.workerRemoveJobs (Job.plMatchAddJob pl) more
      {s with
        worker := s.worker.workerAddJob (.delete pl)
        history := {s.history with deleted := pl :: s.history.deleted}}
    else s

end

variable {P : Type} [DecidableEq P] (cfg : Lib.Config P)

/-- Tracks are taken out by the user. -/
def removeMatchingTracks (s : System P) (target : Target) (cb : TrackInfo → Bool) :
    Option (System P) :=
  (s.stores.removeMatchingTracks cfg target cb).map fun stores =>
    {s with stores, history := s.history.lose target ((s.stores.contents target).filter cb)}

def editableClear (s : System P) (target : Target) : Option (System P) :=
  s.removeMatchingTracks cfg target fun _ => true

def handTrack (data : AddData) (s : System P) (ti : TrackInfo) : System P :=
  {s with
    stores := s.stores.addCb cfg data ti
    history := s.history.hand (s.stores.excluded cfg data ti) data ti}

/-- One entry of `job_handle_update_result`. -/
def handleUpdateEntry (s : System P) (entry : UpdateEntry) : Option (System P) :=
  (s.stores.lib.libRemove cfg entry.ti).map fun lib =>
    let s := {s with stores := {s.stores with lib}, history := s.history.lose .lib [entry.ti]}
    match entry.readd with
    | some tracks => s.cmusAdd .lib false tracks
    | none => s

/-- `pl_free`. -/
def plFree (s : System P) (pl : Nat) : Option (System P) :=
  (s.editableClear cfg (.playlist pl)).map fun s =>
    {s with history := {s.history with freed := pl :: s.history.freed}}

/-- One round of `job_handle`; `none` where a freed playlist is used or freed again. -/
def jobHandle (s : System P) : Option (System P) :=
  match s.worker.results with
  | [] => some s
  | result :: results =>
    if ∃ pl ∈ s.history.freed, result.job.refersTo pl then none
    else
      let s := {s with worker := {s.worker with results}}
      match result with
      | .add data tis => some (tis.foldl (handTrack cfg data) s)
      | .update entries => entries.foldlM (handleUpdateEntry cfg) s
      | .plDelete pl => s.plFree cfg pl

def plClearVisiblePl (s : System P) (more : Nat) : Option (System P) :=
  (s.editableClear cfg (.playlist s.visible)).map fun s =>
    s.workerRemoveJobs (Job.plMatchAddJob s.visible) more

/-- `view_clear` and `view_load`, `pl_clear` and `pl_win_update`; `more` is how far the
job that is cancelled still gets. -/
def clear (s : System P) (more : Nat) : Clear → Option (System P)
  | .viewClear .lib =>
    ((s.workerRemoveJobs (Job.workerMatchesType jobTypeLib) more).editableClear cfg .lib).map
      fun s => {s with stores := {s.stores with lib := s.stores.lib.libClearStore}}
  | .viewClear .queue =>
    (s.workerRemoveJobs (Job.workerMatchesType jobTypeQueue) more).editableClear cfg .queue
  | .viewClear .playlist => s.plClearVisiblePl cfg more
  | .viewLoad tracks =>
    ((s.workerRemoveJobs (Job.workerMatchesType jobTypeLib) more).editableClear cfg .lib).map
      fun s => s.cmusAdd .lib false tracks
  | .plWinUpdate tracks =>
    (s.plClearVisiblePl cfg more).map fun s => s.cmusAdd (.playlist s.visible) false tracks

/-- The tracks that a save of the view writes; `none` if it is refused. -/
def viewSave (s : System P) (past : UInt32) : View → Option (List TrackInfo)
  | .lib =>
    if s.worker.workerHasJobByType jobTypeLib past then none else some (s.stores.contents .lib)
  | .queue =>
    if s.worker.workerHasJobByType jobTypeQueue past then none
    else some (s.stores.contents .queue)
  | .playlist => some (s.stores.contents (.playlist s.visible))

/-- Whether `cmd_quit` asks if playlists may be truncated. -/
def cmdQuitAsks (s : System P) (past : UInt32) : Bool :=
  s.worker.workerHasJobByType jobTypeAny past

omit [DecidableEq P] in
/-- `pl_init`, with the playlist files there are. The first one is visible. -/
def plInit (s : System P) (files : List (List TrackInfo)) : System P :=
  let s := files.foldl plImport s
  let s := if s.plHead = [] then s.plCreate else s
  {s with visible := s.plHead.headD 0, marked := s.plHead.headD 0}

end System

/-- The memory and the sort keys at the start. -/
structure Start (P : Type) where
  clear : P → Bool
  marked : P → Bool
  info : P → TrackInfo
  keys : List SortKey

/-- Playlists and library are empty at the start. -/
def plainStart : Start Nat :=
  ⟨fun _ => false, fun _ => false, fun _ => { uid := 0, filename := [] }, []⟩

/-- Before the playlists are loaded. -/
def System.empty {P : Type} (m : Start P) : System P where
  stores :=
    { lib := .init m.clear m.marked m.info m.keys
      queue := .init m.clear m.marked m.info []
      playlist := fun _ => .init m.clear m.marked m.info m.keys }
  plHead := []
  visible := 0
  marked := 0
  nextPl := 0
  worker := ⟨[], none, []⟩
  nextSerial := 0
  history := {}

def System.init {P : Type} (m : Start P) (files : List (List TrackInfo)) : System P :=
  (System.empty m).plInit files

/-! ### Runs -/

inductive Op where
  | take
  | produce
  | finish
  | handle
  | add (view : View) (prepend : Bool) (tracks : List TrackInfo)
  | update (entries : List UpdateEntry)
  | clear (c : Clear) (more : Nat)
  | remove (view : View) (cb : TrackInfo → Bool)
  | plCreate
  | plImport (tracks : List TrackInfo)
  | select (pl : Nat)
  | markSelectedPl
  | deleteSelectedPl (answer : Bool) (more : Nat)
  | setFilter (expr : Option Expr)
  | setAddFilter (expr : Option Expr)
  | setLiveFilter (text : Option Text)

def System.withLib {P : Type} (s : System P) (lib : Lib.Library P) : System P :=
  {s with stores := {s.stores with lib}}

def step {P : Type} [DecidableEq P] (cfg : Lib.Config P) (s : System P) :
    Op → Option (System P)
  | .take => some {s with worker := s.worker.take}
  | .produce => some {s with worker := s.worker.produce}
  | .finish => some {s with worker := s.worker.finish}
  | .handle => s.jobHandle cfg
  | .add view prepend tracks => some (s.viewAdd view prepend tracks)
  | .update entries => some {s with worker := s.worker.workerAddJob (.update entries)}
  | .clear c more => s.clear cfg more c
  | .remove view cb => s.removeMatchingTracks cfg (s.target view) cb
  | .plCreate => some s.plCreate
  | .plImport tracks => some (s.plImport tracks)
  | .select pl => some (s.select pl)
  | .markSelectedPl => some {s with marked := s.visible}
  | .deleteSelectedPl answer more => some (s.plDeleteSelectedPl answer more)
  | .setFilter expr => (s.stores.lib.libSetFilter cfg expr).map s.withLib
  | .setAddFilter expr => some (s.withLib (s.stores.lib.libSetAddFilter expr))
  | .setLiveFilter text => (s.stores.lib.libSetLiveFilter cfg text).map s.withLib

end GracefulMusic.Jobs
