import Mathlib.Algebra.BigOperators.Group.List.Basic
import Mathlib.Algebra.Order.Ring.Int
import Mathlib.Data.List.DropRight
import Mathlib.Data.List.Induction
import Mathlib.Data.List.Infix
import Mathlib.Data.List.Nodup
import Mathlib.Data.List.TakeWhile
import GracefulMusic.Foundation.Runs

/-! The player's state and its input plugin handle (`player.c`, `input.c`).

`ip` is a pointer that stays what it is when its handle is deleted. What a plugin, the
operating system or another part of the program answers is taken from `outcomes`, one
after the other, and 0 when there are no more. Positions, buffers and the track are left
out. -/
namespace GracefulMusic.Player

inductive ProducerStatus where
  | unloaded
  | stopped
  | playing
  | paused
  deriving DecidableEq

/-- The status of the consumer, and of `player_info_priv`. -/
inductive ConsumerStatus where
  | stopped
  | playing
  | paused
  deriving DecidableEq

/-- An `InputPlugin`. -/
structure Handle where
  remote : Bool
  isOpen : Bool
  eof : Bool

/-- The functions with calls that take the handle. -/
inductive Caller where
  | producerPlay | producerStop | producerUnload | prebuffer | metadataChanged
  | consumerPositionUpdate | setBufferSf | consumerHandleEof | consumerLoop | producerLoop
  | playerPlay | playerPause | playerSeek
  deriving DecidableEq

/-- The handle is passed to a function or dereferenced: by whom, whether it is one that
is not deleted, and with which status of the producer. -/
structure Use where
  caller : Caller
  live : Bool
  status : ProducerStatus
  deriving DecidableEq

/-- Where the main thread is between two steps: it has read that the consumer plays, and
pauses (`pauseTest`); it has looked at the handle, and stops or goes on with the pause
(`pauseStop`, `pauseRest`); it goes on with the next file (`next`); it waits for the other
threads to end (`left`). -/
inductive Main where
  | idle
  | pauseTest
  | pauseStop
  | pauseRest
  | next
  | left
  deriving DecidableEq

structure State where
  main : Main
  producerStatus : ProducerStatus
  consumerStatus : ConsumerStatus
  infoStatus : ConsumerStatus
  ip : Option Nat
  /-- The handles there are, by their addresses, and an address for the next one. -/
  handles : Nat → Option Handle
  nextHandle : Nat
  producerRunning : Bool
  consumerRunning : Bool
  /-- A `BUG_ON` held. -/
  bug : Bool
  /-- The uses of the handle, the latest one first. -/
  uses : List Use
  outcomes : List Int

namespace State

/-- The handle that the pointer leads to. -/
def handle (s : State) : Option Handle := s.ip.bind s.handles

def ask (s : State) : Int × State := (s.outcomes.headD 0, {s with outcomes := s.outcomes.tail})

def bugOn (s : State) (cond : Bool) : State := {s with bug := s.bug || cond}

def touch (caller : Caller) (s : State) : State :=
  {s with uses := ⟨caller, s.handle.isSome, s.producerStatus⟩ :: s.uses}

/-- What is behind the pointer is changed. -/
def updateHandle (s : State) (f : Option Handle → Option Handle) : State :=
  match s.ip with
  | some i => {s with handles := Function.update s.handles i (f (s.handles i))}
  | none => s

/-- `BUG_ON(!ip->open)`. -/
def bugOnClosed (s : State) : State := s.bugOn (s.handle.any fun h => !h.isOpen)

/-! ### Functions of the handle -/

/-- `ip_new`; the name of the file tells whether it is remote. -/
def ipNew (remote : Bool) (s : State) : State :=
  {s with
    ip := some s.nextHandle
    handles := Function.update s.handles s.nextHandle (some ⟨remote, false, false⟩)
    nextHandle := s.nextHandle + 1}

def ipDelete (caller : Caller) (s : State) : State :=
  (s.touch caller).updateHandle fun _ => none

def ipOpen (caller : Caller) (s : State) : Int × State :=
  let s := s.touch caller
  let s := s.bugOn (s.handle.any Handle.isOpen)
  let (rc, s) := s.ask
  (rc, s.updateHandle <| .map fun h => {h with isOpen := rc = 0, eof := false})

def ipSetup (caller : Caller) (s : State) : State := s.touch caller

def ipClose (caller : Caller) (s : State) : State :=
  (s.touch caller).updateHandle <| .map fun h => {h with isOpen := false, eof := false}

/-- What is read, if anything, and whether to try again (`EAGAIN`). -/
def ipRead (caller : Caller) (s : State) : Int × Bool × State :=
  let s := s.touch caller
  let (ready, s) := s.ask
  if ready < 0 then
    let (interrupted, s) := s.ask
    (-1, interrupted ≠ 0, s)
  else if ready = 0 then (-1, true, s)
  else
    let (rc, s) := s.ask
    let (again, s) := if rc = -1 then s.ask else (0, s)
    if again ≠ 0 then (-1, true, s)
    else if rc ≤ 0 then (rc, false, s.updateHandle <| .map fun h => {h with eof := true})
    else (rc, false, s)

/-- What is read of a handle; of a deleted one, anything. -/
def ipIsRemote (caller : Caller) (s : State) : Bool × State :=
  let s := s.touch caller
  match s.handle with
  | some h => (h.remote, s)
  | none =>
    let (x, s) := s.ask
    (x ≠ 0, s)

def ipSeek (caller : Caller) (s : State) : Int × State :=
  let (remote, s) := s.ipIsRemote caller
  if remote then (-1, s)
  else
    let (rc, s) := s.ask
    (rc, if rc = 0 then s.updateHandle <| .map fun h => {h with eof := false} else s)

def ipEof (caller : Caller) (s : State) : Bool × State :=
  let s := (s.touch caller).bugOnClosed
  match s.handle with
  | some h => (h.eof, s)
  | none =>
    let (x, s) := s.ask
    (x ≠ 0, s)

/-- `ip_get_sf`, `ip_get_channel_map`, `ip_get_metadata` and `ip_metadata_changed`, which
ask for an open handle. -/
def ipGet (caller : Caller) (s : State) : Int × State :=
  (s.touch caller).bugOnClosed.ask

/-- `ip_duration`, `ip_current_bitrate`, `ip_read_comments`, `ip_get_filename` and
`ip_get_error_msg`. -/
def ipAsk (caller : Caller) (s : State) : Int × State := (s.touch caller).ask

end State

end GracefulMusic.Player

/-! Producer, consumer and the operations of the player (`player.c`).

What an operation does under the player's lock is one step, and so is each round of the
two threads. A loop goes on as long as the outcomes say so. -/
namespace GracefulMusic.Player

namespace State

/-! ### Status -/

/-- `_player_status_changed`. -/
def playerStatusChanged (s : State) : State := {s with infoStatus := s.consumerStatus}

def playerError (s : State) : State := {s with infoStatus := s.consumerStatus}

/-- The handle is looked at for the message. -/
def playerIpError (caller : Caller) (s : State) : State := (s.ipAsk caller).2.playerError

def playerOpError (s : State) : State := s.playerError

def producerStatusUpdate (s : State) (status : ProducerStatus) : State :=
  {s with producerStatus := status}

def consumerStatusUpdate (s : State) (status : ConsumerStatus) : State :=
  {s with consumerStatus := status}

def metadataChanged (s : State) : State :=
  let s := (s.ipGet .metadataChanged).2
  (s.ipAsk .metadataChanged).2

/-- `if (ip_metadata_changed(ip)) metadata_changed();` -/
def checkMetadata (caller : Caller) (s : State) : State :=
  let (changed, s) := s.ipGet caller
  if changed ≠ 0 then s.metadataChanged else s

/-- The bitrate is asked for when the position is a new one and it is shown. -/
def consumerPositionUpdate (s : State) : State :=
  let (shown, s) := s.ask
  if shown ≠ 0 then (s.ipAsk .consumerPositionUpdate).2 else s

def prebufferLoop : Nat → State → State
  | 0, s => s
  | fuel + 1, s =>
    let (room, s) := s.ask
    if room = 0 then s
    else
      let (nrRead, again, s) := s.ipRead .prebuffer
      if nrRead < 0 ∧ again then prebufferLoop fuel s
      else
        let s := if nrRead < 0 then s.playerIpError .prebuffer else s
        let s := s.checkMetadata .prebuffer
        if nrRead ≤ 0 then s else prebufferLoop fuel s

/-- `_prebuffer`. -/
def prebuffer (s : State) : State :=
  let s := s.bugOn (s.producerStatus ≠ .playing)
  let (_, s) := s.ipIsRemote .prebuffer
  prebufferLoop s.outcomes.length s

/-! ### The producer -/

/-- `cmus_get_next_track`: whether there is one, and whether it is remote. -/
def cmusGetNextTrack (s : State) : Option Bool × State :=
  let (found, s) := s.ask
  if found = 0 then (none, s)
  else
    let (remote, s) := s.ask
    (some (remote ≠ 0), s)

/-- `_producer_play`. -/
def producerPlay (s : State) : State :=
  match s.producerStatus with
  | .unloaded =>
    match s.cmusGetNextTrack with
    | (none, s) => s
    | (some remote, s) =>
      let s := s.ipNew remote
      let (rc, s) := s.ipOpen .producerPlay
      if rc ≠ 0 then (s.playerIpError .producerPlay).ipDelete .producerPlay
      else (s.ipSetup .producerPlay).producerStatusUpdate .playing
  | .playing => (s.ipSeek .producerPlay).2
  | .stopped =>
    let (rc, s) := s.ipOpen .producerPlay
    if rc ≠ 0 then
      ((s.playerIpError .producerPlay).ipDelete .producerPlay).producerStatusUpdate .unloaded
    else (s.ipSetup .producerPlay).producerStatusUpdate .playing
  | .paused => s.producerStatusUpdate .playing

def producerStop (s : State) : State :=
  if s.producerStatus = .playing ∨ s.producerStatus = .paused then
    (s.ipClose .producerStop).producerStatusUpdate .stopped
  else s

def producerUnload (s : State) : State :=
  let s := s.producerStop
  if s.producerStatus = .stopped then
    (s.ipDelete .producerUnload).producerStatusUpdate .unloaded
  else s

def producerPause (s : State) : State :=
  match s.producerStatus with
  | .playing => s.producerStatusUpdate .paused
  | .paused => s.producerStatusUpdate .playing
  | _ => s

/-- `_producer_set_file`. -/
def producerSetFile (remote : Bool) (s : State) : State :=
  (s.producerUnload.ipNew remote).producerStatusUpdate .stopped

/-! ### The consumer -/

def setBufferSf (s : State) : State :=
  let (_, s) := s.ipGet .setBufferSf
  (s.ipGet .setBufferSf).2

/-- `op_open`, `op_write` and `op_buffer_space` as far as they fail. -/
def opOpen (s : State) : Int × State := s.ask

def consumerPlay (s : State) : State :=
  match s.consumerStatus with
  | .playing => s
  | .stopped =>
    let s := s.setBufferSf
    let (rc, s) := s.opOpen
    if rc ≠ 0 then s.playerOpError else s.consumerStatusUpdate .playing
  | .paused => s.consumerStatusUpdate .playing

/-- `_consumer_stop` and `_consumer_drain_and_stop`, which differ in what is still heard. -/
def consumerStop (s : State) : State :=
  if s.consumerStatus = .playing ∨ s.consumerStatus = .paused then
    s.consumerStatusUpdate .stopped
  else s

def consumerPause (s : State) : State :=
  match s.consumerStatus with
  | .playing => s.consumerStatusUpdate .paused
  | .paused => s.consumerStatusUpdate .playing
  | .stopped => s

/-- `change_sf`: whether it fails. -/
def changeSf (s : State) : Bool × State :=
  let s := s.setBufferSf
  let (differs, s) := s.ask
  if differs ≠ 0 then
    let (rc, s) := s.opOpen
    if rc ≠ 0 then (true, (s.playerOpError.consumerStatusUpdate .stopped).producerStop)
    else (false, s.consumerStatusUpdate .playing)
  else (false, s.consumerStatusUpdate .playing)

/-- `_consumer_handle_eof`. -/
def consumerHandleEof (s : State) : State :=
  let (remote, s) := s.ipIsRemote .consumerHandleEof
  if remote then s.producerStop.consumerStop.playerError
  else
    let (repeatCurrent, s) := s.ask
    if repeatCurrent ≠ 0 then
      let (cont, s) := s.ask
      let s := if cont ≠ 0 then (s.ipSeek .consumerHandleEof).2 else s.producerStop.consumerStop
      s.playerStatusChanged
    else
      match s.cmusGetNextTrack with
      | (some remote, s) =>
        let s := s.producerUnload
        let s := (s.ipNew remote).producerStatusUpdate .stopped
        let (cont, s) := s.ask
        let s :=
          if cont ≠ 0 then
            let s := s.producerPlay
            if s.producerStatus = .unloaded then s.consumerStop
            else
              let (failed, s) := s.changeSf
              if failed then s else s.prebuffer
          else s.consumerStop
        s.playerStatusChanged
      | (none, s) => s.producerUnload.consumerStop.playerStatusChanged

/-- The device is opened again after an error. -/
def reopen (s : State) : State := (s.consumerStatusUpdate .stopped).consumerPlay

def consumerInner : Nat → State → State
  | 0, s => s
  | fuel + 1, s =>
    let (space, s) := s.ask
    if space = 0 then s.consumerPositionUpdate
    else
      let (size, s) := s.ask
      if size = 0 ∧ s.producerStatus ≠ .playing then s
      else
        -- the position is checked again under the producer's lock
        let (size, s) := if size = 0 then s.ask else (size, s)
        if size = 0 then
          let (eof, s) := s.ipEof .consumerLoop
          if eof then s.consumerHandleEof else s.consumerPositionUpdate
        else
          let (rc, s) := s.ask
          if rc < 0 then s.reopen else consumerInner fuel s

/-- A round of `consumer_loop`. -/
def consumerLoop (s : State) : State :=
  if !s.consumerRunning then s.consumerStop
  else if s.consumerStatus = .paused ∨ s.consumerStatus = .stopped then s
  else
    let (space, s) := s.ask
    if space < 0 then s.reopen else consumerInner (s.outcomes.length + 1) s

/-- The rounds of the inner loop of `producer_loop` that are left. -/
def producerInner : Nat → State → State
  | 0, s => s
  | n + 1, s =>
    let (size, s) := s.ask
    if size = 0 then s
    else
      let (nrRead, again, s) := s.ipRead .producerLoop
      if nrRead < 0 ∧ again then s
      else
        let s := if nrRead < 0 then s.playerIpError .producerLoop else s
        let s := s.checkMetadata .producerLoop
        if nrRead ≤ 0 then s else producerInner n s

/-- A round of `producer_loop`, which fills up to two chunks. -/
def producerLoop (s : State) : State :=
  if !s.producerRunning then s.producerUnload
  else if s.producerStatus ≠ .playing then s
  else
    let (eof, s) := s.ipEof .producerLoop
    if eof then s else producerInner 2 s

/-! ### Operations -/

def playerStop (s : State) : State := s.consumerStop.producerStop.playerStatusChanged

def playerPlay (s : State) : State :=
  let (remote, s) := if s.producerStatus = .playing then s.ipIsRemote .playerPlay else (false, s)
  if remote then s
  else
    let wasStopped : Bool := s.consumerStatus = .stopped
    let s := s.producerPlay
    let s :=
      if s.producerStatus = .playing then
        let s := s.consumerPlay
        if s.consumerStatus ≠ .playing then s.producerStop else s
      else s.consumerStop
    let s := s.playerStatusChanged
    if s.consumerStatus = .playing ∧ wasStopped then s.prebuffer else s

/-- The beginning of `player_pause`, which asks for no lock. -/
def playerPause (s : State) : State :=
  let (remote, s) := if s.ip.isSome then s.ipIsRemote .playerPause else (false, s)
  {s with main := if remote ∧ s.consumerStatus = .playing then .pauseStop else .pauseRest}

/-- `player_pause` from `player_lock` on. -/
def playerPauseRest (s : State) : State :=
  if s.consumerStatus = .stopped then
    let s := s.producerPlay
    let s :=
      if s.producerStatus = .playing then
        let s := s.consumerPlay
        if s.consumerStatus ≠ .playing then s.producerStop else s
      else s
    let s := s.playerStatusChanged
    if s.consumerStatus = .playing then s.prebuffer else s
  else s.producerPause.consumerPause.playerStatusChanged

def playerPausePlayback (s : State) : State :=
  if s.consumerStatus = .playing then {s with main := .pauseTest} else s

/-- The end of `player_set_file` and `player_play_file`. -/
def fileSet (s : State) : State :=
  let s := s.playerStatusChanged
  if s.producerStatus = .playing then s.prebuffer else s

def playerSetFile (remote : Bool) (s : State) : State :=
  let s := s.producerSetFile remote
  if s.producerStatus = .unloaded then s.consumerStop.fileSet
  else if s.consumerStatus = .playing ∨ s.consumerStatus = .paused then
    let s := s.producerPlay
    if s.producerStatus = .unloaded then s.consumerStop.fileSet else s.changeSf.2.fileSet
  else s.fileSet

def playerPlayFile (remote : Bool) (s : State) : State :=
  let s := s.producerSetFile remote
  if s.producerStatus = .unloaded then s.consumerStop.fileSet
  else
    let s := s.producerPlay
    if s.producerStatus = .unloaded then s.consumerStop.fileSet
    else if s.consumerStatus = .stopped then
      let s := s.consumerPlay
      if s.consumerStatus = .stopped then s.producerStop.fileSet else s.fileSet
    else s.changeSf.2.fileSet

/-- The seek of `player_seek`, and the pause after it. -/
def seekTo (stopped startPlaying : Bool) (s : State) : State :=
  let (rc, s) := s.ipSeek .playerSeek
  if rc = 0 then
    let s := s.consumerPositionUpdate
    if stopped ∧ !startPlaying then s.producerPause.consumerPause.playerStatusChanged else s
  else s.playerIpError .playerSeek

/-- `player_seek` from where the consumer plays or is paused; where the target lies past
the end, `cmus_next` follows. -/
def seek (relative stopped startPlaying : Bool) (s : State) : State :=
  if s.consumerStatus = .playing ∨ s.consumerStatus = .paused then
    let (duration, s) := s.ipAsk .playerSeek
    if duration < 0 then s
    else
      let (past, s) := if relative then s.ask else (0, s)
      if past ≠ 0 then {s with main := .next}
      else
        -- too short a way, or a negative position
        let (refused, s) := s.ask
        if refused ≠ 0 then s else s.seekTo stopped startPlaying
  else s

def playerSeek (relative startPlaying : Bool) (s : State) : State :=
  if s.consumerStatus = .stopped then
    let s := s.producerPlay
    if s.producerStatus = .playing then
      let s := s.consumerPlay
      if s.consumerStatus ≠ .playing then s.producerStop
      else s.playerStatusChanged.seek relative true startPlaying
    else s.seek relative true startPlaying
  else s.seek relative false startPlaying

/-- `cmus_next`. -/
def cmusNext (s : State) : State :=
  match s.cmusGetNextTrack with
  | (some remote, s) => s.playerSetFile remote
  | (none, s) => s

def playerSetOp (s : State) : State :=
  if s.consumerStatus = .playing ∨ s.consumerStatus = .paused then
    let s := s.setBufferSf
    let (rc, s) := s.opOpen
    if rc ≠ 0 then ((s.consumerStatusUpdate .stopped).producerStop).playerOpError else s
  else s

def playerSetBufferChunks (s : State) : State :=
  s.producerStop.consumerStop.playerStatusChanged

/-- `player_exit` up to the joins. -/
def playerExit (s : State) : State :=
  {s with consumerRunning := false, producerRunning := false, main := .left}

/-- The main thread goes on with what it has begun. -/
def goOn (s : State) : State :=
  let t := {s with main := .idle}
  match s.main with
  | .pauseTest => s.playerPause
  | .pauseStop => t.playerStop
  | .pauseRest => t.playerPauseRest
  | .next => t.cmusNext
  | _ => s

end State

/-! ### Runs -/

inductive Op where
  | play
  | stop
  | pause
  | pausePlayback
  | seek (relative startPlaying : Bool)
  | setFile (remote : Bool)
  | playFile (remote : Bool)
  | setOp
  | setBufferChunks
  | exit
  | goOn
  | consumerLoop
  | producerLoop
  deriving DecidableEq

def Op.exec (s : State) : Op → State
  | .play => s.playerPlay
  | .stop => s.playerStop
  | .pause => s.playerPause
  | .pausePlayback => s.playerPausePlayback
  | .seek relative startPlaying => s.playerSeek relative startPlaying
  | .setFile remote => s.playerSetFile remote
  | .playFile remote => s.playerPlayFile remote
  | .setOp => s.playerSetOp
  | .setBufferChunks => s.playerSetBufferChunks
  | .exit => s.playerExit
  | .goOn => s.goOn
  | .consumerLoop => s.consumerLoop
  | .producerLoop => s.producerLoop

/-- The main thread begins an operation only when it has ended the one before. -/
def Op.Ready (s : State) : Op → Prop
  | .goOn => s.main ≠ .idle ∧ s.main ≠ .left
  | .consumerLoop | .producerLoop => True
  | _ => s.main = .idle

instance (s : State) (op : Op) : Decidable (op.Ready s) := by
  cases op <;> unfold Op.Ready <;> infer_instance

/-- An operation with what it meets. -/
def step (s : State) (op : Op × List Int) : Option State :=
  if op.1.Ready s then some (op.1.exec {s with outcomes := op.2}) else none

def init : State where
  main := .idle
  producerStatus := .unloaded
  consumerStatus := .stopped
  infoStatus := .stopped
  ip := none
  handles := fun _ => none
  nextHandle := 0
  producerRunning := true
  consumerRunning := true
  bug := false
  uses := []
  outcomes := []

end GracefulMusic.Player
