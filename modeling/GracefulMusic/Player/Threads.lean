import GracefulMusic.Foundation.Locks
import GracefulMusic.Foundation.Runs

/-! The locks that the threads of the player take, and how the consumer asks the main
thread for the next track (`player.c`, `cmus.c`).

What a function does is its code with all but the locks left out: which branches it takes,
and how often it reports to `player_info_priv`, is in the arguments. -/
namespace GracefulMusic.Player.Threads

/-- `consumer_mutex`, `producer_mutex`, the mutex of `cmus_get_next_from_other_thread`,
`cmus_next_file_mutex` and `player_info_mutex`, in the order in which they are taken. -/
inductive Lock where
  | consumer
  | producer
  | request
  | nextFile
  | playerInfo

def Lock.rank : Lock → Nat
  | .consumer => 0
  | .producer => 1
  | .request => 2
  | .nextFile => 3
  | .playerInfo => 4

instance : LinearOrder Lock :=
  LinearOrder.lift' Lock.rank fun a b h => by cases a <;> cases b <;> first | rfl | cases h

instance : Fintype Lock where
  elems := {.consumer, .producer, .request, .nextFile, .playerInfo}
  complete l := by cases l <;> decide

inductive Thread where
  | main
  | consumer
  | producer
  deriving DecidableEq

/-- What is done besides locking: the pipe and `cmus_next_file` with its condition, and the
wait for a condition that says that something plays again. -/
inductive Act where
  | notify
  | check
  | sleep
  | clearPipe
  | provide
  | broadcast
  | waitPlaying
  deriving DecidableEq

abbrev Code := List (Locks.Instr Lock Act)

structure Shared where
  /-- There is something in the pipe. -/
  requested : Bool
  /-- `cmus_next_file_provided`. -/
  provided : Bool
  /-- Somebody waits for `cmus_next_file_cond`. -/
  waiting : Bool

/-- The rest of `cmus_provide_next_track`. -/
def provideNextTrack : Code :=
  [.lock .nextFile, .act .provide, .unlock .nextFile, .act .broadcast]

/-- One round of `while (!cmus_next_file_provided)`. -/
def waitProvided : Code := [.unlock .nextFile, .act .sleep, .lock .nextFile, .act .check]

def act : Locks.Acts Thread Lock Act Shared
  | σ, _, .notify => some ({σ with requested := true},
      [.lock .nextFile, .act .check, .unlock .nextFile])
  | σ, _, .check =>
    if σ.provided then some ({σ with provided := false}, [])
    else some ({σ with waiting := true}, waitProvided)
  | σ, _, .sleep => if σ.waiting then none else some (σ, [])
  | σ, _, .clearPipe =>
    if σ.requested then some ({σ with requested := false}, provideNextTrack) else none
  | σ, _, .provide => some ({σ with provided := true}, [])
  | σ, _, .broadcast => some ({σ with waiting := false}, [])
  | σ, _, .waitPlaying => some (σ, [])

/-! ### The code of the threads -/

/-- So many sections of `player_info_priv_lock`. -/
def reports : Nat → Code
  | 0 => []
  | n + 1 => .lock .playerInfo :: .unlock .playerInfo :: reports n

def cmusGetNextFromOtherThread : Code := [.lock .request, .act .notify, .unlock .request]

/-- `_consumer_handle_eof`, which asks for the next track or does not. -/
def consumerHandleEof (asks : Bool) (n : Nat) : Code :=
  if asks then cmusGetNextFromOtherThread ++ reports n else reports n

/-- How the inner loop of `consumer_loop` ends. -/
inductive InnerEnd where
  | noSpace (moved : Bool)
  | notPlaying
  | eof (asks : Bool) (n : Nat)
  | underrun (moved : Bool)
  | reopen (failed : Bool)

def InnerEnd.code : InnerEnd → Code
  | .noSpace moved => reports moved.toNat
  | .notPlaying => [.lock .producer, .unlock .producer]
  | .eof asks n => .lock .producer :: (consumerHandleEof asks n ++ [.unlock .producer])
  | .underrun moved => .lock .producer :: .unlock .producer :: reports moved.toNat
  | .reopen failed => reports failed.toNat

/-- The rounds of the inner loop that look for what the producer has put into the buffer. -/
def checks : Nat → Code
  | 0 => []
  | n + 1 => .lock .producer :: .unlock .producer :: checks n

/-- A round of `consumer_loop`. -/
inductive ConsumerRound where
  | leave
  | wait
  | reopen (failed : Bool)
  | inner (n : Nat) (last : InnerEnd)

def ConsumerRound.code : ConsumerRound → Code
  | .leave => [.lock .consumer, .unlock .consumer]
  | .wait =>
    [.lock .consumer, .unlock .consumer, .act .waitPlaying, .lock .consumer, .unlock .consumer]
  | .reopen failed => .lock .consumer :: (reports failed.toNat ++ [.unlock .consumer])
  | .inner n last => .lock .consumer :: (checks n ++ last.code ++ [.unlock .consumer])

/-- A round of `producer_loop`. -/
inductive ProducerRound where
  | leave
  | wait
  | fill (n : Nat)

def ProducerRound.code : ProducerRound → Code
  | .leave => [.lock .producer, .unlock .producer]
  | .wait =>
    [.lock .producer, .unlock .producer, .act .waitPlaying, .lock .producer, .unlock .producer]
  | .fill n => .lock .producer :: (reports n ++ .unlock .producer :: reports 1)

/-- What the main thread does with locks: an operation of the player, one that asks for the
consumer's lock only, a look at `player_info_priv`, and the answer to a request. -/
inductive MainCode where
  | player (n : Nat)
  | volume
  | info
  | provide

def MainCode.code : MainCode → Code
  | .player n => .lock .consumer :: .lock .producer ::
      (reports n ++ [.unlock .producer, .unlock .consumer])
  | .volume => [.lock .consumer, .unlock .consumer]
  | .info => reports 1
  | .provide => [.act .clearPipe]

/-! ### Steps -/

abbrev State := Locks.State Thread Lock Act Shared

inductive Input where
  | go (t : Thread)
  | main (code : MainCode)
  | consumer (round : ConsumerRound)
  | producer (round : ProducerRound)

/-- A thread begins something, or goes on. The main thread answers when the pipe says so. -/
def step (s : State) : Input → Option State
  | .go t => Locks.step act s t
  | .main .provide =>
    if s.code .main = [] ∧ s.shared.requested then
      some (Locks.begin s .main MainCode.provide.code)
    else none
  | .main c => if s.code .main = [] then some (Locks.begin s .main c.code) else none
  | .consumer r => if s.code .consumer = [] then some (Locks.begin s .consumer r.code) else none
  | .producer r => if s.code .producer = [] then some (Locks.begin s .producer r.code) else none

def init : State where
  code := fun _ => []
  holder := fun _ => none
  shared := ⟨false, false, false⟩

def firstLock : Code → Option Lock
  | .lock l :: _ => some l
  | _ => none

/-- The lock that a thread asks for next. -/
def wants (s : State) (t : Thread) : Option Lock := firstLock (s.code t)

/-- The consumer waits for the answer of the main thread, which waits for a lock of the
consumer. -/
def Deadlock (s : State) : Prop :=
  s.shared.requested = true ∧ ∃ l, (l = .consumer ∨ l = .producer) ∧ wants s .main = some l ∧
    s.holder l = some .consumer

/-- A thread that is not idle can take a step. -/
def Able (s : State) (t : Thread) : Prop :=
  s.code t ≠ [] ∧ (s.code t).head? ≠ some (.act .waitPlaying) ∧ (Locks.step act s t).isSome

/-- The main thread does not begin to ask for a lock of the player while a request is not
answered, and the consumer does not make one while the main thread asks for its lock. -/
def NoClash (s : State) : Input → Prop
  | .main (.player _) | .main .volume => s.shared.requested = false
  | .go .consumer => (s.code .consumer).head? = some (.act .notify) → wants s .main ≠ some .consumer
  | _ => True

instance (s : State) (i : Input) : Decidable (NoClash s i) := by
  unfold NoClash
  split <;> infer_instance

end GracefulMusic.Player.Threads
