import GracefulMusic.Playback.Alignment

/-! Where the software volume is in the playback buffer (`player.c`).

Bytes are scaled where they lie, and `scale_pos` is how far the consumer has come with
that. `times` says of every place of the ring how often the byte there has been scaled
since the producer stored it, and `written` what the output plugin was given; neither is
part of the program. The producer asks for room and fills it with the producer's mutex
held, the consumer asks for bytes and writes them with its own; the settings take the
consumer's mutex, and what changes the replay gain or resets the buffer takes both. -/
namespace GracefulMusic.Playback

inductive ReplayGain where
  | disabled | track | album | trackPreferred | albumPreferred | smart
  deriving DecidableEq

structure Playout (n : Nat) where
  buffer : Buffer n
  times : Fin n → Nat → Nat
  /-- The size of the frames of `buffer_sf`. -/
  frame : Nat
  consumerPos : Nat
  scalePos : Nat
  softVol : Bool
  replaygain : ReplayGain
  room : Option (Option (Pos n) × Nat)
  available : Option (Option (Pos n) × Nat)
  /-- The calls of `op_write`: whether scaling was in force, and how often each byte had been
  scaled. -/
  written : List (Bool × List Nat)

/-- What `op_write` returns, and what the loops over the frames make of bytes, is given with
the step. -/
inductive PlayoutAct where
  | getWpos
  /-- `none` where the plugin has nothing yet. -/
  | fill (bytes : Option Text)
  | getRpos
  /-- `none` where `op_write` fails. -/
  | write (space : Nat) (rc : Option Nat) (scale : Text → Text)
  | setSoftVol (soft : Bool)
  | setRg (rg : ReplayGain)
  | seek (newPos : Nat)
  /-- Another file may have another format. -/
  | reset (frame : Nat)

namespace Playout
variable {n : Nat}

/-- `soft_vol || replaygain` -/
def inForce (s : Playout n) : Bool := s.softVol || s.replaygain != .disabled

/-- The places of a chunk from one offset up to another. -/
def change (f : Nat → Nat) (times : Fin n → Nat → Nat) (chunk : Fin n) (lo hi : Nat) :
    Fin n → Nat → Nat :=
  fun i j => if i = chunk ∧ lo ≤ j ∧ j < hi then f (times i j) else times i j

/-- The bytes lie where `store` puts them, and are new. -/
def clearTimes (s : Playout n) (pos : Option (Pos n)) (count : Nat) : Fin n → Nat → Nat :=
  match pos with
  | none => s.times
  | some p => change (fun _ => 0) s.times p.chunk p.off (p.off + count)

def fill (s : Playout n) (pos : Option (Pos n)) (bytes : Text) : Option (Playout n) := do
  let (buffer, _) ← (Playing.store s.buffer pos bytes).fill bytes.length
  some {s with buffer, times := s.clearTimes pos bytes.length, room := none}

/-- `scale_samples`. What lies behind the last whole frame is not scaled. -/
def scaleSamples (s : Playout n) (p : Pos n) (size : Nat) (scale : Text → Text) :
    Option (Playout n) :=
  -- BUG_ON(scale_pos < consumer_pos)
  if s.scalePos < s.consumerPos then none
  else
    let offs := if s.consumerPos ≠ s.scalePos then (s.scalePos - s.consumerPos) % 2 ^ 32 else 0
    if s.consumerPos ≠ s.scalePos ∧ offs ≥ size then some s
    else
      let count := size - offs
      let c := s.buffer.chunks p.chunk
      let lo := p.off + offs
      let hi := lo + count / s.frame * s.frame
      some {s with
        scalePos := (s.scalePos + count) % 2 ^ 64
        buffer := s.buffer.setChunk p.chunk (c.write lo (scale (slice c.data lo hi)))
        times := change (· + 1) s.times p.chunk lo hi}

def opWrite (s : Playout n) (p : Pos n) (size : Nat) : Playout n :=
  {s with
    available := none
    written := s.written ++ [(s.inForce, (List.range' p.off size).map (s.times p.chunk))]}

def consume (s : Playout n) (rc : Nat) : Option (Playout n) := do
  let buffer ← s.buffer.consume rc
  some {s with buffer, consumerPos := (s.consumerPos + rc) % 2 ^ 64}

/-- `if (soft_vol || replaygain) scale_samples(...)` -/
def scaled (s : Playout n) (p : Pos n) (size : Nat) (scale : Text → Text) : Option (Playout n) :=
  if s.inForce then s.scaleSamples p size scale else some s

/-- The consumer with bytes and with space for them. -/
def write (s : Playout n) (p : Pos n) (size : Nat) (rc : Option Nat) (scale : Text → Text) :
    Option (Playout n) := do
  let s ← s.scaled p size scale
  let s := s.opWrite p size
  match rc with
  | none => some s -- try to reopen
  | some rc => s.consume rc

/-- The first lines of `player_set_soft_vol` and `player_set_rg`. -/
def catchUp (s : Playout n) : Nat := if s.inForce then s.scalePos else s.consumerPos

/-- What is given to the output plugin. -/
def sizeOf (size space : Nat) : Nat := if size > space then space else size

def step (hn : 0 < n) (s : Playout n) : PlayoutAct → Option (Playout n)
  | .getWpos => some {s with room := some s.buffer.getWpos}
  | .fill bytes =>
    match s.room, bytes with
    | some (pos, size), some bytes =>
      if size = 0 then some {s with room := none} -- buffer is full
      else s.fill pos bytes
    | _, _ => some {s with room := none}
  | .getRpos => some {s with available := some s.buffer.getRpos}
  | .write space rc scale =>
    match s.available with
    | some (some p, size) =>
      if size = 0 ∨ space = 0 then some {s with available := none}
      else s.write p (sizeOf size space) rc scale
    | _ => some {s with available := none}
  | .setSoftVol soft =>
    if s.available.isSome then some s else some {s with scalePos := s.catchUp, softVol := soft}
  | .setRg rg =>
    if s.room.isSome ∨ s.available.isSome then some s
    else some {s with scalePos := s.catchUp, replaygain := rg}
  | .seek newPos =>
    if s.room.isSome ∨ s.available.isSome then some s
    else some {s with
      buffer := s.buffer.reset hn
      consumerPos := newPos % 2 ^ 64
      scalePos := newPos % 2 ^ 64}
  | .reset frame =>
    if s.room.isSome ∨ s.available.isSome then some s
    else some {s with buffer := s.buffer.reset hn, frame, consumerPos := 0, scalePos := 0}

/-- The counts are whole frames, and no more than was asked for. -/
def Legal (s : Playout n) : PlayoutAct → Prop
  | .fill bytes => ∀ b ∈ bytes, ∀ r ∈ s.room, r.2 ≠ 0 → b.length ≤ r.2 ∧ s.frame ∣ b.length
  | .write space rc _ => s.frame ∣ space ∧
      ∀ played ∈ rc, s.frame ∣ played ∧ ∀ r ∈ s.available, played ≤ sizeOf r.2 space
  | _ => True

/-- The positions stay in their type. -/
def Fits (s : Playout n) : PlayoutAct → Prop
  | .write space _ _ => ∀ r ∈ s.available, s.consumerPos + sizeOf r.2 space < 2 ^ 64
  | _ => True

/-- Nothing that waits in the buffer has been scaled. -/
def Fresh (s : Playout n) : Prop :=
  ∀ i, ∀ j < (s.buffer.chunks i).h, (s.buffer.chunks i).l ≤ j → s.times i j = 0

/-- Scaling is switched on only where nothing has been scaled already. -/
def StartsFresh (s : Playout n) : PlayoutAct → Prop
  | .setSoftVol soft => s.available = none → s.inForce = false → soft = true → s.Fresh
  | .setRg rg => s.room = none → s.available = none → s.inForce = false →
      rg ≠ .disabled → s.Fresh
  | _ => True

/-- What was written with scaling in force had been scaled exactly once. -/
def ScaledOnce (s : Playout n) : Prop := ∀ w ∈ s.written, w.1 = true → ∀ k ∈ w.2, k = 1

instance Legal.decidable (s : Playout n) : ∀ a, Decidable (s.Legal a)
  | .fill bytes => inferInstanceAs (Decidable (∀ b ∈ bytes, ∀ r ∈ s.room,
      r.2 ≠ 0 → b.length ≤ r.2 ∧ s.frame ∣ b.length))
  | .write space rc _ => inferInstanceAs (Decidable (s.frame ∣ space ∧
      ∀ played ∈ rc, s.frame ∣ played ∧ ∀ r ∈ s.available, played ≤ sizeOf r.2 space))
  | .getWpos | .getRpos | .setSoftVol _ | .setRg _ | .seek _ | .reset _ => isTrue trivial

instance Fits.decidable (s : Playout n) : ∀ a, Decidable (s.Fits a)
  | .write space _ _ => inferInstanceAs (Decidable (∀ r ∈ s.available,
      s.consumerPos + sizeOf r.2 space < 2 ^ 64))
  | .getWpos | .fill _ | .getRpos | .setSoftVol _ | .setRg _ | .seek _ | .reset _ =>
    isTrue trivial

instance Fresh.decidable (s : Playout n) : Decidable s.Fresh :=
  inferInstanceAs (Decidable (∀ i, ∀ j < (s.buffer.chunks i).h,
    (s.buffer.chunks i).l ≤ j → s.times i j = 0))

instance StartsFresh.decidable (s : Playout n) : ∀ a, Decidable (s.StartsFresh a)
  | .setSoftVol soft => inferInstanceAs (Decidable (s.available = none → s.inForce = false →
      soft = true → s.Fresh))
  | .setRg rg => inferInstanceAs (Decidable (s.room = none → s.available = none →
      s.inForce = false → rg ≠ .disabled → s.Fresh))
  | .getWpos | .fill _ | .getRpos | .write _ _ _ | .seek _ | .reset _ => isTrue trivial

instance ScaledOnce.decidable (s : Playout n) : Decidable s.ScaledOnce :=
  inferInstanceAs (Decidable (∀ w ∈ s.written, w.1 = true → ∀ k ∈ w.2, k = 1))

/-- A player that has just started. -/
def start (hn : 0 < n) (memory : Buffer n) (times : Fin n → Nat → Nat) (frame : Nat)
    (softVol : Bool) (replaygain : ReplayGain) : Playout n :=
  ⟨memory.reset hn, times, frame, 0, 0, softVol, replaygain, none, none, []⟩

end Playout

end GracefulMusic.Playback
