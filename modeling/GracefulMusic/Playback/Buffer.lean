import GracefulMusic.Foundation.Runs

/-! The playback buffer (`buffer.c`): a ring of chunks between two threads.

The producer asks for room (`getWpos`), writes into the chunk it was pointed at
and reports how much (`fill`); the consumer asks for bytes (`getRpos`), plays them
from where they lie and reports how much (`consume`). Each call holds the buffer's
mutex, so a call is one step; what the two threads do *between* their calls, the
writing and the reading through the pointers they hold, is a step of its own here,
because nothing locks it. `System` is the buffer with what each thread holds, and
`step` runs one step of either thread, in any interleaving. -/
namespace GracefulMusic.Playback

/-- `CHUNK_SIZE` of `buffer.h`. -/
def chunkSize : Nat := 12 * 840 * 6

/-- `struct chunk`: the bytes `l ≤ · < h` of `data` are available. -/
structure Chunk where
  data : Nat → UInt8
  l : Nat
  h : Nat
  filled : Bool

/-- `buffer_chunks`, `buffer_ridx` and `buffer_widx` for `n` = `buffer_nr_chunks`. -/
structure Buffer (n : Nat) where
  chunks : Fin n → Chunk
  ridx : Fin n
  widx : Fin n

/-- A pointer into a chunk's data. -/
structure Pos (n : Nat) where
  chunk : Fin n
  off : Nat

namespace Buffer
variable {n : Nat}

/-- `idx++; idx %= buffer_nr_chunks`. -/
def next (i : Fin n) : Fin n := ⟨(i + 1) % n, Nat.mod_lt _ i.pos⟩

def setChunk (b : Buffer n) (i : Fin n) (c : Chunk) : Buffer n :=
  {b with chunks := Function.update b.chunks i c}

/-- The pointer is left unset when nothing is available. -/
def getRpos (b : Buffer n) : Option (Pos n) × Nat :=
  let c := b.chunks b.ridx
  if c.filled then (some ⟨b.ridx, c.l⟩, c.h - c.l) else (none, 0)

def getWpos (b : Buffer n) : Option (Pos n) × Nat :=
  let c := b.chunks b.widx
  if !c.filled then (some ⟨b.widx, c.h⟩, chunkSize - c.h) else (none, 0)

/-- `none` is `BUG_ON(!c->filled)`. -/
def consume (b : Buffer n) (count : Nat) : Option (Buffer n) :=
  let c := b.chunks b.ridx
  if !c.filled then none
  else
    let c := {c with l := c.l + count}
    if c.l = c.h then
      some {b.setChunk b.ridx {c with l := 0, h := 0, filled := false} with ridx := next b.ridx}
    else some (b.setChunk b.ridx c)

/-- A chunk is marked filled if less than 1024 bytes are free or `count` is zero;
`none` is `BUG_ON(c->filled)`. -/
def fill (b : Buffer n) (count : Nat) : Option (Buffer n × Bool) :=
  let c := b.chunks b.widx
  if c.filled then none
  else
    let c := {c with h := c.h + count}
    if chunkSize - c.h < 1024 ∨ (count = 0 ∧ c.h > 0) then
      some ({b.setChunk b.widx {c with filled := true} with widx := next b.widx}, true)
    else some (b.setChunk b.widx c, false)

def reset (b : Buffer n) (hn : 0 < n) : Buffer n where
  chunks i := {b.chunks i with l := 0, h := 0, filled := false}
  ridx := ⟨0, hn⟩
  widx := ⟨0, hn⟩

def getFilledChunks (b : Buffer n) : Nat :=
  if b.ridx < b.widx then b.widx - b.ridx
  else if b.ridx > b.widx then n - b.ridx + b.widx
  else if (b.chunks b.ridx).filled then n
  else 0

end Buffer

/-- The bytes `l ≤ · < h` of a chunk's data. -/
def slice (data : Nat → UInt8) (l h : Nat) : List UInt8 := (List.range' l (h - l)).map data

/-- What a chunk holds for the consumer. -/
def Chunk.bytes (c : Chunk) : List UInt8 := slice c.data c.l c.h

/-- Storing bytes from an offset on. -/
def Chunk.write (c : Chunk) (off : Nat) (bytes : List UInt8) : Chunk :=
  {c with data := fun j => if off ≤ j ∧ j < off + bytes.length then bytes.getD (j - off) 0
    else c.data j}

/-- What `buffer_get_rpos` or `buffer_get_wpos` returned to its caller. -/
structure Grant (n : Nat) where
  pos : Option (Pos n)
  size : Nat

/-- The buffer, what each thread holds between its calls, and the two histories:
the bytes reported to `buffer_fill` and the bytes reported to `buffer_consume`.
`taken` is what the consumer has read through its pointer and not yet reported. -/
structure System (n : Nat) where
  buffer : Buffer n
  producer : Option (Grant n)
  consumer : Option (Grant n)
  taken : Option (List UInt8)
  produced : List UInt8
  consumed : List UInt8

inductive Event where
  | getWpos
  | write (bytes : List UInt8)
  | fill (count : Nat)
  | getRpos
  | read
  | consume (count : Nat)

namespace System
variable {n : Nat}

/-- After `buffer_init`: fresh memory, reset. -/
def start (memory : Buffer n) (hn : 0 < n) : System n :=
  ⟨memory.reset hn, none, none, none, [], []⟩

/-- The bytes a grant's pointer gives access to. -/
def readable (b : Buffer n) (g : Grant n) : List UInt8 :=
  match g.pos with
  | none => []
  | some p => slice (b.chunks p.chunk).data p.off (p.off + g.size)

/-- One step of one thread; `none` where the thread has no such step (it reports
more than it was granted) or where the call hits its `BUG_ON`. -/
def step (s : System n) : Event → Option (System n)
  | .getWpos =>
    let (pos, size) := s.buffer.getWpos
    some {s with producer := some ⟨pos, size⟩}
  | .write bytes =>
    match s.producer with
    | none => none
    | some g =>
      if bytes.length ≤ g.size then
        match g.pos with
        | none => some s
        | some p => some {s with
            buffer := s.buffer.setChunk p.chunk ((s.buffer.chunks p.chunk).write p.off bytes)}
      else none
  | .fill count =>
    match s.producer with
    | none => none
    | some g =>
      if count ≤ g.size then
        (s.buffer.fill count).map fun (b, _) =>
          {s with
            buffer := b
            producer := none
            produced := s.produced ++ (readable s.buffer g).take count}
      else none
  | .getRpos =>
    let (pos, size) := s.buffer.getRpos
    some {s with consumer := some ⟨pos, size⟩, taken := none}
  | .read =>
    match s.consumer with
    | none => none
    | some g => some {s with taken := some (readable s.buffer g)}
  | .consume count =>
    match s.consumer, s.taken with
    | some g, some bytes =>
      if count ≤ g.size then
        (s.buffer.consume count).map fun b =>
          {s with
            buffer := b
            consumer := none
            taken := none
            consumed := s.consumed ++ bytes.take count}
      else none
    | _, _ => none

end System

end GracefulMusic.Playback
