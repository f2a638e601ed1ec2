import GracefulMusic.Foundation.Frames
import GracefulMusic.Foundation.Runs
import GracefulMusic.Text

/-! What a client sends to the server (`server.c`).

A step is one call of `read`; `again` ends the call of `read_commands` it is made in and
begins the next. The log holds every line that was handled, whole, with what was done
about it. -/
namespace GracefulMusic.Server

structure Env where
  /-- The server listens on a UNIX socket. -/
  unix : Bool
  serverPassword : Option Text
  /-- Whether a line's answer is written, by the number of lines before it. -/
  answered : Nat → Bool

inductive Command where
  | search (forward restricted : Bool) (text : Text)
  | status
  | formatPrint (arg : Option Text)
  | run (cmd : Text) (arg : Option Text)
  /-- only answered -/
  | passwd
  | nothing
  deriving DecidableEq

inductive Outcome where
  | disabled
  | refused
  | accepted
  | executed (command : Command)
  deriving DecidableEq

structure Client where
  authenticated : Bool
  closed : Bool
  handled : List (Text × Outcome)
  deriving DecidableEq

/-- A connection with the first `pos` bytes of the buffer. -/
structure Conn where
  client : Client
  buf : Text
  deriving DecidableEq

/-- What `read` gives. -/
inductive Read where
  | data (chunk : Text)
  | interrupted
  | again
  /-- the end, or an error -/
  | stop

def bufSize : Nat := 1024

def newline : UInt8 := ch '\n'

/-! ### Lines -/

def parseCommand (buf : Text) : Option (Text × Option Text) :=
  let buf := buf.dropWhile (· = ch ' ')
  let cmd := buf.takeWhile (· ≠ ch ' ')
  let arg := (buf.dropWhile (· ≠ ch ' ')).dropWhile (· = ch ' ')
  if buf.head? = some (ch '#') then none
  else if cmd = [] then none
  else some (cmd, if arg = [] then none else some arg)

/-- A search is restricted where its mark stands twice. -/
def searchCommand (forward : Bool) (mark : UInt8) (line : Text) : Command :=
  if line.head? = some mark then .search forward true line.tail else .search forward false line

def commandOf (line : Text) : Command :=
  let line := line.dropWhile isSpace
  if line.head? = some (ch '/') then searchCommand true (ch '/') line.tail
  else if line.head? = some (ch '?') then searchCommand false (ch '?') line.tail
  else
    match parseCommand line with
    | none => .nothing
    | some (cmd, arg) =>
      if cmd = ascii "status" then .status
      else if cmd = ascii "format_print" then .formatPrint arg
      else if cmd = ascii "passwd" then .passwd
      else .run cmd arg

def Client.log (c : Client) (raw : Text) (outcome : Outcome) : Client :=
  {c with handled := c.handled ++ [(raw, outcome)]}

def passwdArg (line : Text) : Text :=
  if (ascii "passwd ").isPrefixOf line then line.drop 7 else line

/-- One line of the buffer. It is a string, and ends before a NUL. -/
def handleLine (env : Env) (c : Client) (raw : Text) : Client :=
  let line := raw.takeWhile (· ≠ 0)
  if !c.authenticated then
    match env.serverPassword with
    | none => {c.log raw .disabled with closed := true}
    | some password =>
      if passwdArg line = password then {c.log raw .accepted with authenticated := true}
      else {c.log raw .refused with closed := true}
  else
    let client := c.log raw (.executed (commandOf line))
    if env.answered c.handled.length then client else {client with closed := true}

/-! ### Reading -/

/-- The loop over the buffer, with what it has of the current line. What it ends with is
moved to the front. -/
def scan (env : Env) : Text → Text → Client → Conn
  | [], line, c => ⟨c, line⟩
  | b :: rest, line, c =>
    if b ≠ newline then scan env rest (line ++ [b]) c
    else if (handleLine env c line).closed then ⟨handleLine env c line, []⟩
    else scan env rest [] (handleLine env c line)

/-- A call of `read_commands`. -/
def begin (env : Env) (c : Client) : Conn :=
  ⟨{c with authenticated := c.authenticated || env.unix}, []⟩

def serverAccept (env : Env) : Conn := begin env ⟨false, false, []⟩

def Conn.close (s : Conn) : Conn := {s with client := {s.client with closed := true}}

/-- What is read fits into the rest of the buffer; where there is none, `read` gives 0.
Of a closed connection nothing more is read. -/
def step (env : Env) (s : Conn) (r : Read) : Option Conn :=
  if s.client.closed then some s
  else if s.buf.length = bufSize then some s.close
  else
    match r with
    | .data chunk =>
      if chunk ≠ [] ∧ s.buf.length + chunk.length ≤ bufSize then
        some (scan env (s.buf ++ chunk) [] s.client)
      else none
    | .interrupted => some s
    | .again => some (begin env s.client)
    | .stop => some s.close

/-! ### What should be handled -/

/-- The stream of the client, however it is split. -/
def received : List Read → Text
  | [] => []
  | .data chunk :: reads => chunk ++ received reads
  | .stop :: _ => []
  | _ :: reads => received reads

def handleNext (env : Env) (c : Client) (raw : Text) : Client :=
  if c.closed then c else handleLine env c raw

/-- The lines of a stream, one after the other, up to the first that does not fit into the
buffer. -/
def follow (env : Env) (c : Client) (cur stream : Text) : Client :=
  ((Frames.frames newline cur stream).takeWhile fun raw => raw.length < bufSize).foldl
    (handleNext env) c

def linesHandled (env : Env) (stream : Text) : List (Text × Outcome) :=
  (follow env (serverAccept env).client [] stream).handled

/-- A line carries the password, with or without the name of the command. -/
def Carries (password raw : Text) : Prop :=
  raw.takeWhile (· ≠ 0) = password ∨ raw.takeWhile (· ≠ 0) = ascii "passwd " ++ password

/-- Nothing is executed before a line that carries the password. -/
def Guarded (env : Env) (handled : List (Text × Outcome)) : Prop :=
  env.unix = false → ∀ password, env.serverPassword = some password →
    ∀ before raw command behind, handled = before ++ (raw, .executed command) :: behind →
      ∃ line, (line, Outcome.accepted) ∈ before ∧ Carries password line

/-- Whether a newline comes while there is room. -/
def completes : Nat → List Read → Bool
  | _, [] => false
  | room, .data chunk :: reads =>
    room ≠ 0 && (newline ∈ chunk || completes (room - chunk.length) reads)
  | room, .interrupted :: reads => room ≠ 0 && completes room reads
  | room, .again :: reads => room ≠ 0 && completes bufSize reads
  | _, .stop :: _ => false

/-- A call that ends inside a line is followed by no newline. -/
def Kept (env : Env) (reads : List Read) : Prop :=
  ∀ front rest s, reads = front ++ .again :: rest →
    Runs.run (step env) (serverAccept env) front = some s → s.client.closed = false →
    s.buf ≠ [] → s.buf.length < bufSize → completes bufSize rest = false

end GracefulMusic.Server
