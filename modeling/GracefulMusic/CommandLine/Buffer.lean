import GracefulMusic.Uchar.Chars
import GracefulMusic.Foundation.Runs

/-! The command line (`cmdline.c`).

`line` is the allocated memory, of `size` bytes. Reading or writing outside of it is
`none`; what an allocation adds is never read. Lengths fit into an `int`. -/
namespace GracefulMusic.CommandLine

structure Cmdline where
  line : Text
  size : Nat
  /-- length in bytes -/
  blen : Nat
  /-- length in characters -/
  clen : Int
  /-- pos in bytes -/
  bpos : Nat
  /-- pos in characters -/
  cpos : Int
  deriving DecidableEq

/-! ### Memory -/

/-- The string at the start of a buffer. -/
def cstr (buf : Text) : Text := buf.takeWhile (· ≠ 0)

def memmove (buf : Text) (dst src n : Nat) : Option Text :=
  if src + n ≤ buf.length ∧ dst + n ≤ buf.length then
    some (buf.take dst ++ ((buf.drop src).take n ++ buf.drop (dst + n)))
  else none

/-- Bytes written one after the other. -/
def write (buf : Text) (idx : Nat) (data : Text) : Option Text :=
  if idx + data.length ≤ buf.length then
    some (buf.take idx ++ (data ++ buf.drop (idx + data.length)))
  else none

def xrenew (buf : Text) (size : Nat) : Text := buf ++ List.replicate (size - buf.length) 0

/-! ### Operations -/

def cmdlineInit : Cmdline := ⟨List.replicate 128 0, 128, 0, 0, 0, 0⟩

def insertCh (c : Cmdline) (ch : Uchar) : Option Cmdline := do
  let size := uCharSize ch
  let c :=
    if c.blen + size > c.size then {c with size := c.size * 2, line := xrenew c.line (c.size * 2)}
    else c
  let line ← memmove c.line (c.bpos + size) c.bpos (c.blen - c.bpos + 1)
  let line ← write line c.bpos (uSetCharRaw ch)
  some {c with
    line
    bpos := c.bpos + (uSetCharRaw ch).length
    cpos := c.cpos + 1
    blen := c.blen + size
    clen := c.clen + 1}

def backspace (c : Cmdline) : Option Cmdline :=
  if c.bpos = 0 then some c
  else do
    let bpos := uPrevCharPos c.line c.bpos
    let size := c.bpos - bpos
    let line ← memmove c.line bpos c.bpos (c.blen - c.bpos + 1)
    some {c with
      line, bpos := c.bpos - size, cpos := c.cpos - 1, blen := c.blen - size, clen := c.clen - 1}

/-- Each round goes back. -/
def backspaceLoop : Nat → Cmdline → Option Cmdline
  | 0, c => some c
  | fuel + 1, c => if c.bpos = 0 then some c else (backspace c).bind (backspaceLoop fuel)

def backspaceToBol (c : Cmdline) : Option Cmdline := backspaceLoop c.bpos c

def deleteCh (c : Cmdline) : Option Cmdline :=
  if c.bpos = c.blen then some c
  else do
    let (ch, _) ← uGetChar c.line c.bpos
    let size := uCharSize ch
    let c := {c with blen := c.blen - size, clen := c.clen - 1}
    let line ← memmove c.line c.bpos (c.bpos + size) (c.blen - c.bpos + 1)
    some {c with line}

/-- The doubling of `cmdline_set_text`. -/
def grow (len : Nat) : Nat → Nat → Nat
  | 0, size => size
  | fuel + 1, size => if len ≥ size then grow len fuel (size * 2) else size

def setText (c : Cmdline) (text : Text) : Option Cmdline := do
  let len := text.length
  let c :=
    if len ≥ c.size then
      let size := grow len len c.size
      {c with size, line := xrenew c.line size}
    else c
  let line ← write c.line 0 (text ++ [0])
  let cpos := uStrlenSafe (cstr line)
  some {c with line, cpos, bpos := len, clen := cpos, blen := len}

def clear (c : Cmdline) : Option Cmdline := do
  let line ← write c.line 0 [0]
  some {c with line, blen := 0, clen := 0, bpos := 0, cpos := 0}

def clearEnd (c : Cmdline) : Option Cmdline := do
  let line ← write c.line c.bpos [0]
  some {c with line, clen := uStrlenSafe (cstr line), blen := (cstr line).length}

def moveLeft (c : Cmdline) : Option Cmdline :=
  if c.bpos > 0 then some {c with cpos := c.cpos - 1, bpos := uPrevCharPos c.line c.bpos}
  else some c

def moveRight (c : Cmdline) : Option Cmdline :=
  if c.bpos < c.blen then
    (uGetChar c.line c.bpos).map fun (_, bpos) => {c with bpos, cpos := c.cpos + 1}
  else some c

def moveHome (c : Cmdline) : Option Cmdline := some {c with cpos := 0, bpos := 0}

def moveEnd (c : Cmdline) : Option Cmdline := some {c with cpos := c.clen, bpos := c.blen}

/-- The loop of `next_word`. Forwards the character read is behind the position, backwards
before it. -/
def nextWordLoop (str delim : Text) (forward : Bool) :
    Nat → Nat → Int → Bool → Option (Nat × Int)
  | 0, _, _, _ => none
  | fuel + 1, bpos, cdiff, skipDelim =>
    if if forward then str[bpos]? ≠ some 0 else bpos > 0 then do
      let start := if forward then bpos else uPrevCharPos str bpos
      let (ch, next) ← uGetChar str start
      let (bpos, oldp) := if forward then (next, start) else (start, next)
      let diff := if forward then cdiff + 1 else cdiff - 1
      if uStrchr delim ch then
        if !skipDelim then some (oldp, cdiff) else nextWordLoop str delim forward fuel bpos diff true
      else nextWordLoop str delim forward fuel bpos diff false
    else some (bpos, cdiff)

def nextWord (str : Text) (bpos : Nat) (cdiff : Int) (delim : Text) (forward : Bool) :
    Option (Nat × Int) :=
  nextWordLoop str delim forward (str.length + 1) bpos cdiff true

def forwardWord (c : Cmdline) (delim : Text) : Option Cmdline :=
  (nextWord c.line c.bpos c.cpos delim true).map fun (bpos, cpos) => {c with bpos, cpos}

def backwardWord (c : Cmdline) (delim : Text) : Option Cmdline :=
  (nextWord c.line c.bpos c.cpos delim false).map fun (bpos, cpos) => {c with bpos, cpos}

def deleteWord (c : Cmdline) (delim : Text) : Option Cmdline := do
  let (bpos, cdiff) ← nextWord c.line c.bpos 0 delim true
  let line ← memmove c.line c.bpos bpos (c.blen - bpos + 1)
  some {c with line, blen := c.blen - (bpos - c.bpos), clen := c.clen - cdiff}

def backwardDeleteWord (c : Cmdline) (delim : Text) : Option Cmdline := do
  let (bpos, cdiff) ← nextWord c.line c.bpos 0 delim false
  let blen := c.blen + bpos - c.bpos
  let line ← memmove c.line bpos c.bpos (blen - bpos + 1)
  some {c with line, blen, bpos, clen := c.clen + cdiff, cpos := c.cpos + cdiff}

/-- The texts that are set are strings, and so end before their terminator. -/
inductive Op where
  | setText (text : {text : Text // 0 ∉ text})
  | insertCh (ch : Uchar)
  | backspace
  | deleteCh
  | backspaceToBol
  | clearEnd
  | clear
  | moveLeft
  | moveRight
  | moveHome
  | moveEnd
  | forwardWord (delim : Text)
  | backwardWord (delim : Text)
  | deleteWord (delim : Text)
  | backwardDeleteWord (delim : Text)

def step (c : Cmdline) : Op → Option Cmdline
  | .setText text => setText c text.val
  | .insertCh ch => insertCh c ch
  | .backspace => backspace c
  | .deleteCh => deleteCh c
  | .backspaceToBol => backspaceToBol c
  | .clearEnd => clearEnd c
  | .clear => clear c
  | .moveLeft => moveLeft c
  | .moveRight => moveRight c
  | .moveHome => moveHome c
  | .moveEnd => moveEnd c
  | .forwardWord delim => forwardWord c delim
  | .backwardWord delim => backwardWord c delim
  | .deleteWord delim => deleteWord c delim
  | .backwardDeleteWord delim => backwardDeleteWord c delim

/-! ### What should hold -/

/-- The lengths and positions agree with the line, which ends inside the buffer. -/
structure Good (c : Cmdline) : Prop where
  size : c.line.length = c.size
  blen : c.blen = (cstr c.line).length
  room : c.blen < c.size
  cursor : ∃ n : Nat, c.cpos = n ∧ charIndex (cstr c.line) n = some c.bpos
  clen : c.clen = uStrlenSafe (cstr c.line)

/-- The line from a position on. -/
def Cmdline.from (c : Cmdline) (idx : Nat) : Text := (c.line.take c.blen).drop idx

/-- A stretch of the line whose removal does not join the bytes around it. -/
def Cmdline.Removable (c : Cmdline) (start stop : Nat) : Prop :=
  ¬ Joins (c.line.take start) (c.from stop)

/-- Where an operation leaves the lengths in order: an insertion does not fill the buffer
to its last byte, a deleted character has the size its value asks for, and bytes that are
put side by side do not make up a character. -/
def Op.Safe (c : Cmdline) : Op → Prop
  | .insertCh ch => c.blen + uCharSize ch ≠ c.size ∧ 0 ∉ uSetCharRaw ch ∧
      ¬ Joins (c.line.take c.bpos) (uSetCharRaw ch ++ c.from c.bpos) ∧
      ¬ Joins (uSetCharRaw ch) (c.from c.bpos)
  | .backspace => c.bpos ≠ 0 → c.Removable (uPrevCharPos c.line c.bpos) c.bpos
  | .deleteCh => c.bpos ≠ c.blen → ∀ ch next, uGetChar c.line c.bpos = some (ch, next) →
      c.bpos + uCharSize ch = next ∧ c.Removable c.bpos next
  | .deleteWord delim => ∀ bpos cdiff, nextWord c.line c.bpos 0 delim true = some (bpos, cdiff) →
      c.Removable c.bpos bpos
  | .backwardDeleteWord delim => ∀ bpos cdiff,
      nextWord c.line c.bpos 0 delim false = some (bpos, cdiff) → c.Removable bpos c.bpos
  | _ => True

end GracefulMusic.CommandLine
