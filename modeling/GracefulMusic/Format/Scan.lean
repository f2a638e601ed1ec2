import GracefulMusic.Expr.Eval
import GracefulMusic.Expr.ShortForm

/-! The options of a format and the conditions on them (`format_print.c`).

A table of options is the part of the array before its end mark. A string option without
a value is empty, so that there is no NULL. Floating-point values stay abstract. -/
namespace GracefulMusic.Format

/-- The type of an option, with its value. -/
inductive FoValue (D : Type) where
  | str (val : Text)
  | int (val : Int)
  | time (val : Int)
  | double (val : D)

/-- `struct format_option`. -/
structure FormatOption (D : Type) where
  value : FoValue D
  empty : Bool
  padZero : Bool
  ch : UInt8
  str : Option Text

/-- What the options of the program give for a key, beside the environment of
expressions. -/
structure Env extends Expr.Env where
  option : Text → Option Text

def strnequal (a : Option Text) (b : Text) : Bool := a = some b

variable {D : Type} (env : Env) (fopts : List (FormatOption D))

def findFopt (key : Text) : Option (FormatOption D) :=
  let ch := if key.length = 1 then key.headD 0 else 0
  fopts.find? fun fo => (ch ≠ 0 && fo.ch = ch) || strnequal fo.str key

/-- A string, and where it is: in the table, or in the buffer of the caller. -/
inductive StrVal where
  | table (val : Text)
  | buffer (val : Text)

def StrVal.text : StrVal → Text
  | .table val | .buffer val => val

def strVal (key : Text) : Option StrVal :=
  match (findFopt fopts key).filter fun fo => !fo.empty with
  | some fo =>
    match fo.value with
    | .str val => some (.table val)
    | _ => none
  | none => (env.option key).map .buffer

def intVal (key : Text) : Int :=
  match (findFopt fopts key).filter fun fo => !fo.empty with
  | some fo =>
    match fo.value with
    | .int val => val
    | _ => -1
  | none => -1

/-- What `eid.op` is in an integer leaf: the pointer before it covers both fields of the
leaf, and the node was zeroed. -/
def opBehindInt : Expr.Op := .lt

/-- Values that are not set are equal only to each other. -/
def unsetToBool (res : Int) : Expr.Op → Bool
  | .eq => res = 0
  | .ne => res ≠ 0
  | _ => false

/-- Two strings that are both in the buffer: the second one has replaced the first. -/
def evalId (key : Text) (op : Expr.Op) (other : Text) : Bool :=
  match strVal env fopts key, strVal env fopts other with
  | some (.buffer _), some (.buffer sb) => Expr.exprOpToBool (strcmp sb sb) op
  | some sa, some sb => Expr.exprOpToBool (strcmp sa.text sb.text) op
  | _, _ =>
    let a := intVal fopts key
    let b := intVal fopts other
    let res := toInt (a - b)
    if a = -1 ∨ b = -1 then unsetToBool res op else Expr.exprOpToBool res op

def evalBool (key : Text) : Bool :=
  if key = ascii "stream" then
    match findFopt fopts (ascii "filename") with
    | some ⟨.str val, _, _, _, _⟩ => Expr.isHttpUrl val
    | _ => false
  else
    match findFopt fopts key with
    | some fo => !fo.empty
    | none => (env.option key).any fun val => val ≠ ascii "false" && val ≠ []

/-- `format_eval_cond` of a condition; there is always one. -/
def formatEvalCond : Expr → Bool
  | .and left right => formatEvalCond left && formatEvalCond right
  | .or left right => formatEvalCond left || formatEvalCond right
  | .not left => !formatEvalCond left
  | .str key op pattern =>
    let res := env.globMatch pattern (((strVal env fopts key).map StrVal.text).getD [])
    if op = .eq then res else !res
  | .int key op val =>
    let v := intVal fopts key
    let res := toInt (v - val)
    if v = -1 ∨ val = -1 then unsetToBool res opBehindInt else Expr.exprOpToBool res op
  | .id key op other => evalId env fopts key op other
  | .bool key => evalBool env fopts key

end GracefulMusic.Format

/-! How a format is read: characters, modifiers, names and the parts of a conditional
(`format_print.c`).

A position is an index into the string. Loops count down a fuel, and loops over the whole
string start with `enough`. -/
namespace GracefulMusic.Format

/-- What a function can fail with: it reads behind the terminator, a `BUG_ON` holds, or a
loop has no fuel left. -/
inductive Fault where
  | overread
  | bug
  | fuel
  deriving DecidableEq

theorem ok_bind {α β : Type} (a : α) (f : α → Except Fault β) : (Except.ok a >>= f) = f a := rfl

theorem bind_eq_ok {α β : Type} {x : Except Fault α} {f : α → Except Fault β} {b : β} :
    x >>= f = .ok b ↔ ∃ a, x = .ok a ∧ f a = .ok b := by
  cases x with
  | error fault => exact iff_of_false nofun fun ⟨_, h, _⟩ => nomatch h
  | ok a => exact ⟨fun h => ⟨a, rfl, h⟩, fun ⟨_, h, hf⟩ => Except.ok.inj h ▸ hf⟩

/-- Two checks, one after the other. -/
theorem both_eq_ok {x y : Except Fault Bool} :
    (do if !(← x) then .ok false else y) = .ok true ↔ x = .ok true ∧ y = .ok true := by
  rcases x with fault | _ | _
  · exact iff_of_false nofun fun h => nomatch h.1
  · exact iff_of_false nofun fun h => nomatch h.1
  · exact (and_iff_right rfl).symm

/-- A loop over a string that advances comes to read the terminator, or goes too far. -/
def enough (format : Text) : Nat := format.length + 2

def byteAt (format : Text) (s : Nat) : Except Fault UInt8 :=
  if s = format.length then .ok 0
  else
    match format[s]? with
    | some c => .ok c
    | none => .error .overread

def getChar (format : Text) (s : Nat) : Except Fault (Uchar × Nat) :=
  match uGetChar format s with
  | some r => .ok r
  | none => .error .overread

def isDigitU (u : Uchar) : Bool := uch '0' ≤ u && u ≤ uch '9'

/-! ### Skipping -/

/-- `while (isdigit(u))`. -/
def skipDigits (format : Text) : Nat → Uchar → Nat → Except Fault (Uchar × Nat)
  | 0, _, _ => .error .fuel
  | fuel + 1, u, s =>
    if isDigitU u then do
      let (u, s) ← getChar format s
      skipDigits format fuel u s
    else .ok (u, s)

/-- The next character, if this one is `c`. -/
def skipIf (format : Text) (c : Char) (u : Uchar) (s : Nat) : Except Fault (Uchar × Nat) :=
  if u = uch c then getChar format s else .ok (u, s)

/-- What `format_skip_cond_expr` takes for the modifiers of a name. -/
def skipModifiers (format : Text) (u : Uchar) (s : Nat) : Except Fault (Uchar × Nat) := do
  let (u, s) ← skipIf format '-' u s
  let (u, s) ← skipIf format '.' u s
  skipDigits format (enough format) u s

/-- After a percent sign these stand for themselves or switch the alignment. -/
def isPlain (u : Uchar) : Bool := u = uch '%' || u = uch '?' || u = uch '!' || u = uch '='

/-- The loop of `format_skip_cond_expr` over open braces; `false` if the string ends. -/
def skipBraces (format : Text) : Nat → Nat → Nat → Except Fault (Bool × Nat)
  | 0, _, _ => .error .fuel
  | fuel + 1, level, s =>
    if level = 0 then .ok (true, s)
    else do
      let (u, s) ← getChar format s
      if u = 0 then .ok (false, s)
      else
        let level := if u = uch '}' then level - 1 else level
        if u ≠ uch '%' then skipBraces format fuel level s
        else do
          let (u, s) ← getChar format s
          if isPlain u then skipBraces format fuel level s
          else do
            let (u, s) ← skipModifiers format u s
            if u = 0 then .ok (false, s)
            else skipBraces format fuel (if u = uch '{' then level + 1 else level) s

def formatSkipCondExpr (format : Text) : Nat → Nat → Except Fault (Uchar × Nat)
  | 0, _ => .error .fuel
  | fuel + 1, s => do
    let c ← byteAt format s
    if c = 0 then .ok (0, s)
    else do
      let (u, s) ← getChar format s
      if u = uch '}' ∨ u = uch '?' then .ok (u, s)
      else if u ≠ uch '%' then formatSkipCondExpr format fuel s
      else do
        let (u, s) ← getChar format s
        if isPlain u then formatSkipCondExpr format fuel s
        else do
          let (u, s) ← skipModifiers format u s
          if u = uch '{' then do
            let (closed, s) ← skipBraces format (enough format) 1 s
            if closed then formatSkipCondExpr format fuel s else .ok (0, s)
          else formatSkipCondExpr format fuel s

/-! ### Conditionals -/

/-- Where the branches of a conditional start and where it ends. -/
structure Branches where
  thenPos : Nat
  elsePos : Option Nat
  endPos : Nat

/-- `none` is the return value 1. -/
def formatReadCond (format : Text) (s : Nat) : Except Fault (Option Branches) := do
  let (t, s) ← formatSkipCondExpr format (enough format) s
  if t ≠ uch '?' then .ok none
  else do
    let a := s - 1
    let (t, s) ← formatSkipCondExpr format (enough format) s
    if t = 0 then .ok none
    else if t = uch '?' then do
      let b := s - 1
      let (t, s) ← formatSkipCondExpr format (enough format) s
      if t ≠ uch '}' then .ok none else .ok (some ⟨a, some b, s - 1⟩)
    else .ok (some ⟨a, none, s - 1⟩)

/-- The condition from its position to the branches; `none` is NULL. -/
def formatParseCond (env : Expr.Env) (format : Text) (condPos thenPos : Nat) : Option Expr :=
  (Expr.exprParseI env ((format.drop condPos).take (thenPos - condPos))
    (ascii "condition contains control characters") false).toOption

namespace Branches

/-- The first branch, with the size of it. -/
def yes (b : Branches) (format : Text) : Text × Nat :=
  (format.drop (b.thenPos + 1), (b.elsePos.getD b.endPos) - b.thenPos - 1)

/-- The second branch, if there is one. -/
def no (b : Branches) (format : Text) : Option (Text × Nat) :=
  b.elsePos.map fun elsePos => (format.drop (elsePos + 1), b.endPos - elsePos - 1)

end Branches

/-! ### Names -/

/-- The loop over a long name, from the position behind the brace: the length in
characters and the position after it. `none` if the name does not end in the format. -/
def readLongName (format : Text) (fSize : Nat) : Nat → Nat → Nat →
    Except Fault (Option (Nat × Nat))
  | 0, _, _ => .error .fuel
  | fuel + 1, s, longLen =>
    if fSize ≤ s then .ok none
    else do
      let (u, s) ← getChar format s
      if u = uch '}' then .ok (some (longLen, s))
      else readLongName format fSize fuel s (longLen + 1)

/-- A `char`, which is signed, as a character. -/
def charToUchar (c : UInt8) : Uchar := if c < 0x80 then c.toUInt32 else c.toUInt32 ||| 0xffffff00

/-- What an option is looked up by. -/
inductive Key where
  | long (name : Text)
  | short (u : Uchar)
  deriving DecidableEq

/-- The name has `longLen` bytes from `longBegin`, or there is none. -/
def Key.of (format : Text) (longBegin longLen : Nat) (u : Uchar) : Key :=
  if longLen ≠ 0 then .long ((format.drop longBegin).take longLen) else .short u

def FormatOption.matches {D : Type} (fo : FormatOption D) : Key → Bool
  | .long name => strnequal fo.str name
  | .short u => charToUchar fo.ch = u

end GracefulMusic.Format
