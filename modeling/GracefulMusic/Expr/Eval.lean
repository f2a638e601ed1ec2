import GracefulMusic.TrackInfo

/-! Filter expressions and their evaluation (`expr.c`).

The glob matcher and the conversion from the locale's charset are parameters of the
evaluation; `utf8Encode` is `none` where the locale uses UTF-8 already or the
conversion fails, and the string is then taken as it is. -/
namespace GracefulMusic.Expr

/-- The `OP_*` constants. -/
inductive Op where
  | lt | le | eq | ge | gt | ne
  deriving DecidableEq

end Expr

/-- A `struct expr`: inner nodes, and leaves with their key. A string leaf keeps the
pattern its glob is compiled from. -/
inductive Expr where
  | and (left right : Expr)
  | or (left right : Expr)
  | not (left : Expr)
  | str (key : Text) (op : Expr.Op) (pattern : Text)
  | int (key : Text) (op : Expr.Op) (val : Int)
  | id (key : Text) (op : Expr.Op) (other : Text)
  | bool (key : Text)
  deriving DecidableEq

namespace Expr

structure Env where
  globMatch : Text → Text → Bool
  utf8Encode : Text → Option Text

/-- UTF-8 throughout, and a matcher that compares. -/
def plainEnv : Env := ⟨fun pattern text => pattern = text, fun _ => none⟩

/-- A string, converted from the locale's charset. -/
def Env.encoded (env : Env) (s : Text) : Text := (env.utf8Encode s).getD s

def keyValueGetValue (comments : List (Text × Text)) (key : Text) : Option Text :=
  (comments.find? fun kv => strcasecmp kv.1 key = 0).map Prod.snd

/-- The first number in the value, whatever stands before it. -/
def commentsGetInt (comments : List (Text × Text)) (key : Text) : Int :=
  match keyValueGetValue comments key with
  | none => -1
  | some val =>
    let (ival, ok) := strToInt (val.dropWhile fun c => !isDigit c)
    if ok then toInt ival else -1

def isHttpUrl (name : Text) : Bool := (ascii "http://").isPrefixOf name

def trackInfoHasTag (ti : TrackInfo) : Bool :=
  ti.artist.isSome || ti.album.isSome || ti.title.isSome

def strVal (env : Env) (key : Text) (ti : TrackInfo) : Option Text :=
  if key = ascii "filename" then some (env.encoded ti.filename)
  else if key = ascii "codec" then ti.codec
  else if key = ascii "codec_profile" then ti.codecProfile
  else keyValueGetValue ti.comments key

def intVal (key : Text) (ti : TrackInfo) : Int :=
  if key = ascii "duration" then
    -- duration of a stream is infinite (well, almost)
    if isHttpUrl ti.filename then intMax else ti.duration
  else if key = ascii "date" then
    if ti.date ≥ 0 then ti.date / 10000 else -1
  else if key = ascii "originaldate" then
    if ti.originaldate ≥ 0 then ti.originaldate / 10000 else -1
  else if key = ascii "bitrate" then
    -- to the nearest thousand
    if ti.bitrate ≥ 0 then toInt ((ti.bitrate + 500) / 1000) else -1
  else if key = ascii "play_count" then toInt ti.playCount
  else if key = ascii "bpm" then ti.bpm
  else commentsGetInt ti.comments key

def exprOpToBool (res : Int) : Op → Bool
  | .lt => res < 0
  | .le => res ≤ 0
  | .eq => res = 0
  | .ge => res ≥ 0
  | .gt => res > 0
  | .ne => res ≠ 0

/-- The string branch of `expr_eval`. -/
def evalStr (env : Env) (key : Text) (op : Op) (pattern : Text) (ti : TrackInfo) : Bool :=
  let res := env.globMatch pattern ((strVal env key ti).getD [])
  if op = .eq then res else !res

/-- The integer branch of `expr_eval`: -1 is "not set", which equals only itself and is
not compared. -/
def evalInt (key : Text) (op : Op) (val : Int) (ti : TrackInfo) : Bool :=
  let v := intVal key ti
  if val = -1 ∧ op = .eq then v = -1
  else if val = -1 ∧ op = .ne then v ≠ -1
  else if v = -1 then false
  else exprOpToBool (toInt (v - val)) op

/-- The identifier branch of `expr_eval`: two strings, or two integers. -/
def evalId (env : Env) (key : Text) (op : Op) (other : Text) (ti : TrackInfo) : Bool :=
  match strVal env key ti with
  | some sa =>
    match strVal env other ti with
    | some sb => exprOpToBool (strcmp sa sb) op
    | none => false
  | none =>
    let a := intVal key ti
    let b := intVal other ti
    let res := toInt (a - b)
    if a = -1 ∨ b = -1 then
      match op with
      | .eq => res = 0
      | .ne => res ≠ 0
      | _ => false
    else exprOpToBool res op

/-- The rest of `expr_eval`: there are two booleans. -/
def evalBool (key : Text) (ti : TrackInfo) : Bool :=
  if key = ascii "stream" then isHttpUrl ti.filename else trackInfoHasTag ti

def eval (env : Env) (ti : TrackInfo) : Expr → Bool
  | and left right => left.eval env ti && right.eval env ti
  | or left right => left.eval env ti || right.eval env ti
  | not left => !left.eval env ti
  | str key op pattern => evalStr env key op pattern ti
  | int key op val => evalInt key op val ti
  | id key op other => evalId env key op other ti
  | bool key => evalBool key ti

/-- `expr_is_harmless`. An `AND` is judged by its right side; no further look is taken
at what kind of node that is. -/
def isHarmless : Expr → Bool
  | or _ _ => false
  | not _ => false
  | and _ right => leaf right
  | e => leaf e
where
  leaf : Expr → Bool
    | int _ op _ => !(op = .lt || op = .eq || op = .le)
    | id _ _ _ => false
    | _ => true

end Expr

end GracefulMusic
