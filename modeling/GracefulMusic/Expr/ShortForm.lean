import GracefulMusic.Expr.Parser
import GracefulMusic.Uchar

/-! The short form of filter expressions: its expansion (`expr.c`).

`expand_short_expr` is an automaton with a stack of states that reads the short form,
its terminator included, and writes the long form. A state that does not use up the
character (`i--` in the source) passes it to the state below. The scratch state `num`
outlives the operand it was filled for. -/
namespace GracefulMusic.Expr

/-- `map_short2long`. -/
def shortKeys : List (UInt8 × Text) :=
  [(ch 'A', ascii "albumartist"), (ch 'D', ascii "discnumber"), (ch 'T', ascii "tag"),
    (ch 'a', ascii "artist"), (ch 'c', ascii "comment"), (ch 'd', ascii "duration"),
    (ch 'f', ascii "filename"), (ch 'g', ascii "genre"), (ch 'l', ascii "album"),
    (ch 'n', ascii "tracknumber"), (ch 'X', ascii "play_count"), (ch 's', ascii "stream"),
    (ch 't', ascii "title"), (ch 'y', ascii "date")]

/-- The types of the leaves. -/
inductive KeyType where
  | str | int | bool
  deriving DecidableEq

/-- The table of keys. It is sorted, so that a lookup may stop early. -/
def builtin : List (Text × KeyType) :=
  [(ascii "album", .str), (ascii "albumartist", .str), (ascii "artist", .str),
    (ascii "bitrate", .int), (ascii "bpm", .int), (ascii "codec", .str),
    (ascii "codec_profile", .str), (ascii "comment", .str), (ascii "date", .int),
    (ascii "discnumber", .int), (ascii "duration", .int), (ascii "filename", .str),
    (ascii "genre", .str), (ascii "media", .str), (ascii "originaldate", .int),
    (ascii "play_count", .int), (ascii "stream", .bool), (ascii "tag", .bool),
    (ascii "title", .str), (ascii "tracknumber", .int)]

def lookupLongKey (c : UInt8) : Option Text :=
  (shortKeys.find? fun entry => entry.1 = c).map Prod.snd

def lookupKeyType (key : Text) : Option KeyType :=
  (builtin.find? fun entry => entry.1 = key).map Prod.snd

inductive ExpandState where
  | skipSpace | top | expectKey | expectOp | expectInt | inInt | memInt | in2ndInt
  | expectStr | inQuoteStr | inStr
  deriving DecidableEq

/-- The variables of the automaton beside its stack; `prev` is the character before the
current one. -/
structure Scratch where
  out : Text
  num : Text
  key : Text
  level : Int
  prev : UInt8
  deriving DecidableEq

def Scratch.write (x : Scratch) (s : Text) : Scratch := {x with out := x.out ++ s}

/-- One character, from the top of the stack. -/
def feed : List ExpandState → Scratch → UInt8 → Except Text (List ExpandState × Scratch)
  | [], x, _ => .ok ([], x)
  | .skipSpace :: rest, x, c =>
    if c = ch ' ' then .ok (.skipSpace :: rest, x) else feed rest x c
  | .top :: rest, x, c =>
    if c = ch '~' then .ok (.expectKey :: .skipSpace :: .expectOp :: .top :: rest, x)
    else if c = ch '(' then
      .ok (.skipSpace :: .top :: rest, {x.write [c] with level := x.level + 1})
    else if c = ch '!' ∨ c = ch '|' then .ok (.skipSpace :: .top :: rest, x.write [c])
    else if c = ch ')' then
      .ok (.skipSpace :: .expectOp :: .top :: rest, {x.write [c] with level := x.level - 1})
    else if c = 0 then
      if x.level > 0 then setError (ascii "')' expected") else .ok (.top :: rest, x.write [c])
    else setError (ascii "unexpected '" ++ [c] ++ ascii "'")
  | .expectKey :: rest, x, c =>
    match lookupLongKey c with
    | none => setError (ascii "unknown short key " ++ [c])
    | some key =>
      let x := {x with key}
      match lookupKeyType key with
      | some .int => .ok (.skipSpace :: .expectInt :: rest, x.write (ch '(' :: key))
      | some .str => .ok (.skipSpace :: .expectStr :: rest, x.write key)
      | _ => .ok (.skipSpace :: rest, x.write key)
  | .expectOp :: rest, x, c =>
    let x := if c = ch '~' ∨ c = ch '(' ∨ c = ch '!' then x.write [ch '&'] else x
    -- becomes ST_SKIP_SPACE, which reads the character again
    if c = ch ' ' then .ok (.skipSpace :: rest, x) else feed rest x c
  | .expectInt :: rest, x, c =>
    if c = ch '<' ∨ c = ch '>' then .ok (.inInt :: rest, x.write [c])
    else if c = ch '-' then .ok (.inInt :: rest, x.write (ascii "<="))
    else if isDigit c then .ok (.memInt :: rest, {x with num := x.num ++ [c]})
    else setError (ascii "integer expected")
  | .inInt :: rest, x, c =>
    if isDigit c then .ok (.inInt :: rest, x.write [c]) else feed rest (x.write (ascii ")")) c
  | .memInt :: rest, x, c =>
    if isDigit c then .ok (.memInt :: rest, {x with num := x.num ++ [c]})
    else if c = ch '-' then
      .ok (.in2ndInt :: rest, {x.write (ascii ">=" ++ x.num) with num := []})
    else feed rest {x.write (ascii "=" ++ x.num ++ ascii ")") with num := []} c
  | .in2ndInt :: rest, x, c =>
    if isDigit c then .ok (.in2ndInt :: rest, {x with num := x.num ++ [c]})
    else
      let upper := if x.num = [] then [] else ch '&' :: x.key ++ ascii "<=" ++ x.num
      feed rest (x.write (upper ++ ascii ")")) c
  | .expectStr :: rest, x, c =>
    if c = ch '"' then .ok (.inQuoteStr :: rest, x.write (ascii "=" ++ [c]))
    else .ok (.inStr :: rest, x.write (ascii "=\"*" ++ [c]))
  | .inQuoteStr :: rest, x, c =>
    if c = ch '"' ∧ x.prev ≠ ch '\\' then .ok (rest, x.write [c])
    else .ok (.inQuoteStr :: rest, x.write [c])
  | .inStr :: rest, x, c =>
    if c ≠ ch '~' ∧ c ≠ ch '!' ∧ c ≠ ch '|' ∧ c ≠ ch '(' ∧ c ≠ ch ')' ∧ c ≠ 0 then
      .ok (.inStr :: rest, x.write [c])
    else
      feed rest {x with out := x.out.rdropWhile (· = ch ' ') ++ ascii "*\""} c

theorem feed_skipSpace (rest : List ExpandState) (x : Scratch) (c : UInt8) :
    feed (.skipSpace :: rest) x c =
      if c = ch ' ' then .ok (.skipSpace :: rest, x) else feed rest x c := by
  rw [feed]

/-- The loop over the characters. -/
def feedAll : List ExpandState × Scratch → Text → Except Text (List ExpandState × Scratch)
  | s, [] => .ok s
  | s, c :: rest => do
    let (stack, x) ← feed s.1 s.2 c
    feedAll (stack, {x with prev := c}) rest

/-- The result is what stands before the first terminator in the output. -/
def expandShortExpr (exprShort : Text) : Except Text Text := do
  let (_, x) ← feedAll ([.skipSpace, .top], ⟨[], [], [], 0, 0⟩) (exprShort ++ [0])
  .ok (x.out.takeWhile (· ≠ 0))

def exprIsShort : Text → Bool
  | [] => false
  | c :: rest =>
    if c = ch '~' then true
    else if c ≠ ch '!' ∧ c ≠ ch '(' ∧ c ≠ ch ' ' then false
    else exprIsShort rest

def exprParseI (env : Env) (str errMsg : Text) (checkShort : Bool) : Except Text Expr := do
  if str.any (· < 0x20) then setError errMsg
  else
    let str := env.encoded str
    if uIsValid str then
      let str ← if checkShort && exprIsShort str then expandShortExpr str else .ok str
      let toks ← tokenize str
      parseTokens toks
    else setError (ascii "invalid UTF-8")

def exprParse (env : Env) (str : Text) : Except Text Expr :=
  exprParseI env str (ascii "filter contains control characters") true

example : expandShortExpr (ascii "~a foo (~y1990-1999 | !~s)") =
    .ok (ascii "artist=\"*foo*\"&((date>=1990&date<=1999)|!stream)") := by decide

end GracefulMusic.Expr
