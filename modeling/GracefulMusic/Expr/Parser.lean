import GracefulMusic.Expr.Eval

/-! The long form of filter expressions: tokens and parser (`expr.c`).

A function that fails returns what `expr_error` then gives. Where the source walks a
string or a token list, the rest of it is passed on here. The loops count down a
fuel that starts above the length of their input. -/
namespace GracefulMusic.Expr

inductive TokenType where
  | not | lt | gt | eq | and | or | lparen | rparen | ne | le | ge
  | key | intOrKey | str
  deriving DecidableEq

/-- `text` is empty for the special characters. -/
structure Token where
  type : TokenType
  text : Text
  deriving DecidableEq

def Token.special (type : TokenType) : Token := ⟨type, []⟩

/-- `tok_to_op`. -/
def TokenType.toOp : TokenType → Option Op
  | .lt => some .lt
  | .gt => some .gt
  | .eq => some .eq
  | .ne => some .ne
  | .le => some .le
  | .ge => some .ge
  | _ => none

def opName : Op → Text
  | .lt => ascii "<"
  | .le => ascii "<="
  | .eq => ascii "="
  | .ge => ascii ">="
  | .gt => ascii ">"
  | .ne => ascii "!="

/-- The token a special character makes on its own. -/
def special (c : UInt8) : Option TokenType :=
  if c = ch '!' then some .not
  else if c = ch '<' then some .lt
  else if c = ch '>' then some .gt
  else if c = ch '=' then some .eq
  else if c = ch '&' then some .and
  else if c = ch '|' then some .or
  else if c = ch '(' then some .lparen
  else if c = ch ')' then some .rparen
  else none

/-- The first three special characters combine with a `=`. -/
def TokenType.combined : TokenType → Option TokenType
  | .not => some .ne
  | .lt => some .le
  | .gt => some .ge
  | _ => none

/-- `set_error`: the message as far as the buffer holds it. -/
def setError {α : Type} (msg : Text) : Except Text α := .error (msg.take 63)

/-- The string up to its closing quote, and what follows. The backslashes stay in. -/
def getStr : Text → Except Text (Text × Text)
  | [] => setError (ascii "end of expression at middle of string")
  | c :: rest =>
    if c = ch '"' then .ok ([], rest)
    else if c = ch '\\' then
      match rest with
      | [] => setError (ascii "end of expression at middle of string")
      | d :: rest => (getStr rest).map fun (s, rest) => (c :: d :: s, rest)
    else (getStr rest).map fun (s, rest) => (c :: s, rest)

/-- The loop of `get_int_or_key`, with `digits_only`. -/
def scanIntOrKey (digitsOnly : Bool) : Text → Except Text (Text × Bool × Text)
  | [] => .ok ([], digitsOnly, [])
  | c :: rest =>
    if isSpace c || (special c).isSome then .ok ([], digitsOnly, c :: rest)
    else if isDigit c || isAlpha c || c = ch '_' || c = ch '-' then
      (scanIntOrKey (digitsOnly && isDigit c) rest).map fun (s, d, rest) => (c :: s, d, rest)
    else setError (ascii "unexpected '" ++ [c] ++ ascii "'")

def getIntOrKey (s : Text) : Except Text (Token × Text) := do
  let (sign, body) := if s.head? = some (ch '-') then ([ch '-'], s.tail) else ([], s)
  let (text, digitsOnly, rest) ← scanIntOrKey true body
  .ok (⟨if digitsOnly then .intOrKey else .key, sign ++ text⟩, rest)

/-- A token from a string that does not start with a space. -/
def getToken : Text → Except Text (Token × Text)
  | [] => getIntOrKey []
  | c :: rest =>
    match special c with
    | some type =>
      match type.combined, rest with
      | some combined, d :: rest' =>
        if d = ch '=' then .ok (.special combined, rest') else .ok (.special type, rest)
      | _, _ => .ok (.special type, rest)
    | none =>
      if c = ch '"' then (getStr rest).map fun (s, rest) => (⟨.str, s⟩, rest)
      else getIntOrKey (c :: rest)

def tokenizeLoop : Nat → Text → Except Text (List Token)
  | 0, _ => .ok []
  | fuel + 1, s =>
    match s.dropWhile isSpace with
    | [] => .ok []
    | c :: rest => do
      let (tok, rest) ← getToken (c :: rest)
      let toks ← tokenizeLoop fuel rest
      .ok (tok :: toks)

def tokenize (s : Text) : Except Text (List Token) := tokenizeLoop (s.length + 1) s

/-- The branches of `parse_one` for a key: a boolean, or a comparison with what follows
the operator. -/
def parseKey (key : Text) (toks : List Token) : Except Text (Expr × List Token) :=
  match toks.head?.bind fun tok => tok.type.toOp with
  | none => .ok (.bool key, toks)
  | some op =>
    match toks.tail with
    | [] => setError (ascii "right side of expression expected")
    | tok :: rest =>
      match tok.type with
      | .str =>
        if op = .eq ∨ op = .ne then .ok (.str key op tok.text, rest)
        else setError (ascii "invalid string operator '" ++ opName op ++ ascii "'")
      | .intOrKey => .ok (.int key op (toInt (strToInt tok.text).1), rest)
      | .key => .ok (.id key op tok.text, rest)
      | _ =>
        if op = .eq ∨ op = .ne then setError (ascii "integer or string expected")
        else setError (ascii "integer expected")

/-- The binary operators; `add` hangs them over the tree so far. -/
inductive Connective where
  | and | or
  deriving DecidableEq

def Connective.join : Connective → Expr → Expr → Expr
  | .and => .and
  | .or => .or

/-- `add` of an operand: the root, or the right side the tree is still missing. -/
def addOperand : Option (Connective × Expr) → Expr → Expr
  | none, e => e
  | some (conn, root), e => conn.join root e

mutual

def parseOne : Nat → List Token → Except Text (Expr × List Token)
  | 0, _ => setError []
  | _ + 1, [] => setError (ascii "expression expected")
  | fuel + 1, tok :: rest =>
    match tok.type with
    | .not => do
      let (e, rest) ← parseOne fuel rest
      .ok (.not e, rest)
    | .lparen => parse fuel 1 none rest
    | .key => parseKey tok.text rest
    | .intOrKey => parseKey tok.text rest
    | _ => setError (ascii "key expected")

/-- One round of the loop of `parse`; `root` is the tree so far with the operator that
waits for its right side. -/
def parse : Nat → Nat → Option (Connective × Expr) → List Token → Except Text (Expr × List Token)
  | 0, _, _, _ => setError []
  | fuel + 1, level, root, toks => do
    let (e, rest) ← parseOne fuel toks
    let root := addOperand root e
    match rest with
    | [] => if level > 0 then setError (ascii "')' expected") else .ok (root, [])
    | tok :: rest =>
      match tok.type with
      | .rparen => if level = 0 then setError (ascii "unexpected ')'") else .ok (root, rest)
      | .and => parse fuel level (some (.and, root)) rest
      | .or => parse fuel level (some (.or, root)) rest
      | _ => setError (ascii "'&' or '|' expected")

end

/-- Each call of the two functions takes a token from the list or is followed by one
that does. -/
def parseTokens (toks : List Token) : Except Text Expr :=
  (parse (2 * toks.length + 2) 0 none toks).map Prod.fst

end GracefulMusic.Expr
