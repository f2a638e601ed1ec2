import GracefulMusic.Expr.ShortForm

/-! The short form as a language: its expressions, their spellings, what they mean.

An expression is a chain of operands, joined by juxtaposition ("and") and `|` from left
to right. `long` and `meaning` are compositional; `tokens` is the expression as it is
written, up to spaces, and a `Spelling` adds the spaces. Nothing here is computed by
the automaton that expands the short form. -/
namespace GracefulMusic.Expr

/-- A short key, with the long key it stands for. -/
structure Key (type : KeyType) where
  short : UInt8
  long : Text
  lookup : lookupLongKey short = some long
  typed : lookupKeyType long = some type

structure Digits where
  text : Text
  nonempty : text ≠ []
  digits : ∀ c ∈ text, isDigit c = true

/-- The `int` the digits denote. -/
def Digits.value (n : Digits) : Int := toInt (strToInt n.text).1

inductive NumOperand where
  | eq (n : Digits)
  | lt (n : Digits)
  | gt (n : Digits)
  | ge (n : Digits)
  | le (n : Digits)
  | range (n m : Digits)

/-- A quote ends a string unless a backslash takes it in; `dangling` says whether the
string may end in a backslash that takes in what follows. -/
def closed (dangling : Bool) : Text → Bool
  | [] => true
  | c :: rest =>
    if c = ch '\\' then
      match rest with
      | [] => dangling
      | _ :: rest => closed dangling rest
    else c ≠ ch '"' && closed dangling rest

/-- The characters that end a plain text. -/
def endsPlain (c : UInt8) : Bool :=
  c = ch '~' || c = ch '!' || c = ch '|' || c = ch '(' || c = ch ')' || c = 0

structure PlainText where
  text : Text
  nonempty : text ≠ []
  head_ne : text.head? ≠ some (ch ' ')
  last_ne : text.getLast? ≠ some (ch ' ')
  plain : ∀ c ∈ text, endsPlain c = false
  closed : closed true text = true

structure QuotedText where
  text : Text
  nonzero : (0 : UInt8) ∉ text
  closed : closed false text = true

inductive TextOperand where
  | plain (t : PlainText)
  | quoted (t : QuotedText)

inductive Term where
  | int (key : Key .int) (operand : NumOperand)
  | str (key : Key .str) (operand : TextOperand)
  | bool (key : Key .bool)

mutual

inductive Operand where
  | term (t : Term)
  | not (o : Operand)
  | group (c : Chain)

inductive Chain where
  | one (o : Operand)
  | and (c : Chain) (o : Operand)
  | or (c : Chain) (o : Operand)

end

/-! ### Long form and meaning -/

def NumOperand.long (key : Text) : NumOperand → Text
  | eq n => ascii "(" ++ key ++ ascii "=" ++ n.text ++ ascii ")"
  | lt n => ascii "(" ++ key ++ ascii "<" ++ n.text ++ ascii ")"
  | gt n => ascii "(" ++ key ++ ascii ">" ++ n.text ++ ascii ")"
  | ge n => ascii "(" ++ key ++ ascii ">=" ++ n.text ++ ascii ")"
  | le n => ascii "(" ++ key ++ ascii "<=" ++ n.text ++ ascii ")"
  | range n m => ascii "(" ++ key ++ ascii ">=" ++ n.text ++ ascii "&" ++ key ++ ascii "<=" ++
      m.text ++ ascii ")"

/-- A plain text may stand anywhere in the value. -/
def TextOperand.pattern : TextOperand → Text
  | plain t => ascii "*" ++ t.text ++ ascii "*"
  | quoted t => t.text

def Term.long : Term → Text
  | int key operand => operand.long key.long
  | str key operand => key.long ++ ascii "=\"" ++ operand.pattern ++ ascii "\""
  | bool key => key.long

mutual

def Operand.long : Operand → Text
  | .term t => t.long
  | .not o => ascii "!" ++ o.long
  | .group c => ascii "(" ++ c.long ++ ascii ")"

def Chain.long : Chain → Text
  | .one o => o.long
  | .and c o => c.long ++ ascii "&" ++ o.long
  | .or c o => c.long ++ ascii "|" ++ o.long

end

def NumOperand.meaning (key : Text) (ti : TrackInfo) : NumOperand → Bool
  | eq n => evalInt key .eq n.value ti
  | lt n => evalInt key .lt n.value ti
  | gt n => evalInt key .gt n.value ti
  | ge n => evalInt key .ge n.value ti
  | le n => evalInt key .le n.value ti
  | range n m => evalInt key .ge n.value ti && evalInt key .le m.value ti

def Term.meaning (env : Env) (ti : TrackInfo) : Term → Bool
  | int key operand => operand.meaning key.long ti
  | str key operand => evalStr env key.long .eq operand.pattern ti
  | bool key => evalBool key.long ti

mutual

def Operand.meaning (env : Env) (ti : TrackInfo) : Operand → Bool
  | .term t => t.meaning env ti
  | .not o => !o.meaning env ti
  | .group c => c.meaning env ti

def Chain.meaning (env : Env) (ti : TrackInfo) : Chain → Bool
  | .one o => o.meaning env ti
  | .and c o => c.meaning env ti && o.meaning env ti
  | .or c o => c.meaning env ti || o.meaning env ti

end

/-! ### Spelling -/

inductive ShortToken where
  | lparen | rparen | not | or
  | term (t : Term)

mutual

def Operand.tokens : Operand → List ShortToken
  | .term t => [.term t]
  | .not o => .not :: o.tokens
  | .group c => .lparen :: (c.tokens ++ [.rparen])

def Chain.tokens : Chain → List ShortToken
  | .one o => o.tokens
  | .and c o => c.tokens ++ o.tokens
  | .or c o => c.tokens ++ .or :: o.tokens

end

def spaces (n : Nat) : Text := List.replicate n (ch ' ')

def NumOperand.short : NumOperand → Text
  | eq n => n.text
  | lt n => ch '<' :: n.text
  | gt n => ch '>' :: n.text
  | ge n => n.text ++ [ch '-']
  | le n => ch '-' :: n.text
  | range n m => n.text ++ ch '-' :: m.text

def TextOperand.short : TextOperand → Text
  | plain t => t.text
  | quoted t => ch '"' :: t.text ++ [ch '"']

/-- A token with spaces between its key and its operand and spaces behind it. -/
structure Spelling where
  token : ShortToken
  gap : Nat
  trail : Nat

def ShortToken.spell (gap : Nat) : ShortToken → Text
  | lparen => [ch '(']
  | rparen => [ch ')']
  | not => [ch '!']
  | or => [ch '|']
  | term (.int key operand) => ch '~' :: key.short :: (spaces gap ++ operand.short)
  | term (.str key operand) => ch '~' :: key.short :: (spaces gap ++ operand.short)
  | term (.bool key) => [ch '~', key.short]

def spell : List Spelling → Text
  | [] => []
  | s :: rest => s.token.spell s.gap ++ (spaces s.trail ++ spell rest)

/-! ### Where the automaton goes wrong -/

/-- The operand begins with a digit, so its digits are collected in `num`. -/
def NumOperand.digitFirst : NumOperand → Bool
  | eq _ => true
  | ge _ => true
  | range _ _ => true
  | _ => false

/-- The operand is an `n-m`: it leaves the digits of `m` in `num`. -/
def NumOperand.isRange : NumOperand → Bool
  | range _ _ => true
  | _ => false

/-- The text ends in an (escaped) backslash, so its closing quote is not seen. -/
def TextOperand.hidesQuote : TextOperand → Bool
  | plain _ => false
  | quoted t => t.text.getLast? = some (ch '\\')

/-- The token ends an operand. -/
def ShortToken.joins : ShortToken → Bool
  | rparen => true
  | term _ => true
  | _ => false

/-- An operand that follows another one is and-ed to it. -/
def ShortToken.glue (joined : Bool) : ShortToken → Text
  | rparen => []
  | or => []
  | _ => if joined then ascii "&" else []

def ShortToken.long : ShortToken → Text
  | lparen => ascii "("
  | rparen => ascii ")"
  | not => ascii "!"
  | or => ascii "|"
  | term t => t.long

/-- The long form of a row of tokens; `joined` says that an operand comes before. -/
def longTokens (joined : Bool) : List ShortToken → Text
  | [] => []
  | t :: rest => t.glue joined ++ t.long ++ longTokens t.joins rest

/-- No number that begins with a digit follows an `n-m`, and what follows a quoted text
that ends in a backslash, if there is one, is its own long form (as closing parentheses
are). -/
def Clean (afterRange : Bool) : List Spelling → Prop
  | [] => True
  | ⟨.term (.int _ operand), _, _⟩ :: rest =>
    (operand.digitFirst = true → afterRange = false) ∧ Clean (afterRange || operand.isRange) rest
  | ⟨.term (.str _ operand), _, trail⟩ :: rest =>
    if operand.hidesQuote then spaces trail ++ spell rest = longTokens true (rest.map (·.token))
    else Clean afterRange rest
  | _ :: rest => Clean afterRange rest

mutual

theorem Operand.longTokens_tokens (joined : Bool) (rest : List ShortToken) :
    ∀ o : Operand, longTokens joined (o.tokens ++ rest) =
      (if joined then ascii "&" else []) ++ o.long ++ longTokens true rest
  | .term t => by
    simp [Operand.tokens, Operand.long, longTokens, ShortToken.glue, ShortToken.long,
      ShortToken.joins]
  | .not o => by
    simp [Operand.tokens, Operand.long, longTokens, ShortToken.glue, ShortToken.long,
      ShortToken.joins, Operand.longTokens_tokens false rest o]
  | .group c => by
    simp [Operand.tokens, Operand.long, longTokens, ShortToken.glue, ShortToken.long,
      ShortToken.joins, Chain.longTokens_tokens false _ c]

/-- The long form of an expression is that of its tokens. -/
theorem Chain.longTokens_tokens (joined : Bool) (rest : List ShortToken) :
    ∀ c : Chain, longTokens joined (c.tokens ++ rest) =
      (if joined then ascii "&" else []) ++ c.long ++ longTokens true rest
  | .one o => by
    simp only [Chain.tokens, Chain.long, Operand.longTokens_tokens joined rest o]
  | .and c o => by
    simp [Chain.tokens, Chain.long, Chain.longTokens_tokens joined _ c,
      Operand.longTokens_tokens true rest o]
  | .or c o => by
    simp [Chain.tokens, Chain.long, Chain.longTokens_tokens joined _ c, longTokens,
      ShortToken.glue, ShortToken.long, ShortToken.joins, Operand.longTokens_tokens false rest o]

end

/-- How far a token opens or closes groups. -/
def ShortToken.depth : ShortToken → Int
  | lparen => 1
  | rparen => -1
  | _ => 0

def depth (ts : List ShortToken) : Int := (ts.map ShortToken.depth).sum

theorem depth_cons (t : ShortToken) (ts : List ShortToken) : depth (t :: ts) = t.depth + depth ts := by
  simp [depth]

theorem depth_append (a b : List ShortToken) : depth (a ++ b) = depth a + depth b := by
  simp [depth]

mutual

theorem Operand.depth_tokens : ∀ o : Operand, depth o.tokens = 0
  | .term t => rfl
  | .not o => by
    rw [Operand.tokens, depth_cons, Operand.depth_tokens o]
    rfl
  | .group c => by
    rw [Operand.tokens, depth_cons, depth_append, Chain.depth_tokens c]
    rfl

theorem Chain.depth_tokens : ∀ c : Chain, depth c.tokens = 0
  | .one o => Operand.depth_tokens o
  | .and c o => by
    rw [Chain.tokens, depth_append, Chain.depth_tokens c, Operand.depth_tokens o]
    rfl
  | .or c o => by
    rw [Chain.tokens, depth_append, depth_cons, Chain.depth_tokens c, Operand.depth_tokens o]
    rfl

end

end GracefulMusic.Expr
