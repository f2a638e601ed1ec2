import GracefulMusic.Expr.Parser

/-! The grammar of filter expressions, and the trees that `add` builds in place.

`Expr.parse` carries the operator that waits for its right side beside the tree. In the
source it is in the tree: `add` walks down the right sides to find where a node goes. Here
the parser is once more with such trees, which have holes, and builds the same.

A derivation gives the meaning of a row of tokens under every assignment of its leaves:
operators are applied from left to right. -/
namespace GracefulMusic.Expr

/-! ### Trees with holes -/

/-- A `struct expr` as its pointers are; `null` where there is no child. -/
inductive Node where
  | null
  | binary (type : Connective) (left right : Node)
  | not (left : Node)
  | leaf (expr : Expr)
  deriving DecidableEq

namespace Node

/-- Hang `expr` to the right of the node the right sides lead to, if that one is binary. -/
def fillRight : Node → Node → Option Node
  | binary type left null, expr => some (binary type left expr)
  | binary type left right, expr => (fillRight right expr).map (binary type left)
  | _, _ => none

/-- `none` is the `BUG_ON`. -/
def add (root expr : Node) : Option Node :=
  match root with
  | null => some expr
  | root =>
    match root.fillRight expr with
    -- tmp is binary, tree is incomplete
    | some root => some root
    -- tmp is unary, tree is complete: expr must be a binary operator
    | none =>
      match expr with
      | binary type _ right => some (binary type root right)
      | _ => none

end Node

/-! ### The parser -/

namespace InPlace

/-- The outer `none` is the `BUG_ON` of `add`. -/
abbrev Result := Option (Except Text (Node × List Token))

mutual

def parseOne : Nat → List Token → Result
  | 0, _ => some (setError [])
  | _ + 1, [] => some (setError (ascii "expression expected"))
  | fuel + 1, tok :: rest =>
    match tok.type with
    | .not => (parseOne fuel rest).map fun r => r.map fun (e, rest) => (.not e, rest)
    | .lparen => parse fuel 1 .null rest
    | .key => some ((parseKey tok.text rest).map fun (e, rest) => (.leaf e, rest))
    | .intOrKey => some ((parseKey tok.text rest).map fun (e, rest) => (.leaf e, rest))
    | _ => some (setError (ascii "key expected"))

/-- One round of the loop of `parse`. -/
def parse : Nat → Nat → Node → List Token → Result
  | 0, _, _, _ => some (setError [])
  | fuel + 1, level, root, toks =>
    match parseOne fuel toks with
    | none => none
    | some (.error msg) => some (.error msg)
    | some (.ok (expr, rest)) =>
      match root.add expr with
      | none => none
      | some root =>
        match rest with
        | [] => some (if level > 0 then setError (ascii "')' expected") else .ok (root, []))
        | tok :: rest =>
          match tok.type with
          | .rparen => some (if level = 0 then setError (ascii "unexpected ')'") else .ok (root, rest))
          | .and =>
            match root.add (.binary .and .null .null) with
            | none => none
            | some root => parse fuel level root rest
          | .or =>
            match root.add (.binary .or .null .null) with
            | none => none
            | some root => parse fuel level root rest
          | _ => some (setError (ascii "'&' or '|' expected"))

end

/-- `parse` of a whole token list. -/
def parseTokens (toks : List Token) : Result := parse (2 * toks.length + 2) 0 .null toks

end InPlace

/-! ### The grammar -/

/-- What a row of tokens says of an assignment of its leaves. -/
abbrev Meaning := (Expr → Bool) → Bool

def Connective.apply : Connective → Bool → Bool → Bool
  | .and => (· && ·)
  | .or => (· || ·)

def Connective.type : Connective → TokenType
  | .and => .and
  | .or => .or

def IsKey (tok : Token) : Prop := tok.type = .key ∨ tok.type = .intOrKey

/-- The leaf for a key, an operator and a value. -/
def comparisonLeaf (key : Text) (op : Op) (value : Token) : Option Expr :=
  match value.type with
  | .str => some (.str key op value.text)
  | .intOrKey => some (.int key op (toInt (strToInt value.text).1))
  | .key => some (.id key op value.text)
  | _ => none

/-- Strings are compared for equality only. -/
def Admitted (op : Op) (value : Token) : Prop := value.type = .str → op = .eq ∨ op = .ne

inductive Kind where
  | expr | one

/-- `expr := one (('&' | '|') one)*` and
`one := '!' one | '(' expr ')' | key [op value]`, with the values an operator takes. -/
inductive Derives (allowed : Op → Token → Prop) : Kind → List Token → Meaning → Prop
  | not {tok toks m} (htok : tok.type = .not) (hone : Derives allowed .one toks m) :
    Derives allowed .one (tok :: toks) fun v => !m v
  | paren {l r toks m} (hl : l.type = .lparen) (hexpr : Derives allowed .expr toks m)
    (hr : r.type = .rparen) : Derives allowed .one (l :: (toks ++ [r])) m
  | bool {key} (hkey : IsKey key) : Derives allowed .one [key] fun v => v (.bool key.text)
  | comparison {key op value o e} (hkey : IsKey key) (hop : op.type.toOp = some o)
    (hallowed : allowed o value) (he : comparisonLeaf key.text o value = some e) :
    Derives allowed .one [key, op, value] fun v => v e
  | single {toks m} (hone : Derives allowed .one toks m) : Derives allowed .expr toks m
  | join {toks toks' tok m m'} (conn : Connective) (hexpr : Derives allowed .expr toks m)
    (htok : tok.type = conn.type) (hone : Derives allowed .one toks' m') :
    Derives allowed .expr (toks ++ tok :: toks') fun v => conn.apply (m v) (m' v)

/-- A tree under an assignment of its leaves. -/
def evalLeaves (v : Expr → Bool) : Expr → Bool
  | and left right => left.evalLeaves v && right.evalLeaves v
  | or left right => left.evalLeaves v || right.evalLeaves v
  | not left => !left.evalLeaves v
  | e => v e

namespace Node

def evalLeaves (v : Expr → Bool) : Node → Bool
  | null => false
  | binary type left right => type.apply (left.evalLeaves v) (right.evalLeaves v)
  | not left => !left.evalLeaves v
  | leaf e => v e

/-- The complete tree of an expression. -/
def ofExpr : Expr → Node
  | .and left right => binary .and (ofExpr left) (ofExpr right)
  | .or left right => binary .or (ofExpr left) (ofExpr right)
  | .not left => not (ofExpr left)
  | e => leaf e

end Node

/-- The evaluation of a track reads the leaves off its info. -/
theorem eval_eq_evalLeaves (env : Env) (ti : TrackInfo) (e : Expr) :
    e.eval env ti = e.evalLeaves fun leaf => leaf.eval env ti := by
  induction e with
  | and left right hl hr => rw [eval, evalLeaves, hl, hr]
  | or left right hl hr => rw [eval, evalLeaves, hl, hr]
  | not left hl => rw [eval, evalLeaves, hl]
  | _ => rfl

end GracefulMusic.Expr
