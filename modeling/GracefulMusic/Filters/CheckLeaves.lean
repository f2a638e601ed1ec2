import GracefulMusic.Expr.ShortForm

/-! User filters (`filters.c`) and the leaves of a filter expression (`expr.c`).

A leaf whose key is no builtin one may name a user filter; `expr_check_leaves` puts the
filter's expression in its place. The `visited` bits of the filters are kept as the
list of the names that have it set. The recursion is counted by a fuel, `none` is its
end. -/
namespace GracefulMusic.Filters
open GracefulMusic.Expr

inductive Stat where
  | ignore | yes | no
  deriving DecidableEq

structure FilterEntry where
  name : Text
  filter : Text
  actStat : Stat := .ignore
  selStat : Stat := .ignore
  deriving DecidableEq

structure FilterState where
  visited : List Text
  recursiveFilter : Option Text
  deriving DecidableEq

def findFilter (filters : List FilterEntry) (name : Text) : Option FilterEntry :=
  filters.find? fun e => e.name = name

def getFilter (filters : List FilterEntry) (name : Text) (st : FilterState) :
    Option Text × FilterState :=
  match findFilter filters name with
  | some e =>
    if e.name ∈ st.visited then (none, {st with recursiveFilter := some e.name})
    else (some e.filter, {st with visited := e.name :: st.visited})
  | none => (none, st)

/-- What `expr_check_leaves` returns: the expression put in place, or an error. -/
abbrev Checked := Option (Except Text Expr × FilterState)

/-- `expr_names` of the types a builtin key can have. -/
def exprName : KeyType → Text
  | .str => ascii "a string"
  | .int => ascii "an integer"
  | .bool => ascii "a boolean"

/-- A leaf's key and type; an `EXPR_ID` has none of the types of the builtin keys. -/
def leafKey : Expr → Text
  | .str key _ _ => key
  | .int key _ _ => key
  | .id key _ _ => key
  | .bool key => key
  | _ => []

def leafType : Expr → Option KeyType
  | .str _ _ _ => some .str
  | .int _ _ _ => some .int
  | .bool _ => some .bool
  | _ => none

/-- The part of `expr_check_leaves` for leaves; `again` checks a filter's expression. -/
def checkLeaf (env : Env) (filters : List FilterEntry) (again : Expr → FilterState → Checked)
    (e : Expr) (st : FilterState) : Checked :=
  match lookupKeyType (leafKey e) with
  | some type =>
    if leafType e ≠ some type then
      -- type mismatch
      some (setError (leafKey e ++ ascii " is " ++ exprName type), st)
    else some (.ok e, st)
  | none =>
    if leafType e ≠ some .bool then
      -- unknown key
      some (setError (ascii "unknown key " ++ leafKey e), st)
    else
      -- user defined filter
      match getFilter filters (leafKey e) st with
      | (none, st) => some (setError (ascii "unknown filter or boolean " ++ leafKey e), st)
      | (some filter, st) =>
        match exprParse env filter with
        | .error msg => some (.error msg, st)
        | .ok e => again e st

/-- The part for inner nodes. -/
def checkTree (leaf : Expr → FilterState → Checked) : Expr → FilterState → Checked
  | .and left right, st =>
    match checkTree leaf left st with
    | some (.ok left, st) =>
      match checkTree leaf right st with
      | some (.ok right, st) => some (.ok (.and left right), st)
      | failed => failed
    | failed => failed
  | .or left right, st =>
    match checkTree leaf left st with
    | some (.ok left, st) =>
      match checkTree leaf right st with
      | some (.ok right, st) => some (.ok (.or left right), st)
      | failed => failed
    | failed => failed
  | .not left, st =>
    match checkTree leaf left st with
    | some (.ok left, st) => some (.ok (.not left), st)
    | failed => failed
  | e, st => leaf e st

def exprCheckLeavesFuel (env : Env) (filters : List FilterEntry) :
    Nat → Expr → FilterState → Checked
  | 0 => fun _ _ => none
  | fuel + 1 => checkTree (checkLeaf env filters (exprCheckLeavesFuel env filters fuel))

/-- A filter is visited once, so the recursion is no deeper than there are filters. -/
def exprCheckLeaves (env : Env) (filters : List FilterEntry) (e : Expr) (st : FilterState) :
    Checked :=
  exprCheckLeavesFuel env filters (filters.length + 1) e st

/-- The message after a failed check. -/
def checkError (msg : Text) (st : FilterState) : Text :=
  match st.recursiveFilter with
  | some name => ascii "recursion detected in filter " ++ name
  | none => ascii "error parsing filter: " ++ msg

def parseFilter (env : Env) (filters : List FilterEntry) : Option Text → Option (Except Text (Option Expr))
  | none => some (.ok none)
  | some val =>
    match exprParse env val with
    | .error msg => some (.error (ascii "error parsing filter " ++ val ++ ascii ": " ++ msg))
    | .ok e =>
      -- mark all unvisited so that we can check recursion
      match exprCheckLeaves env filters e ⟨[], none⟩ with
      | none => none
      | some (.ok e, _) => some (.ok (some e))
      | some (.error msg, st) => some (.error (checkError msg st))

/-- The loop of `filters_activate`: the selected filters are marked visited and their
expressions and-ed together. -/
def selectedExpr (env : Env) : List FilterEntry → Option Expr → List Text →
    Except Text (Option Expr × List Text)
  | [], expr, visited => .ok (expr, visited)
  | f :: rest, expr, visited =>
    if f.selStat = .ignore then selectedExpr env rest expr visited
    else
      match exprParse env f.filter with
      | .error msg => .error (ascii "error parsing filter " ++ f.name ++ ascii ": " ++ msg)
      | .ok e =>
        let e := if f.selStat = .no then .not e else e
        let e := match expr with
          | none => e
          | some expr => .and expr e
        selectedExpr env rest (some e) (f.name :: visited)

/-- What `filters_activate` passes to `lib_set_filter`. -/
def filtersActivate (env : Env) (filters : List FilterEntry) :
    Option (Except Text (Option Expr)) :=
  match selectedExpr env filters none [] with
  | .error msg => some (.error msg)
  | .ok (none, _) => some (.ok none)
  | .ok (some e, visited) =>
    match exprCheckLeaves env filters e ⟨visited, none⟩ with
    | none => none
    | some (.ok e, _) => some (.ok (some e))
    | some (.error msg, st) => some (.error (checkError msg st))

end GracefulMusic.Filters
