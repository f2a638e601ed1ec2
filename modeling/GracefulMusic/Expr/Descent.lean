import GracefulMusic.Expr.Grammar

/-! What the parser of filter expressions accepts, and what it builds.

The trees with holes are those of `Expr.parse` at every point of the descent, so `add`
always finds its place. What is accepted is then shown by induction on the fuel to be
derivable, and what is derivable by induction on the derivation to be accepted. -/
namespace GracefulMusic.Expr

/-! ### Building in place -/

namespace Node

theorem ofExpr_ne_null (e : Expr) : ofExpr e ≠ null := by
  cases e <;> simp [ofExpr]

/-- A complete tree has no right side that is missing. -/
theorem fillRight_ofExpr (expr : Node) (e : Expr) : (ofExpr e).fillRight expr = none := by
  induction e with
  | and left right _ hr =>
    rw [ofExpr, fillRight.eq_2 _ _ _ _ (ofExpr_ne_null right), hr, Option.map_none]
  | or left right _ hr =>
    rw [ofExpr, fillRight.eq_2 _ _ _ _ (ofExpr_ne_null right), hr, Option.map_none]
  | _ => rfl

/-- The tree so far, with the operator that waits for its right side. -/
def ofRoot : Option (Connective × Expr) → Node
  | none => null
  | some (conn, e) => binary conn (ofExpr e) null

theorem add_operand (root : Option (Connective × Expr)) (e : Expr) :
    (ofRoot root).add (ofExpr e) = some (ofExpr (addOperand root e)) := by
  cases root with
  | none => rfl
  | some root =>
    obtain ⟨conn, root⟩ := root
    cases conn <;> rfl

theorem add_operator (conn : Connective) (e : Expr) :
    (ofExpr e).add (binary conn null null) = some (ofRoot (some (conn, e))) := by
  unfold add
  split
  · rename_i hnull
    exact absurd hnull (ofExpr_ne_null e)
  · rw [fillRight_ofExpr]
    rfl

theorem evalLeaves_ofExpr (v : Expr → Bool) (e : Expr) :
    (ofExpr e).evalLeaves v = e.evalLeaves v := by
  induction e with
  | and left right hl hr => rw [ofExpr, evalLeaves, hl, hr, Expr.evalLeaves]; rfl
  | or left right hl hr => rw [ofExpr, evalLeaves, hl, hr, Expr.evalLeaves]; rfl
  | not left hl => rw [ofExpr, evalLeaves, hl, Expr.evalLeaves]
  | _ => rfl

end Node

/-- Keys give leaves. -/
theorem parseKey_leaf {key : Text} {toks rest : List Token} {e : Expr}
    (h : parseKey key toks = .ok (e, rest)) : Node.ofExpr e = .leaf e := by
  unfold parseKey at h
  repeat' split at h
  all_goals first
    | cases h; rfl
    | cases h

/-- The result with the tree in place. -/
def inPlace (r : Except Text (Expr × List Token)) : InPlace.Result :=
  some (r.map fun (e, rest) => (Node.ofExpr e, rest))

theorem parseKey_inPlace (key : Text) (toks : List Token) :
    some ((parseKey key toks).map fun (e, rest) => (Node.leaf e, rest)) =
      inPlace (parseKey key toks) := by
  cases h : parseKey key toks with
  | error msg => rfl
  | ok r =>
    obtain ⟨e, rest⟩ := r
    simp [inPlace, Except.map, parseKey_leaf h]

/-- The parser builds in place what `Expr.parse` builds, and `add` never meets its
`BUG_ON`. -/
theorem inPlace_eq (fuel : Nat) :
    (∀ toks, InPlace.parseOne fuel toks = inPlace (parseOne fuel toks)) ∧
      ∀ level root toks,
        InPlace.parse fuel level (Node.ofRoot root) toks = inPlace (parse fuel level root toks) := by
  induction fuel with
  | zero => exact ⟨fun _ => rfl, fun _ _ _ => rfl⟩
  | succ fuel ih =>
    obtain ⟨ihOne, ihParse⟩ := ih
    refine ⟨fun toks => ?_, fun level root toks => ?_⟩
    · cases toks with
      | nil => rfl
      | cons tok rest =>
        rw [InPlace.parseOne, parseOne]
        cases tok.type with
        | not =>
          show (InPlace.parseOne fuel rest).map _ = _
          rw [ihOne]
          cases parseOne fuel rest <;> rfl
        | lparen => exact ihParse 1 none rest
        | key => exact parseKey_inPlace tok.text rest
        | intOrKey => exact parseKey_inPlace tok.text rest
        | _ => rfl
    · rw [InPlace.parse, parse, ihOne]
      cases parseOne fuel toks with
      | error msg => rfl
      | ok r =>
        obtain ⟨e, rest⟩ := r
        dsimp only [inPlace, Except.map, bind, Except.bind]
        rw [Node.add_operand]
        cases rest with
        | nil =>
          show some (if level > 0 then _ else _) = inPlace (if level > 0 then _ else _)
          split <;> rfl
        | cons tok rest =>
          dsimp only
          rw [Node.add_operator, Node.add_operator]
          cases tok.type with
          | rparen =>
            by_cases hlevel : level = 0
            · simp only [if_pos hlevel]
              rfl
            · simp only [if_neg hlevel]
          | and => exact ihParse level (some (.and, addOperand root e)) rest
          | or => exact ihParse level (some (.or, addOperand root e)) rest
          | _ => rfl

/-! ### Leaves -/

/-- No operator follows. -/
def NoOp (rest : List Token) : Prop := rest.head?.bind (fun tok => tok.type.toOp) = none

theorem comparisonLeaf_eval {key : Text} {op : Op} {value : Token} {e : Expr}
    (h : comparisonLeaf key op value = some e) (v : Expr → Bool) : e.evalLeaves v = v e := by
  unfold comparisonLeaf at h
  split at h
  all_goals first
    | cases h; rfl
    | cases h

theorem parseKey_bool (key : Text) {rest : List Token} (h : NoOp rest) :
    parseKey key rest = .ok (.bool key, rest) := by
  rw [parseKey, h]

theorem parseKey_of_comparison {key : Text} {op value : Token} {o : Op} {e : Expr}
    (rest : List Token) (hop : op.type.toOp = some o) (hallowed : Admitted o value)
    (he : comparisonLeaf key o value = some e) : parseKey key (op :: value :: rest) = .ok (e, rest) := by
  simp only [parseKey, List.head?_cons, Option.bind_some, hop, List.tail_cons]
  unfold comparisonLeaf at he
  split at he
  · rename_i htype
    cases he
    simp only [htype, if_pos (hallowed htype)]
  · rename_i htype
    cases he
    simp only [htype]
  · rename_i htype
    cases he
    simp only [htype]
  · cases he

/-- What `parse_one` takes for a key is a boolean or a comparison. -/
theorem parseKey_derives {key : Token} (hkey : IsKey key) {toks rest : List Token} {e : Expr}
    (h : parseKey key.text toks = .ok (e, rest)) :
    ∃ used m, Derives Admitted .one (key :: used) m ∧ toks = used ++ rest ∧
      ∀ v, e.evalLeaves v = m v := by
  unfold parseKey at h
  split at h
  · cases h
    exact ⟨[], _, .bool hkey, rfl, fun v => rfl⟩
  · rename_i o hop
    cases toks with
    | nil => cases hop
    | cons op toks =>
      simp only [List.head?_cons, Option.bind_some] at hop
      cases toks with
      | nil => cases h
      | cons value toks =>
        simp only [List.tail_cons] at h
        have hleaf : Admitted o value ∧ comparisonLeaf key.text o value = some e ∧ toks = rest := by
          unfold Admitted
          split at h
          · rename_i htype
            split at h
            · rename_i heq
              cases h
              exact ⟨fun _ => heq, by simp only [comparisonLeaf, htype], rfl⟩
            · cases h
          · rename_i htype
            cases h
            exact ⟨fun hstr => (by rw [htype] at hstr; cases hstr), by simp only [comparisonLeaf, htype], rfl⟩
          · rename_i htype
            cases h
            exact ⟨fun hstr => (by rw [htype] at hstr; cases hstr), by simp only [comparisonLeaf, htype], rfl⟩
          · split at h <;> cases h
        obtain ⟨hallowed, he, rfl⟩ := hleaf
        exact ⟨[op, value], _, .comparison hkey hop hallowed he, rfl, comparisonLeaf_eval he⟩

/-! ### Rounds -/

/-- The round of `parse` after its operand. -/
def afterOperand (fuel level : Nat) (root : Expr) :
    List Token → Except Text (Expr × List Token)
  | [] => if level > 0 then setError (ascii "')' expected") else .ok (root, [])
  | tok :: rest =>
    match tok.type with
    | .rparen => if level = 0 then setError (ascii "unexpected ')'") else .ok (root, rest)
    | .and => parse fuel level (some (.and, root)) rest
    | .or => parse fuel level (some (.or, root)) rest
    | _ => setError (ascii "'&' or '|' expected")

theorem parse_succ (fuel level : Nat) (root : Option (Connective × Expr)) (toks : List Token) :
    parse (fuel + 1) level root toks =
      (parseOne fuel toks).bind fun r => afterOperand fuel level (addOperand root r.1) r.2 := by
  rw [parse]
  cases parseOne fuel toks with
  | error msg => rfl
  | ok r =>
    obtain ⟨e, rest⟩ := r
    cases rest <;> rfl

theorem afterOperand_operator {tok : Token} {conn : Connective} (h : tok.type = conn.type)
    (fuel level : Nat) (root : Expr) (rest : List Token) :
    afterOperand fuel level root (tok :: rest) = parse fuel level (some (conn, root)) rest := by
  cases conn <;> simp only [Connective.type] at h <;> simp only [afterOperand, h]

theorem noOp_operator {tok : Token} {conn : Connective} (h : tok.type = conn.type)
    (rest : List Token) : NoOp (tok :: rest) := by
  cases conn <;> simp only [Connective.type] at h <;> simp [NoOp, h, TokenType.toOp]

theorem noOp_rparen {tok : Token} (h : tok.type = .rparen) (rest : List Token) :
    NoOp (tok :: rest) := by
  simp [NoOp, h, TokenType.toOp]

/-! ### What is derivable is accepted -/

theorem Derives.ne_nil {allowed : Op → Token → Prop} {kind : Kind} {toks : List Token} {m : Meaning}
    (h : Derives allowed kind toks m) : toks ≠ [] := by
  induction h with
  | single _ ih => exact ih
  | join => simp
  | _ => simp

/-- With enough fuel the tokens are taken off the list, and a tree of their meaning is
built. -/
def Accepted (toks : List Token) (m : Meaning) : Kind → Prop
  | .one => ∃ e : Expr, (∀ v, e.evalLeaves v = m v) ∧
      ∀ rest fuel, NoOp rest → 2 * toks.length ≤ fuel →
        parseOne fuel (toks ++ rest) = .ok (e, rest)
  | .expr => ∃ e : Expr, (∀ v, e.evalLeaves v = m v) ∧
      ∀ level rest fuel, NoOp rest → 2 * toks.length + 1 ≤ fuel →
        ∃ fuel', fuel ≤ fuel' + toks.length ∧
          parse fuel level none (toks ++ rest) = afterOperand fuel' level e rest

theorem Derives.accepted {kind : Kind} {toks : List Token} {m : Meaning}
    (h : Derives Admitted kind toks m) : Accepted toks m kind := by
  induction h with
  | @not tok toks m htok _ ih =>
    obtain ⟨e, heval, hparse⟩ := ih
    refine ⟨.not e, fun v => by rw [evalLeaves, heval], fun rest fuel hrest hfuel => ?_⟩
    obtain ⟨fuel, rfl⟩ : ∃ f, fuel = f + 1 := ⟨fuel - 1, by simp at hfuel; omega⟩
    rw [List.cons_append, parseOne, htok]
    dsimp only
    rw [hparse rest fuel hrest (by simp at hfuel; omega)]
    rfl
  | @paren l r toks m hl _ hr ih =>
    obtain ⟨e, heval, hparse⟩ := ih
    refine ⟨e, heval, fun rest fuel hrest hfuel => ?_⟩
    simp only [List.length_cons, List.length_append, List.length_nil] at hfuel
    obtain ⟨fuel, rfl⟩ : ∃ f, fuel = f + 1 := ⟨fuel - 1, by omega⟩
    obtain ⟨fuel', -, hrun⟩ := hparse 1 (r :: rest) fuel (noOp_rparen hr rest) (by omega)
    rw [List.cons_append, parseOne, hl, List.append_assoc]
    dsimp only
    rw [List.singleton_append, hrun]
    simp [afterOperand, hr]
  | @bool key hkey =>
    refine ⟨.bool key.text, fun v => rfl, fun rest fuel hrest hfuel => ?_⟩
    obtain ⟨fuel, rfl⟩ : ∃ f, fuel = f + 1 := ⟨fuel - 1, by simp at hfuel; omega⟩
    rw [List.singleton_append, parseOne]
    rcases hkey with htype | htype <;> rw [htype] <;> exact parseKey_bool key.text hrest
  | @comparison key op value o e hkey hop hallowed he =>
    refine ⟨e, comparisonLeaf_eval he, fun rest fuel hrest hfuel => ?_⟩
    obtain ⟨fuel, rfl⟩ : ∃ f, fuel = f + 1 := ⟨fuel - 1, by simp at hfuel; omega⟩
    show parseOne (fuel + 1) (key :: op :: value :: rest) = _
    rw [parseOne]
    rcases hkey with htype | htype <;> rw [htype] <;>
      exact parseKey_of_comparison rest hop hallowed he
  | @single toks m hone ih =>
    obtain ⟨e, heval, hparse⟩ := ih
    refine ⟨e, heval, fun level rest fuel hrest hfuel => ?_⟩
    obtain ⟨fuel, rfl⟩ : ∃ f, fuel = f + 1 := ⟨fuel - 1, by omega⟩
    have := List.length_pos_iff.mpr hone.ne_nil
    refine ⟨fuel, by omega, ?_⟩
    rw [parse_succ, hparse rest fuel hrest (by omega)]
    rfl
  | @join toks toks' tok m m' conn _ htok _ ihExpr ihOne =>
    obtain ⟨e, heval, hparse⟩ := ihExpr
    obtain ⟨e', heval', hparse'⟩ := ihOne
    refine ⟨conn.join e e', fun v => ?_, fun level rest fuel hrest hfuel => ?_⟩
    · cases conn <;> simp [Connective.join, Connective.apply, evalLeaves, heval, heval']
    · simp only [List.length_append, List.length_cons] at hfuel ⊢
      obtain ⟨fuel₁, hle, hrun⟩ := hparse level (tok :: (toks' ++ rest)) fuel
        (noOp_operator htok _) (by omega)
      obtain ⟨fuel₁, rfl⟩ : ∃ f, fuel₁ = f + 1 := ⟨fuel₁ - 1, by omega⟩
      refine ⟨fuel₁, by omega, ?_⟩
      rw [List.append_assoc, List.cons_append, hrun, afterOperand_operator htok, parse_succ,
        hparse' rest fuel₁ hrest (by omega)]
      rfl

/-! ### What is accepted is derivable -/

/-- The tokens behind the tree so far. -/
def Pending (before : List Token) : Option (Connective × Expr) → Prop
  | none => before = []
  | some (conn, root) => ∃ toks tok m, before = toks ++ [tok] ∧ Derives Admitted .expr toks m ∧
      (∀ v, root.evalLeaves v = m v) ∧ tok.type = conn.type

theorem Pending.operand {before used : List Token} {root : Option (Connective × Expr)} {e : Expr}
    {m : Meaning} (h : Pending before root) (hone : Derives Admitted .one used m)
    (heval : ∀ v, e.evalLeaves v = m v) :
    ∃ m', Derives Admitted .expr (before ++ used) m' ∧
      ∀ v, (addOperand root e).evalLeaves v = m' v := by
  cases root with
  | none =>
    obtain rfl : before = [] := h
    exact ⟨m, .single hone, heval⟩
  | some root =>
    obtain ⟨conn, root⟩ := root
    obtain ⟨toks, tok, m₀, rfl, hexpr, heval₀, htok⟩ := h
    refine ⟨fun v => conn.apply (m₀ v) (m v), ?_, fun v => ?_⟩
    · rw [List.append_assoc, List.singleton_append]
      exact .join conn hexpr htok hone
    · cases conn <;>
        simp [addOperand, Connective.join, Connective.apply, evalLeaves, heval₀, heval]

/-- What ends an expression: the end of the tokens, or its parenthesis. -/
def Closes (level : Nat) (close rest : List Token) : Prop :=
  (level = 0 ∧ close = [] ∧ rest = []) ∨ (level ≠ 0 ∧ ∃ r, close = [r] ∧ r.type = .rparen)

theorem derives_of_parse (fuel : Nat) :
    (∀ toks e rest, parseOne fuel toks = .ok (e, rest) →
      ∃ used m, Derives Admitted .one used m ∧ toks = used ++ rest ∧ ∀ v, e.evalLeaves v = m v) ∧
    ∀ level root toks before e rest, Pending before root →
      parse fuel level root toks = .ok (e, rest) →
      ∃ used close m, Derives Admitted .expr used m ∧ before ++ toks = used ++ close ++ rest ∧
        Closes level close rest ∧ ∀ v, e.evalLeaves v = m v := by
  induction fuel with
  | zero => exact ⟨nofun, nofun⟩
  | succ fuel ih =>
    obtain ⟨ihOne, ihParse⟩ := ih
    refine ⟨fun toks e rest h => ?_, fun level root toks before e rest hbefore h => ?_⟩
    · cases toks with
      | nil => cases h
      | cons tok toks =>
        rw [parseOne] at h
        split at h
        · rename_i htype
          cases hone : parseOne fuel toks with
          | error msg =>
            rw [hone] at h
            cases h
          | ok r =>
            rw [hone] at h
            cases h
            obtain ⟨used, m, hder, hsplit, heval⟩ := ihOne toks r.1 r.2 hone
            refine ⟨tok :: used, _, .not htype hder, by rw [hsplit]; rfl, fun v => ?_⟩
            rw [evalLeaves, heval]
        · rename_i htype
          obtain ⟨used, close, m, hder, hsplit, hclose, heval⟩ := ihParse 1 none toks [] e rest rfl h
          obtain ⟨hzero, -⟩ | ⟨-, r, rfl, hr⟩ := hclose
          · cases hzero
          · rw [List.nil_append] at hsplit
            exact ⟨tok :: (used ++ [r]), m, .paren htype hder hr, by rw [hsplit]; simp, heval⟩
        · rename_i htype
          obtain ⟨used, m, hder, hsplit, heval⟩ := parseKey_derives (.inl htype) h
          exact ⟨tok :: used, m, hder, by rw [hsplit]; rfl, heval⟩
        · rename_i htype
          obtain ⟨used, m, hder, hsplit, heval⟩ := parseKey_derives (.inr htype) h
          exact ⟨tok :: used, m, hder, by rw [hsplit]; rfl, heval⟩
        · cases h
    · rw [parse_succ] at h
      cases hone : parseOne fuel toks with
      | error msg =>
        rw [hone] at h
        cases h
      | ok r =>
        obtain ⟨e', toks'⟩ := r
        rw [hone] at h
        obtain ⟨used', m', hder', hsplit', heval'⟩ := ihOne toks e' toks' hone
        obtain ⟨m, hder, heval⟩ := hbefore.operand hder' heval'
        have hall : before ++ toks = (before ++ used') ++ toks' := by
          rw [hsplit', List.append_assoc]
        replace h : afterOperand fuel level (addOperand root e') toks' = .ok (e, rest) := h
        cases toks' with
        | nil =>
          rw [afterOperand] at h
          split at h
          · cases h
          · cases h
            exact ⟨before ++ used', [], m, hder, by rw [hall]; simp,
              .inl ⟨by omega, rfl, rfl⟩, heval⟩
        | cons tok toks' =>
          rw [afterOperand] at h
          -- an operator waits for its right side
          have hgo : ∀ conn : Connective, tok.type = conn.type →
              parse fuel level (some (conn, addOperand root e')) toks' = .ok (e, rest) →
              ∃ used close m, Derives Admitted .expr used m ∧
                before ++ toks = used ++ close ++ rest ∧ Closes level close rest ∧
                ∀ v, e.evalLeaves v = m v := by
            intro conn htype h
            obtain ⟨used, close, m₂, hder₂, hsplit₂, hclose, heval₂⟩ := ihParse level
              (some (conn, addOperand root e')) toks' (before ++ used' ++ [tok]) e rest
              ⟨before ++ used', tok, m, rfl, hder, heval, htype⟩ h
            refine ⟨used, close, m₂, hder₂, ?_, hclose, heval₂⟩
            rw [hall, ← hsplit₂]
            simp
          split at h
          · rename_i htype
            split at h
            · cases h
            · rename_i hlevel
              cases h
              exact ⟨before ++ used', [tok], m, hder, by rw [hall]; simp,
                .inr ⟨hlevel, tok, rfl, htype⟩, heval⟩
          · rename_i htype
            exact hgo .and htype h
          · rename_i htype
            exact hgo .or htype h
          · cases h

/-! ### The parser and the grammar -/

theorem parseTokens_inPlace (toks : List Token) :
    InPlace.parseTokens toks = inPlace (parse (2 * toks.length + 2) 0 none toks) :=
  (inPlace_eq _).2 0 none toks

/-- **The grammar of filter expressions**: a row of tokens has a meaning in the grammar
exactly if the parser takes all of it and builds a tree that evaluates to it. In no
descent, however long, does `add` meet its `BUG_ON`. -/
theorem parse_grammar (toks : List Token) :
    (∀ fuel, InPlace.parse fuel 0 .null toks ≠ none) ∧
    (∀ root rest, InPlace.parseTokens toks = some (.ok (root, rest)) → rest = []) ∧
    ∀ m, Derives Admitted .expr toks m ↔
      ∃ root, InPlace.parseTokens toks = some (.ok (root, [])) ∧ ∀ v, root.evalLeaves v = m v := by
  have hsound : ∀ root rest, InPlace.parseTokens toks = some (.ok (root, rest)) →
      ∃ m, Derives Admitted .expr toks m ∧ rest = [] ∧ ∀ v, root.evalLeaves v = m v := by
    intro root rest h
    rw [parseTokens_inPlace] at h
    cases hparse : parse (2 * toks.length + 2) 0 none toks with
    | error msg =>
      rw [hparse] at h
      cases h
    | ok r =>
      rw [hparse] at h
      cases h
      obtain ⟨used, close, m, hder, hsplit, hclose, heval⟩ :=
        (derives_of_parse _).2 0 none toks [] r.1 r.2 rfl hparse
      obtain ⟨-, rfl, hrest⟩ | ⟨hlevel, -⟩ := hclose
      · rw [hrest, List.nil_append, List.append_nil, List.append_nil] at hsplit
        exact ⟨m, hsplit ▸ hder, hrest, fun v => (Node.evalLeaves_ofExpr v r.1).trans (heval v)⟩
      · exact absurd rfl hlevel
  refine ⟨fun fuel h => ?_, fun root rest h => ?_, fun m => ⟨fun hder => ?_, ?_⟩⟩
  · rw [show InPlace.parse fuel 0 .null toks = _ from (inPlace_eq fuel).2 0 none toks] at h
    cases h
  · obtain ⟨-, -, hrest, -⟩ := hsound root rest h
    exact hrest
  · obtain ⟨e, heval, hparse⟩ := hder.accepted
    obtain ⟨fuel', -, hrun⟩ := hparse 0 [] (2 * toks.length + 2) rfl (by omega)
    rw [List.append_nil] at hrun
    refine ⟨.ofExpr e, ?_, fun v => (Node.evalLeaves_ofExpr v e).trans (heval v)⟩
    rw [parseTokens_inPlace, hrun]
    rfl
  · intro h
    obtain ⟨root, hparse, heval⟩ := h
    obtain ⟨m', hder, -, heval'⟩ := hsound root [] hparse
    obtain rfl : m' = m := funext fun v => (heval' v).symm.trans (heval v)
    exact hder

/-- `title < "a"` is a key, an operator and a value, and is not accepted. -/
theorem string_order_not_accepted :
    let toks : List Token := [⟨.key, ascii "title"⟩, .special .lt, ⟨.str, ascii "a"⟩]
    Derives (fun _ _ => True) .expr toks (fun v => v (.str (ascii "title") .lt (ascii "a"))) ∧
      ∀ root rest, InPlace.parseTokens toks ≠ some (.ok (root, rest)) := by
  intro toks
  refine ⟨.single (.comparison (.inl rfl) rfl trivial rfl), ?_⟩
  have hparse : InPlace.parseTokens toks = some (.error (ascii "invalid string operator '<'")) := by
    decide +kernel
  rw [hparse]
  nofun

end GracefulMusic.Expr
