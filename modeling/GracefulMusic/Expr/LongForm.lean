import GracefulMusic.Expr.Expansion

/-! Reading the long form back.

The long form of an expression lexes to its own tokens, and these parse to the
expression's tree, which evaluates to its meaning. -/
namespace GracefulMusic.Expr

/-! ### Tokens -/

/-- The text lexes to the tokens, however much fuel is left over. -/
def Lexes (text : Text) (toks : List Token) : Prop :=
  ∀ fuel, text.length < fuel → tokenizeLoop fuel text = .ok toks

theorem lexes_nil : Lexes [] [] := by
  intro fuel hfuel
  obtain ⟨n, rfl⟩ := Nat.exists_eq_succ_of_ne_zero (Nat.ne_of_gt hfuel)
  rfl

theorem Lexes.cons {c : UInt8} {text rest : Text} {tok : Token} {toks : List Token}
    (h : Lexes rest toks) (hspace : isSpace c = false)
    (hget : getToken (c :: text) = .ok (tok, rest)) (hlen : rest.length ≤ text.length) :
    Lexes (c :: text) (tok :: toks) := by
  intro fuel hfuel
  obtain ⟨n, rfl⟩ := Nat.exists_eq_succ_of_ne_zero (Nat.ne_of_gt (Nat.lt_of_le_of_lt (Nat.zero_le _) hfuel))
  rw [List.length_cons] at hfuel
  rw [tokenizeLoop, List.dropWhile_cons_of_neg (by simp [hspace])]
  show (getToken (c :: text)).bind _ = _
  rw [hget]
  show (tokenizeLoop n rest).bind (fun toks => .ok (tok :: toks)) = _
  rw [h n (by omega)]
  rfl

/-- A special character on its own. -/
theorem Lexes.special (c : UInt8) (type : TokenType) {rest : Text} {toks : List Token}
    (h : Lexes rest toks) (hc : Expr.special c = some type) (hspace : isSpace c = false)
    (halone : type.combined = none ∨ rest.head? ≠ some (ch '=')) :
    Lexes (c :: rest) (.special type :: toks) := by
  refine h.cons hspace ?_ (Nat.le_refl _)
  simp only [getToken, hc]
  cases hcomb : type.combined with
  | none => rfl
  | some combined =>
    cases rest with
    | nil => rfl
    | cons d rest =>
      have hd : d ≠ ch '=' := by simpa [hcomb] using halone
      simp [hd]

/-- A special character with the `=` it combines with. -/
theorem Lexes.combined (c : UInt8) (type : TokenType) {combined : TokenType} {rest : Text} {toks : List Token}
    (h : Lexes rest toks) (hc : Expr.special c = some type) (hspace : isSpace c = false)
    (hcomb : type.combined = some combined) :
    Lexes (c :: ch '=' :: rest) (.special combined :: toks) := by
  refine h.cons hspace ?_ (by simp)
  simp [getToken, hc, hcomb]

/-- The characters of keys and numbers. -/
def isWord (c : UInt8) : Bool := isDigit c || isAlpha c || c = ch '_'

theorem word_char {c : UInt8} (h : isWord c = true) :
    isSpace c = false ∧ special c = none ∧ c ≠ ch '"' ∧ c ≠ ch '-' := by
  revert h
  refine forall_byte (P := fun c => isWord c = true →
    isSpace c = false ∧ special c = none ∧ c ≠ ch '"' ∧ c ≠ ch '-') ?_ c
  decide +kernel

/-- What may follow a word. -/
def Delimited (rest : Text) : Prop := ∀ c ∈ rest.head?, (special c).isSome = true

theorem scan_word (w : Text) {rest : Text} (hrest : Delimited rest) (digitsOnly : Bool)
    (hw : ∀ c ∈ w, isWord c = true) :
    scanIntOrKey digitsOnly (w ++ rest) = .ok (w, digitsOnly && w.all isDigit, rest) := by
  induction w generalizing digitsOnly with
  | nil =>
    cases rest with
    | nil => simp [scanIntOrKey]
    | cons c rest =>
      have : (special c).isSome = true := hrest c rfl
      simp [scanIntOrKey, this]
  | cons c w ih =>
    have hc := hw c (List.mem_cons_self ..)
    obtain ⟨hspace, hspecial, -, -⟩ := word_char hc
    have hkeep : (isDigit c || isAlpha c || c = ch '_' || c = ch '-') = true := by
      rw [Bool.or_eq_true]
      exact .inl hc
    rw [List.cons_append, scanIntOrKey, hspace, hspecial, if_neg (by simp), if_pos hkeep,
      ih _ fun d hd => hw d (List.mem_cons_of_mem _ hd)]
    simp [Except.map, Bool.and_assoc]

/-- A word that is followed by a special character or by nothing. -/
theorem Lexes.word {w rest : Text} {toks : List Token} (h : Lexes rest toks)
    (hrest : Delimited rest) (hne : w ≠ []) (hw : ∀ c ∈ w, isWord c = true) :
    Lexes (w ++ rest) (⟨if w.all isDigit then .intOrKey else .key, w⟩ :: toks) := by
  obtain ⟨c, row, rfl⟩ := List.exists_cons_of_ne_nil hne
  obtain ⟨hspace, hspecial, hquote, hsign⟩ := word_char (hw c (List.mem_cons_self ..))
  refine h.cons hspace ?_ (by simp)
  have hscan := scan_word (c :: row) hrest true hw
  rw [List.cons_append] at hscan
  simp only [getToken, hspecial, if_neg hquote, getIntOrKey, List.head?_cons, Option.some.injEq,
    if_neg hsign]
  show (scanIntOrKey true (c :: (row ++ rest))).bind _ = _
  rw [hscan]
  rfl

theorem getStr_closed (s rest : Text) (hs : closed false s = true) :
    getStr (s ++ ch '"' :: rest) = .ok (s, rest) := by
  fun_induction closed false s with
  | case1 =>
    rw [List.nil_append, getStr.eq_def]
    simp
  | case2 => simp at hs
  | case3 d row ih =>
    have hne : ch '\\' ≠ ch '"' := by decide
    rw [List.cons_append, List.cons_append, getStr.eq_def]
    simp [hne, ih hs, Except.map]
  | case4 c row hc ih =>
    simp only [Bool.and_eq_true, decide_eq_true_eq] at hs
    rw [List.cons_append, getStr.eq_def]
    simp [hs.1, hc, ih hs.2, Except.map]

theorem Lexes.str {s rest : Text} {toks : List Token} (h : Lexes rest toks)
    (hs : closed false s = true) :
    Lexes (ch '"' :: (s ++ ch '"' :: rest)) (⟨.str, s⟩ :: toks) := by
  refine h.cons (by decide) ?_ (by simp; omega)
  have hspecial : Expr.special (ch '"') = none := by decide
  simp [getToken, hspecial, getStr_closed s rest hs, Except.map]

/-- A plain text stays closed between its stars. -/
theorem closed_star (s : Text) (hs : closed true s = true) : closed false (s ++ [ch '*']) = true := by
  fun_induction closed true s with
  | case1 => decide
  | case2 => decide
  | case3 d row ih =>
    rw [closed.eq_def]
    simpa using ih hs
  | case4 c row hc ih =>
    simp only [Bool.and_eq_true, decide_eq_true_eq] at hs
    rw [closed.eq_def]
    simp [hs.1, hc, ih hs.2]

theorem TextOperand.closed_pattern (operand : TextOperand) : closed false operand.pattern = true := by
  cases operand with
  | plain t =>
    have := closed_star t.text t.closed
    show closed false (ch '*' :: (t.text ++ [ch '*'])) = true
    rw [closed.eq_def]
    simpa [show ch '*' ≠ ch '\\' ∧ ch '*' ≠ ch '"' by decide] using this
  | quoted t => exact t.closed

theorem Lexes.key {type : KeyType} (key : Key type) {rest : Text} {toks : List Token}
    (h : Lexes rest toks) (hrest : Delimited rest) :
    Lexes (key.long ++ rest) (⟨.key, key.long⟩ :: toks) := by
  obtain ⟨hne, halpha⟩ := key.long_alpha
  have hword : ∀ c ∈ key.long, isWord c = true := by
    intro c hc
    rcases halpha c hc with hc | hc <;> simp [isWord, hc]
  have hkey : key.long.all isDigit = false := by
    obtain ⟨c, row, hlong⟩ := List.exists_cons_of_ne_nil hne
    have hc := halpha c (hlong ▸ List.mem_cons_self ..)
    have hdigit : isDigit c = false := by
      revert hc
      refine forall_byte (P := fun c => isAlpha c = true ∨ c = ch '_' → isDigit c = false) ?_ c
      decide +kernel
    simp [hlong, hdigit]
  have := h.word hrest hne hword
  rwa [hkey] at this

theorem Lexes.digits (n : Digits) {rest : Text} {toks : List Token} (h : Lexes rest toks)
    (hrest : Delimited rest) : Lexes (n.text ++ rest) (⟨.intOrKey, n.text⟩ :: toks) := by
  have := h.word hrest n.nonempty fun c hc => by simp [isWord, n.digits c hc]
  rwa [List.all_eq_true.mpr n.digits] at this

/-! ### Lexing the long form -/

/-- The token of an operator. -/
def Op.tokenType : Op → TokenType
  | .lt => .lt
  | .le => .le
  | .eq => .eq
  | .ge => .ge
  | .gt => .gt
  | .ne => .ne

theorem Lexes.op (op : Op) {rest : Text} {toks : List Token} (h : Lexes rest toks)
    (hrest : rest.head? ≠ some (ch '=')) :
    Lexes (opName op ++ rest) (.special op.tokenType :: toks) := by
  cases op with
  | lt => exact h.special _ _ (by decide) (by decide) (.inr hrest)
  | gt => exact h.special _ _ (by decide) (by decide) (.inr hrest)
  | eq => exact h.special _ _ (by decide) (by decide) (.inl rfl)
  | le => exact h.combined _ .lt (by decide) (by decide) rfl
  | ge => exact h.combined _ .gt (by decide) (by decide) rfl
  | ne => exact h.combined _ .not (by decide) (by decide) rfl

def comparison (key : Text) (op : Op) (n : Digits) : Text := key ++ (opName op ++ n.text)

def lexComparison (key : Text) (op : Op) (n : Digits) : List Token :=
  [⟨.key, key⟩, .special op.tokenType, ⟨.intOrKey, n.text⟩]

theorem delimited_op (op : Op) (rest : Text) : Delimited (opName op ++ rest) := by
  cases op <;> rintro c ⟨⟩ <;> decide

theorem Lexes.comparison {type : KeyType} (key : Key type) (op : Op) (n : Digits) {rest : Text}
    {toks : List Token} (h : Lexes rest toks) (hrest : Delimited rest) :
    Lexes (comparison key.long op n ++ rest) (lexComparison key.long op n ++ toks) := by
  have hdigit : (n.text ++ rest).head? ≠ some (ch '=') := by
    obtain ⟨c, row, hn⟩ := List.exists_cons_of_ne_nil n.nonempty
    have hc := n.digits c (hn ▸ List.mem_cons_self ..)
    rw [hn]
    intro h
    cases h
    revert hc
    decide
  have := ((h.digits n hrest).op op hdigit).key key (delimited_op op _)
  simpa [Expr.comparison, lexComparison] using this

def NumOperand.lexed (key : Text) : NumOperand → List Token
  | eq n => .special .lparen :: (lexComparison key .eq n ++ [.special .rparen])
  | lt n => .special .lparen :: (lexComparison key .lt n ++ [.special .rparen])
  | gt n => .special .lparen :: (lexComparison key .gt n ++ [.special .rparen])
  | ge n => .special .lparen :: (lexComparison key .ge n ++ [.special .rparen])
  | le n => .special .lparen :: (lexComparison key .le n ++ [.special .rparen])
  | range n m => .special .lparen :: (lexComparison key .ge n ++
      .special .and :: (lexComparison key .le m ++ [.special .rparen]))

def Term.lexed : Term → List Token
  | int key operand => operand.lexed key.long
  | str key operand => [⟨.key, key.long⟩, .special .eq, ⟨.str, operand.pattern⟩]
  | bool key => [⟨.key, key.long⟩]

mutual

def Operand.lexed : Operand → List Token
  | .term t => t.lexed
  | .not o => .special .not :: o.lexed
  | .group c => .special .lparen :: (c.lexed ++ [.special .rparen])

def Chain.lexed : Chain → List Token
  | .one o => o.lexed
  | .and c o => c.lexed ++ .special .and :: o.lexed
  | .or c o => c.lexed ++ .special .or :: o.lexed

end

theorem Lexes.term (t : Term) {rest : Text} {toks : List Token} (h : Lexes rest toks)
    (hrest : Delimited rest) : Lexes (t.long ++ rest) (t.lexed ++ toks) := by
  have hclose : Lexes (ch ')' :: rest) (.special .rparen :: toks) :=
    h.special _ _ (by decide) (by decide) (.inl rfl)
  have hdelim : Delimited (ch ')' :: rest) := by
    intro c h
    cases h
    decide
  have hsimple : ∀ (key : Key .int) (op : Op) (n : Digits),
      Lexes (ch '(' :: (Expr.comparison key.long op n ++ ch ')' :: rest))
        (.special .lparen :: (lexComparison key.long op n ++ .special .rparen :: toks)) :=
    fun key op n => (hclose.comparison key op n hdelim).special _ _ (by decide) (by decide) (.inl rfl)
  cases t with
  | int key operand =>
    cases operand with
    | eq n => simpa [Term.long, NumOperand.long, Term.lexed, NumOperand.lexed, Expr.comparison,
        opName, ascii] using hsimple key .eq n
    | lt n => simpa [Term.long, NumOperand.long, Term.lexed, NumOperand.lexed, Expr.comparison,
        opName, ascii] using hsimple key .lt n
    | gt n => simpa [Term.long, NumOperand.long, Term.lexed, NumOperand.lexed, Expr.comparison,
        opName, ascii] using hsimple key .gt n
    | ge n => simpa [Term.long, NumOperand.long, Term.lexed, NumOperand.lexed, Expr.comparison,
        opName, ascii] using hsimple key .ge n
    | le n => simpa [Term.long, NumOperand.long, Term.lexed, NumOperand.lexed, Expr.comparison,
        opName, ascii] using hsimple key .le n
    | range n m =>
      have hupper := (hclose.comparison key .le m hdelim).special (ch '&') .and (by decide) (by decide)
        (.inl rfl)
      have hlower := (hupper.comparison key .ge n (by rintro c ⟨⟩; decide)).special (ch '(') .lparen
        (by decide) (by decide) (.inl rfl)
      simpa [Term.long, NumOperand.long, Term.lexed, NumOperand.lexed, Expr.comparison, opName,
        ascii] using hlower
  | str key operand =>
    have hstr := (h.str operand.closed_pattern).special (ch '=') .eq (by decide)
      (by decide) (.inl rfl)
    have hkey := hstr.key key (by rintro c ⟨⟩; decide)
    simpa [Term.long, Term.lexed, ascii] using hkey
  | bool key => exact h.key key hrest

/-- The long form of an operand starts with a letter, `(` or `!`. -/
theorem Operand.long_head (o : Operand) : ∃ c rest, o.long = c :: rest ∧ c ≠ ch '=' := by
  cases o with
  | term t =>
    obtain ⟨c, rest, hlong, -, -, hc⟩ := t.long_head
    exact ⟨c, rest, hlong, hc⟩
  | not o => exact ⟨_, _, rfl, by decide⟩
  | group c => exact ⟨_, _, rfl, by decide⟩

mutual

theorem Operand.lexes : ∀ (o : Operand) {rest : Text} {toks : List Token}, Lexes rest toks →
    Delimited rest → Lexes (o.long ++ rest) (o.lexed ++ toks)
  | .term t, _, _, h, hrest => h.term t hrest
  | .not o, rest, toks, h, hrest => by
    have ho := Operand.lexes o h hrest
    obtain ⟨c, row, hlong, hc⟩ := o.long_head
    have hnot := ho.special (ch '!') .not (by decide) (by decide)
      (.inr (by simp [hlong, hc]))
    simpa [Operand.long, Operand.lexed, ascii] using hnot
  | .group c, rest, toks, h, hrest => by
    have hclose : Lexes (ch ')' :: rest) (.special .rparen :: toks) :=
      h.special _ _ (by decide) (by decide) (.inl rfl)
    have hc := (Chain.lexes c hclose (by rintro c ⟨⟩; decide)).special (ch '(') .lparen
      (by decide) (by decide) (.inl rfl)
    simpa [Operand.long, Operand.lexed, ascii] using hc

theorem Chain.lexes : ∀ (c : Chain) {rest : Text} {toks : List Token}, Lexes rest toks →
    Delimited rest → Lexes (c.long ++ rest) (c.lexed ++ toks)
  | .one o, _, _, h, hrest => Operand.lexes o h hrest
  | .and c o, rest, toks, h, hrest => by
    have hand := (Operand.lexes o h hrest).special (ch '&') .and (by decide)
      (by decide) (.inl rfl)
    simpa [Chain.long, Chain.lexed, ascii] using Chain.lexes c hand (by rintro c ⟨⟩; decide)
  | .or c o, rest, toks, h, hrest => by
    have hor := (Operand.lexes o h hrest).special (ch '|') .or (by decide)
      (by decide) (.inl rfl)
    simpa [Chain.long, Chain.lexed, ascii] using Chain.lexes c hor (by rintro c ⟨⟩; decide)

end

theorem tokenize_long (c : Chain) : tokenize c.long = .ok c.lexed := by
  have := c.lexes lexes_nil (by rintro c ⟨⟩)
  simp only [List.append_nil] at this
  exact this _ (Nat.lt_succ_self _)

/-! ### Parsing the tokens -/

def NumOperand.tree (key : Text) : NumOperand → Expr
  | eq n => .int key .eq n.value
  | lt n => .int key .lt n.value
  | gt n => .int key .gt n.value
  | ge n => .int key .ge n.value
  | le n => .int key .le n.value
  | range n m => .and (.int key .ge n.value) (.int key .le m.value)

def Term.tree : Term → Expr
  | int key operand => operand.tree key.long
  | str key operand => .str key.long .eq operand.pattern
  | bool key => .bool key.long

mutual

def Operand.tree : Operand → Expr
  | .term t => t.tree
  | .not o => .not o.tree
  | .group c => c.tree

def Chain.tree : Chain → Expr
  | .one o => o.tree
  | .and c o => .and c.tree o.tree
  | .or c o => .or c.tree o.tree

end

/-- The rest of a round of `parse`, behind an operand. -/
def parseRest (fuel level : Nat) (root : Expr) : List Token → Except Text (Expr × List Token)
  | [] => if level > 0 then setError (ascii "')' expected") else .ok (root, [])
  | tok :: rest =>
    match tok.type with
    | .rparen => if level = 0 then setError (ascii "unexpected ')'") else .ok (root, rest)
    | .and => parse fuel level (some (.and, root)) rest
    | .or => parse fuel level (some (.or, root)) rest
    | _ => setError (ascii "'&' or '|' expected")

theorem parse_operand {fuel level : Nat} {root : Option (Connective × Expr)} {toks rest : List Token}
    {e : Expr} (h : parseOne fuel toks = .ok (e, rest)) :
    parse (fuel + 1) level root toks = parseRest fuel level (addOperand root e) rest := by
  rw [parse, h]
  cases rest <;> rfl

/-- What may follow an operand: no comparison operator. -/
def EndsOperand (rest : List Token) : Prop := (rest.head?.bind fun tok => tok.type.toOp) = none

theorem parseKey_comparison (key : Text) (op : Op) (n : Digits) (rest : List Token) :
    parseKey key (.special op.tokenType :: ⟨.intOrKey, n.text⟩ :: rest) =
      .ok (.int key op n.value, rest) := by
  cases op <;> rfl

/-- One comparison as an operand of a loop with fuel to spare. -/
theorem parseOne_comparison (fuel : Nat) (key : Text) (op : Op) (n : Digits) (rest : List Token) :
    parseOne (fuel + 1) (lexComparison key op n ++ rest) = .ok (.int key op n.value, rest) := by
  show parseKey key (.special op.tokenType :: ⟨.intOrKey, n.text⟩ :: rest) = _
  exact parseKey_comparison key op n rest

theorem Term.parses (t : Term) {fuel : Nat} (rest : List Token) (hrest : EndsOperand rest)
    (hfuel : 2 * t.lexed.length < fuel) :
    parseOne fuel (t.lexed ++ rest) = .ok (t.tree, rest) := by
  obtain ⟨n, rfl⟩ := Nat.exists_eq_succ_of_ne_zero (Nat.ne_zero_of_lt hfuel)
  have hsimple : ∀ (key : Text) (op : Op) (d : Digits) (fuel : Nat),
      parseOne (fuel + 4 + 1) (.special .lparen :: (lexComparison key op d ++
        .special .rparen :: rest)) = .ok (.int key op d.value, rest) := by
    intro key op d fuel
    show parse (fuel + 4) 1 none _ = _
    rw [parse_operand (parseOne_comparison _ key op d _)]
    rfl
  cases t with
  | int key operand =>
    obtain ⟨k, rfl⟩ : ∃ k, n = k + 4 := ⟨n - 4, by
      cases operand <;> simp [Term.lexed, NumOperand.lexed, lexComparison] at hfuel <;> omega⟩
    cases operand with
    | eq d =>
      simpa [Term.lexed, NumOperand.lexed, Term.tree, NumOperand.tree] using
        hsimple key.long .eq d k
    | lt d =>
      simpa [Term.lexed, NumOperand.lexed, Term.tree, NumOperand.tree] using
        hsimple key.long .lt d k
    | gt d =>
      simpa [Term.lexed, NumOperand.lexed, Term.tree, NumOperand.tree] using
        hsimple key.long .gt d k
    | ge d =>
      simpa [Term.lexed, NumOperand.lexed, Term.tree, NumOperand.tree] using
        hsimple key.long .ge d k
    | le d =>
      simpa [Term.lexed, NumOperand.lexed, Term.tree, NumOperand.tree] using
        hsimple key.long .le d k
    | range d m =>
      have hlexed : (Term.int key (.range d m)).lexed ++ rest = .special .lparen ::
          (lexComparison key.long .ge d ++ .special .and ::
            (lexComparison key.long .le m ++ .special .rparen :: rest)) := by
        simp [Term.lexed, NumOperand.lexed]
      rw [hlexed]
      show parse (k + 4) 1 none _ = _
      rw [parse_operand (parseOne_comparison _ key.long .ge d _)]
      show parse (k + 3) 1 _ _ = _
      rw [parse_operand (parseOne_comparison _ key.long .le m _)]
      rfl
  | str key operand => rfl
  | bool key =>
    show parseKey key.long rest = _
    rw [parseKey, hrest]
    rfl

theorem endsOperand_cons {type : TokenType} (h : type.toOp = none) (rest : List Token) :
    EndsOperand (.special type :: rest) := h

mutual

theorem Operand.parses : ∀ (o : Operand) {fuel : Nat} (rest : List Token), EndsOperand rest →
    2 * o.lexed.length < fuel → parseOne fuel (o.lexed ++ rest) = .ok (o.tree, rest)
  | .term t, _, rest, hrest, hfuel => t.parses rest hrest hfuel
  | .not o, fuel, rest, hrest, hfuel => by
    obtain ⟨n, rfl⟩ := Nat.exists_eq_succ_of_ne_zero (Nat.ne_zero_of_lt hfuel)
    simp only [Operand.lexed, List.length_cons] at hfuel
    show (parseOne n (o.lexed ++ rest)).bind _ = _
    rw [Operand.parses o rest hrest (by omega)]
    rfl
  | .group c, fuel, rest, hrest, hfuel => by
    obtain ⟨n, rfl⟩ := Nat.exists_eq_succ_of_ne_zero (Nat.ne_zero_of_lt hfuel)
    simp only [Operand.lexed, List.length_cons, List.length_append, List.length_nil] at hfuel
    obtain ⟨m, hm⟩ := Chain.parses c 1 (.special .rparen :: rest) (endsOperand_cons rfl rest)
      (show 2 * c.lexed.length + 1 < n by omega)
    have hlexed : (Operand.group c).lexed ++ rest =
        .special .lparen :: (c.lexed ++ .special .rparen :: rest) := by
      simp [Operand.lexed]
    rw [hlexed]
    exact hm.2

/-- The loop has read a chain and goes on behind it, with fuel for what it has not
read. -/
theorem Chain.parses : ∀ (c : Chain) {fuel : Nat} (level : Nat) (rest : List Token),
    EndsOperand rest → 2 * c.lexed.length + 1 < fuel →
    ∃ m, fuel ≤ m + 2 * c.lexed.length + 1 ∧
      parse fuel level none (c.lexed ++ rest) = parseRest m level c.tree rest
  | .one o, fuel, level, rest, hrest, hfuel => by
    obtain ⟨n, rfl⟩ := Nat.exists_eq_succ_of_ne_zero (Nat.ne_zero_of_lt hfuel)
    simp only [Chain.lexed] at hfuel ⊢
    exact ⟨n, by omega, parse_operand (Operand.parses o rest hrest (by omega))⟩
  | .and c o, fuel, level, rest, hrest, hfuel => by
    simp only [Chain.lexed, List.length_cons, List.length_append] at hfuel ⊢
    obtain ⟨m, hm, hparse⟩ := Chain.parses c level (.special .and :: (o.lexed ++ rest))
      (endsOperand_cons rfl _) (show 2 * c.lexed.length + 1 < fuel by omega)
    obtain ⟨k, rfl⟩ : ∃ k, m = k + 1 := ⟨m - 1, by omega⟩
    refine ⟨k, by omega, ?_⟩
    rw [List.append_assoc, List.cons_append, hparse]
    exact parse_operand (Operand.parses o rest hrest (by omega))
  | .or c o, fuel, level, rest, hrest, hfuel => by
    simp only [Chain.lexed, List.length_cons, List.length_append] at hfuel ⊢
    obtain ⟨m, hm, hparse⟩ := Chain.parses c level (.special .or :: (o.lexed ++ rest))
      (endsOperand_cons rfl _) (show 2 * c.lexed.length + 1 < fuel by omega)
    obtain ⟨k, rfl⟩ : ∃ k, m = k + 1 := ⟨m - 1, by omega⟩
    refine ⟨k, by omega, ?_⟩
    rw [List.append_assoc, List.cons_append, hparse]
    exact parse_operand (Operand.parses o rest hrest (by omega))

end

theorem parseTokens_long (c : Chain) : parseTokens c.lexed = .ok c.tree := by
  obtain ⟨m, -, hparse⟩ := c.parses 0 [] rfl (Nat.lt_succ_self _)
  rw [List.append_nil] at hparse
  rw [parseTokens, hparse]
  rfl

/-! ### Meaning -/

theorem NumOperand.eval_tree (env : Env) (ti : TrackInfo) (key : Text) (operand : NumOperand) :
    (operand.tree key).eval env ti = operand.meaning key ti := by
  cases operand <;> rfl

mutual

theorem Operand.eval_tree (env : Env) (ti : TrackInfo) :
    ∀ o : Operand, o.tree.eval env ti = o.meaning env ti
  | .term t => by
    cases t with
    | int key operand => exact operand.eval_tree env ti key.long
    | _ => rfl
  | .not o => by rw [Operand.tree, Operand.meaning, eval, Operand.eval_tree env ti o]
  | .group c => Chain.eval_tree env ti c

theorem Chain.eval_tree (env : Env) (ti : TrackInfo) :
    ∀ c : Chain, c.tree.eval env ti = c.meaning env ti
  | .one o => Operand.eval_tree env ti o
  | .and c o => by
    rw [Chain.tree, Chain.meaning, eval, Chain.eval_tree env ti c, Operand.eval_tree env ti o]
  | .or c o => by
    rw [Chain.tree, Chain.meaning, eval, Chain.eval_tree env ti c, Operand.eval_tree env ti o]

end

end GracefulMusic.Expr

/-! The short form means what it says, where its translation is right. -/
namespace GracefulMusic.Expr

/-- The first token that is not `!` or `(` is a term. -/
def startsTerm : List ShortToken → Bool
  | .term _ :: _ => true
  | .not :: rest => startsTerm rest
  | .lparen :: rest => startsTerm rest
  | _ => false

mutual

theorem Operand.startsTerm_tokens (rest : List ShortToken) :
    ∀ o : Operand, startsTerm (o.tokens ++ rest) = true
  | .term t => rfl
  | .not o => Operand.startsTerm_tokens rest o
  | .group c => by
    rw [Operand.tokens, List.cons_append, List.append_assoc]
    exact Chain.startsTerm_tokens _ c

theorem Chain.startsTerm_tokens (rest : List ShortToken) :
    ∀ c : Chain, startsTerm (c.tokens ++ rest) = true
  | .one o => Operand.startsTerm_tokens rest o
  | .and c o => by
    rw [Chain.tokens, List.append_assoc]
    exact Chain.startsTerm_tokens _ c
  | .or c o => by
    rw [Chain.tokens, List.append_assoc]
    exact Chain.startsTerm_tokens _ c

end

theorem exprIsShort_spaces (n : Nat) (s : Text) : exprIsShort (spaces n ++ s) = exprIsShort s := by
  induction n with
  | zero => rfl
  | succ n ih => exact ih

theorem exprIsShort_spell (ts : List Spelling) (h : startsTerm (ts.map (·.token)) = true) :
    exprIsShort (spell ts) = true := by
  induction ts with
  | nil => cases h
  | cons s rest ih =>
    obtain ⟨token, gap, trail⟩ := s
    cases token with
    | term t => cases t <;> rfl
    | not => exact (exprIsShort_spaces trail (spell rest)).trans (ih h)
    | lparen => exact (exprIsShort_spaces trail (spell rest)).trans (ih h)
    | _ => cases h

/-- The expansion is the long form exactly where the spelling is clean. -/
theorem expandShortExpr_spell (e : Chain) (ts : List Spelling)
    (hts : ts.map (·.token) = e.tokens) (lead : Nat) :
    expandShortExpr (spaces lead ++ spell ts) = .ok e.long ↔ Clean false ts := by
  have hlong : longTokens false (ts.map (·.token)) = e.long := by
    have := e.longTokens_tokens false []
    simpa [hts, longTokens] using this
  have hlevel : (0 : Int) + depth (ts.map (·.token)) ≤ 0 := by
    simp [hts, e.depth_tokens]
  obtain ⟨prev, hlead⟩ := feedAll_spaces [.top] ⟨[], [], [], 0, 0⟩ lead (spell ts ++ [0])
  have hgives := gives_spell ts false ⟨[], [], [], 0, prev⟩ (by simp) (by simp) hlevel
  have hexpand : expandShortExpr (spaces lead ++ spell ts) = .ok e.long ↔
      Gives ([.skipSpace, .top], ⟨[], [], [], 0, 0⟩) (spaces lead ++ (spell ts ++ [0])) e.long := by
    rw [expandShortExpr, List.append_assoc, Gives]
    cases feedAll ([.skipSpace, .top], ⟨[], [], [], 0, 0⟩) (spaces lead ++ (spell ts ++ [0])) with
    | error msg =>
      apply iff_of_false
      · intro h
        cases h
      · intro h
        obtain ⟨_, h, _⟩ := h
        cases h
    | ok s =>
      constructor
      · intro h
        exact ⟨s, rfl, Except.ok.inj h⟩
      · intro h
        obtain ⟨s', hs, h⟩ := h
        obtain rfl := Except.ok.inj hs
        exact congrArg Except.ok h
  rw [hexpand, Gives.congr hlead]
  simpa [hlong, boundary] using hgives

/-- **Short filter expressions**, in any spelling that the parser's own checks let
through: the expansion is the compositional long form and the tree evaluates to the
meaning on every track, exactly where the spelling is clean. -/
theorem short_expr_translation (env : Env) (e : Chain) (ts : List Spelling)
    (hts : ts.map (·.token) = e.tokens) (lead : Nat) (str : Text)
    (hstr : env.encoded str = spaces lead ++ spell ts) (hcontrol : ∀ c ∈ str, 0x20 ≤ c)
    (hvalid : uIsValid (env.encoded str) = true) :
    (expandShortExpr (env.encoded str) = .ok e.long ∧
      ∃ x, exprParse env str = .ok x ∧ ∀ ti, x.eval env ti = e.meaning env ti) ↔
    Clean false ts := by
  rw [← expandShortExpr_spell e ts hts lead, ← hstr]
  refine ⟨And.left, fun hexpand => ⟨hexpand, e.tree, ?_, fun ti => e.eval_tree env ti⟩⟩
  have hshort : exprIsShort (env.encoded str) = true := by
    rw [hstr, exprIsShort_spaces]
    refine exprIsShort_spell ts ?_
    have := e.startsTerm_tokens []
    rwa [List.append_nil, ← hts] at this
  have hplain : ¬ (str.any (· < 0x20)) = true := by
    rw [List.any_eq_true]
    intro h
    obtain ⟨c, hc, hlt⟩ := h
    have := hcontrol c hc
    simp only [decide_eq_true_eq] at hlt
    exact absurd hlt (UInt8.not_lt.mpr this)
  rw [exprParse, exprParseI, if_neg hplain]
  simp only [hvalid, hshort, hexpand]
  show (tokenize e.long).bind _ = _
  rw [tokenize_long]
  exact parseTokens_long e

/-! ### Two expressions -/

def tracknumberKey : Key .int := ⟨ch 'n', ascii "tracknumber", by decide, by decide⟩

def dateKey : Key .int := ⟨ch 'y', ascii "date", by decide, by decide⟩

def digit (c : Char) (h : isDigit (ch c) = true) : Digits :=
  ⟨[ch c], List.cons_ne_nil _ _, by simpa using h⟩

/-- `~y3 | ~n1-2` -/
theorem short_expr_translation_range_last :
    expandShortExpr (ascii "~y3 | ~n1-2") =
        .ok (ascii "(date=3)|(tracknumber>=1&tracknumber<=2)") ∧
      ∃ x, exprParse plainEnv (ascii "~y3 | ~n1-2") = .ok x ∧ ∀ ti, x.eval plainEnv ti =
        (evalInt (ascii "date") .eq 3 ti || (evalInt (ascii "tracknumber") .ge 1 ti &&
          evalInt (ascii "tracknumber") .le 2 ti)) := by
  have h := short_expr_translation plainEnv
    (.or (.one (.term (.int dateKey (.eq (digit '3' rfl)))))
      (.term (.int tracknumberKey (.range (digit '1' rfl) (digit '2' rfl)))))
    [⟨.term (.int dateKey (.eq (digit '3' rfl))), 0, 1⟩, ⟨.or, 0, 1⟩,
      ⟨.term (.int tracknumberKey (.range (digit '1' rfl) (digit '2' rfl))), 0, 0⟩]
    rfl 0 (ascii "~y3 | ~n1-2") (by decide +kernel) (by decide +kernel) (by decide)
  exact h.mpr ⟨fun _ => rfl, fun _ => rfl, trivial⟩

/-- `~n1-2 ~y3`: the digits of the range stand before those of the date. -/
theorem range_spoils_next_number :
    ∃ (e : Chain) (ts : List Spelling), ts.map (·.token) = e.tokens ∧
      spell ts = ascii "~n1-2 ~y3" ∧
      expandShortExpr (spell ts) = .ok (ascii "(tracknumber>=1&tracknumber<=2)&(date=23)") ∧
      ∃ x ti, exprParse plainEnv (spell ts) = .ok x ∧ e.meaning plainEnv ti = true ∧
        x.eval plainEnv ti = false := by
  refine ⟨.and (.one (.term (.int tracknumberKey (.range (digit '1' rfl) (digit '2' rfl)))))
      (.term (.int dateKey (.eq (digit '3' rfl)))),
    [⟨.term (.int tracknumberKey (.range (digit '1' rfl) (digit '2' rfl))), 0, 1⟩,
      ⟨.term (.int dateKey (.eq (digit '3' rfl))), 0, 0⟩], rfl, by decide, by decide, _,
    { uid := 1, filename := ascii "a", comments := [(ascii "tracknumber", ascii "1")],
      date := 30000 }, rfl, by decide, by decide⟩

end GracefulMusic.Expr
