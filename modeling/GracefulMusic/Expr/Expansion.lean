import GracefulMusic.Expr.ShortGrammar

/-! What the automaton makes of a spelling.

Between tokens its stack is `boundary joined`, and the characters of a token take it to
the next boundary having written the token's long form (`feed_token`). Where the
spelling is not `Clean` the output goes wrong at a token that can be named, and what is
written once is never taken back (`Keeps`), so it stays wrong. -/
namespace GracefulMusic.Expr

/-- The stack between two tokens, with the spaces still to come. -/
def boundary (joined : Bool) : List ExpandState :=
  .skipSpace :: if joined then [.expectOp, .top] else [.top]

theorem feedAll_cons (s : List ExpandState × Scratch) (c : UInt8) (rest : Text) :
    feedAll s (c :: rest) =
      (feed s.1 s.2 c).bind fun r => feedAll (r.1, {r.2 with prev := c}) rest := rfl

theorem feedAll_step {stack : List ExpandState} {x : Scratch} {c : UInt8}
    (stack' : List ExpandState) (x' : Scratch) (rest : Text)
    (h : feed stack x c = .ok (stack', x')) :
    feedAll (stack, x) (c :: rest) = feedAll (stack', {x' with prev := c}) rest := by
  rw [feedAll_cons, h]
  rfl

/-- A state that does not use a character up hands it down. -/
theorem feedAll_pass {stack stack' : List ExpandState} {x x' : Scratch} {c : UInt8} (rest : Text)
    (h : feed stack x c = feed stack' x' c) :
    feedAll (stack, x) (c :: rest) = feedAll (stack', x') (c :: rest) := by
  rw [feedAll_cons, feedAll_cons, h]

/-! ### Rows of characters -/

theorem feedAll_spaces (stack : List ExpandState) (x : Scratch) (n : Nat) (input : Text) :
    ∃ prev, feedAll (.skipSpace :: stack, x) (spaces n ++ input) =
      feedAll (.skipSpace :: stack, {x with prev}) input := by
  induction n generalizing x with
  | zero => exact ⟨x.prev, rfl⟩
  | succ n ih =>
    obtain ⟨prev, h⟩ := ih {x with prev := ch ' '}
    refine ⟨prev, ?_⟩
    rw [spaces, List.replicate_succ, List.cons_append,
      feedAll_step (.skipSpace :: stack) x _ (by rw [feed_skipSpace, if_pos rfl])]
    exact h

/-- A row of characters that are written as they are read. -/
theorem feedAll_write (stack : List ExpandState) (row : Text)
    (hrow : ∀ c ∈ row, ∀ x, feed stack x c = .ok (stack, x.write [c])) (x : Scratch)
    (input : Text) :
    ∃ prev, feedAll (stack, x) (row ++ input) =
      feedAll (stack, {x.write row with prev}) input := by
  induction row generalizing x with
  | nil => exact ⟨x.prev, by simp [Scratch.write]⟩
  | cons c row ih =>
    obtain ⟨prev, hrest⟩ := ih (fun d hd => hrow d (List.mem_cons_of_mem _ hd))
      {x.write [c] with prev := c}
    refine ⟨prev, ?_⟩
    rw [List.cons_append, feedAll_step _ _ _ (hrow c (List.mem_cons_self ..) x), hrest]
    simp [Scratch.write]

/-- A row of characters that are collected in `num`. -/
theorem feedAll_collect (stack : List ExpandState) (row : Text)
    (hrow : ∀ c ∈ row, ∀ x, feed stack x c = .ok (stack, {x with num := x.num ++ [c]}))
    (x : Scratch) (input : Text) :
    ∃ prev, feedAll (stack, x) (row ++ input) =
      feedAll (stack, {x with num := x.num ++ row, prev}) input := by
  induction row generalizing x with
  | nil => exact ⟨x.prev, by simp⟩
  | cons c row ih =>
    obtain ⟨prev, hrest⟩ := ih (fun d hd => hrow d (List.mem_cons_of_mem _ hd))
      {x with num := x.num ++ [c], prev := c}
    refine ⟨prev, ?_⟩
    rw [List.cons_append, feedAll_step _ _ _ (hrow c (List.mem_cons_self ..) x), hrest]
    simp

/-- The characters of a quoted text; the last one is remembered. -/
theorem feedAll_quoted (rest : List ExpandState) (q : Text) (hq : closed false q = true)
    (x : Scratch) (input : Text) :
    feedAll (.inQuoteStr :: rest, x) (q ++ input) =
      feedAll (.inQuoteStr :: rest, {x.write q with prev := q.getLast?.getD x.prev}) input := by
  fun_induction closed false q generalizing x with
  | case1 => simp [Scratch.write]
  | case2 => simp at hq
  | case3 d row ih =>
    have hfirst : feed (.inQuoteStr :: rest) x (ch '\\') =
        .ok (.inQuoteStr :: rest, x.write [ch '\\']) := by
      simp [feed, show ch '\\' ≠ ch '"' by decide]
    have hsecond : feed (.inQuoteStr :: rest) {x.write [ch '\\'] with prev := ch '\\'} d =
        .ok (.inQuoteStr :: rest, {x.write [ch '\\', d] with prev := ch '\\'}) := by
      simp [feed, Scratch.write]
    rw [List.cons_append, List.cons_append, feedAll_step _ _ _ hfirst, feedAll_step _ _ _ hsecond,
      ih hq]
    simp [Scratch.write, List.getLast?_cons]
  | case4 c row hc ih =>
    simp only [Bool.and_eq_true, decide_eq_true_eq] at hq
    rw [List.cons_append, feedAll_step (.inQuoteStr :: rest) (x.write [c]) _
      (by simp [feed, hq.1]), ih hq.2]
    simp [Scratch.write, List.getLast?_cons]

/-! ### Operands -/

/-- What a number makes of the scratch digits: what is written behind `(` and the key,
and what is left. The digits of an operand are appended to what it finds. -/
def NumOperand.written (key found : Text) : NumOperand → Text
  | eq n => ascii "=" ++ (found ++ n.text) ++ ascii ")"
  | lt n => ascii "<" ++ n.text ++ ascii ")"
  | gt n => ascii ">" ++ n.text ++ ascii ")"
  | ge n => ascii ">=" ++ (found ++ n.text) ++ ascii ")"
  | le n => ascii "<=" ++ n.text ++ ascii ")"
  | range n m => ascii ">=" ++ (found ++ n.text) ++ (ascii "&" ++ key ++ ascii "<=" ++ m.text) ++
      ascii ")"

def NumOperand.left (found : Text) : NumOperand → Text
  | eq _ => []
  | ge _ => []
  | range _ m => m.text
  | _ => found

/-- Digits that start an operand. -/
theorem feedAll_first_digits (rest : List ExpandState) (x : Scratch) (n : Digits) (input : Text) :
    ∃ prev, feedAll (.expectInt :: rest, x) (n.text ++ input) =
      feedAll (.memInt :: rest, {x with num := x.num ++ n.text, prev}) input := by
  obtain ⟨c, digits, hn⟩ := List.exists_cons_of_ne_nil n.nonempty
  have hdigit : ∀ d ∈ c :: digits, isDigit d = true := hn ▸ n.digits
  have hc := hdigit c (List.mem_cons_self ..)
  have hne : c ≠ ch '<' ∧ c ≠ ch '>' ∧ c ≠ ch '-' := by
    refine ⟨?_, ?_, ?_⟩ <;> rintro rfl <;> revert hc <;> decide
  obtain ⟨prev, h⟩ := feedAll_collect (.memInt :: rest) digits
    (fun d hd x => by simp [feed, hdigit d (List.mem_cons_of_mem _ hd)])
    {x with num := x.num ++ [c], prev := c} input
  refine ⟨prev, ?_⟩
  rw [hn, List.cons_append, feedAll_step (.memInt :: rest) {x with num := x.num ++ [c]} _
    (by simp [feed, hc, hne]), h]
  simp

/-- The digits behind `<`, `>` or `-`. -/
theorem feedAll_last_digits (rest : List ExpandState) (x : Scratch) (n : Digits) {c : UInt8}
    (hc : isDigit c = false) (input : Text) :
    ∃ prev, feedAll (.inInt :: rest, x) (n.text ++ c :: input) =
      feedAll (rest, {x.write (n.text ++ ascii ")") with prev}) (c :: input) := by
  obtain ⟨prev, h⟩ := feedAll_write (.inInt :: rest) n.text
    (fun d hd x => by simp [feed, n.digits d hd]) x (c :: input)
  refine ⟨prev, h.trans (feedAll_pass input ?_)⟩
  simp [feed, hc, Scratch.write]

/-- A sign and digits. -/
theorem feedAll_signed (rest : List ExpandState) (x : Scratch) (sign : UInt8) (written : Text)
    (hsign : feed (.expectInt :: rest) x sign = .ok (.inInt :: rest, x.write written)) (n : Digits)
    {c : UInt8} (hc : isDigit c = false) (input : Text) :
    ∃ prev, feedAll (.expectInt :: rest, x) (sign :: n.text ++ c :: input) =
      feedAll (rest, {x.write (written ++ n.text ++ ascii ")") with prev}) (c :: input) := by
  obtain ⟨prev, h⟩ := feedAll_last_digits rest {x.write written with prev := sign} n hc input
  refine ⟨prev, ?_⟩
  rw [List.cons_append, feedAll_step _ _ _ hsign, h]
  simp [Scratch.write]

theorem feedAll_number (rest : List ExpandState) (x : Scratch) (operand : NumOperand) {c : UInt8}
    (hc : isDigit c = false) (hc' : c ≠ ch '-') (input : Text) :
    ∃ prev, feedAll (.expectInt :: rest, x) (operand.short ++ c :: input) =
      feedAll (rest, {x.write (operand.written x.key x.num) with num := operand.left x.num, prev})
        (c :: input) := by
  cases operand with
  | eq n =>
    obtain ⟨prev, h⟩ := feedAll_first_digits rest x n (c :: input)
    refine ⟨prev, h.trans (feedAll_pass input ?_)⟩
    simp [feed, hc, hc', Scratch.write, NumOperand.written, NumOperand.left]
  | lt n =>
    obtain ⟨prev, h⟩ := feedAll_signed rest x (ch '<') (ascii "<") rfl n hc input
    exact ⟨prev, h⟩
  | gt n =>
    obtain ⟨prev, h⟩ := feedAll_signed rest x (ch '>') (ascii ">") rfl n hc input
    exact ⟨prev, h⟩
  | le n =>
    obtain ⟨prev, h⟩ := feedAll_signed rest x (ch '-') (ascii "<=") rfl n hc input
    exact ⟨prev, h⟩
  | ge n =>
    obtain ⟨prev, h⟩ := feedAll_first_digits rest x n (ch '-' :: c :: input)
    refine ⟨ch '-', ?_⟩
    rw [NumOperand.short, List.append_assoc, List.singleton_append, h,
      feedAll_step (.in2ndInt :: rest) {x.write (ascii ">=" ++ (x.num ++ n.text)) with num := [], prev} _
        (by simp [feed, show isDigit (ch '-') = false by decide, Scratch.write])]
    refine feedAll_pass input ?_
    simp [feed, hc, Scratch.write, NumOperand.written, NumOperand.left]
  | range n m =>
    obtain ⟨prev, h⟩ := feedAll_first_digits rest x n (ch '-' :: (m.text ++ c :: input))
    obtain ⟨prev', h'⟩ := feedAll_collect (.in2ndInt :: rest) m.text
      (fun d hd x => by simp [feed, m.digits d hd])
      {x.write (ascii ">=" ++ (x.num ++ n.text)) with num := [], prev := ch '-'} (c :: input)
    refine ⟨prev', ?_⟩
    rw [NumOperand.short, List.append_assoc, List.cons_append, h,
      feedAll_step (.in2ndInt :: rest) {x.write (ascii ">=" ++ (x.num ++ n.text)) with num := [], prev} _
        (by simp [feed, show isDigit (ch '-') = false by decide, Scratch.write]), h']
    refine feedAll_pass input ?_
    simp [feed, hc, Scratch.write, NumOperand.written, NumOperand.left, m.nonempty,
      show ascii "&" = [ch '&'] from rfl]

/-- Trailing spaces are taken back from the output. -/
theorem rdropWhile_trail {t : Text} (out : Text) (ht : t ≠ []) (hlast : t.getLast? ≠ some (ch ' '))
    (n : Nat) : (out ++ t ++ spaces n).rdropWhile (· = ch ' ') = out ++ t := by
  obtain ⟨front, c, rfl⟩ := List.eq_nil_or_concat t |>.resolve_left ht
  have hc : c ≠ ch ' ' := by simpa using hlast
  simp only [List.rdropWhile, List.reverse_append, spaces, List.reverse_replicate]
  rw [List.dropWhile_append_of_pos (by simp [List.mem_replicate])]
  simp [hc]

theorem feedAll_plain (rest : List ExpandState) (x : Scratch) (t : PlainText) (trail : Nat)
    {c : UInt8} (hc : endsPlain c = true) (input : Text) :
    ∃ prev, feedAll (.expectStr :: rest, x) (t.text ++ (spaces trail ++ c :: input)) =
      feedAll (rest, {x.write (ascii "=\"*" ++ t.text ++ ascii "*\"") with prev}) (c :: input) := by
  obtain ⟨d, row, ht⟩ := List.exists_cons_of_ne_nil t.nonempty
  have hquote : d ≠ ch '"' := by
    have hclosed := t.closed
    rw [ht] at hclosed
    intro heq
    subst heq
    rw [closed.eq_def] at hclosed
    simp [show ch '"' ≠ ch '\\' by decide] at hclosed
  have hrow : ∀ e ∈ row ++ spaces trail, ∀ x, feed (.inStr :: rest) x e =
      .ok (.inStr :: rest, x.write [e]) := by
    intro e he x
    have hplain : endsPlain e = false := by
      rcases List.mem_append.mp he with he | he
      · exact t.plain e (ht ▸ List.mem_cons_of_mem _ he)
      · rw [List.eq_of_mem_replicate he]
        decide
    simp only [endsPlain, Bool.or_eq_false_iff, decide_eq_false_iff_not] at hplain
    simp [feed, hplain]
  obtain ⟨prev, h⟩ := feedAll_write (.inStr :: rest) (row ++ spaces trail) hrow
    {x.write (ascii "=\"*" ++ [d]) with prev := d} (c :: input)
  have hout : (x.out ++ (ascii "=\"*" ++ [d]) ++ (row ++ spaces trail)).rdropWhile (· = ch ' ') =
      x.out ++ (ascii "=\"*" ++ t.text) := by
    have := rdropWhile_trail (x.out ++ ascii "=\"*") t.nonempty t.last_ne trail
    simpa [ht] using this
  have hend : ¬(c ≠ ch '~' ∧ c ≠ ch '!' ∧ c ≠ ch '|' ∧ c ≠ ch '(' ∧ c ≠ ch ')' ∧ c ≠ 0) := by
    simp only [endsPlain, Bool.or_eq_true, decide_eq_true_eq] at hc
    tauto
  refine ⟨prev, ?_⟩
  have hfirst : feed (.expectStr :: rest) x d =
      .ok (.inStr :: rest, x.write (ascii "=\"*" ++ [d])) := by
    simp [feed, hquote]
  rw [ht, List.cons_append, feedAll_step _ _ _ hfirst, ← List.append_assoc, h]
  refine feedAll_pass input ?_
  simp only [feed, if_neg hend, Scratch.write, hout]
  simp [ht]

/-- The closing quote is seen unless a backslash stands before it. -/
theorem feedAll_quotedText (rest : List ExpandState) (x : Scratch) (t : QuotedText) (input : Text) :
    feedAll (.expectStr :: rest, x) (ch '"' :: t.text ++ ch '"' :: input) =
      feedAll (if t.text.getLast? = some (ch '\\') then .inQuoteStr :: rest else rest,
        {x.write (ascii "=\"" ++ t.text ++ ascii "\"") with prev := ch '"'}) input := by
  have hopen : feed (.expectStr :: rest) x (ch '"') =
      .ok (.inQuoteStr :: rest, x.write (ascii "=\"")) := rfl
  rw [List.cons_append, feedAll_step _ _ _ hopen, feedAll_quoted rest t.text t.closed]
  by_cases hlast : t.text.getLast? = some (ch '\\')
  · rw [if_pos hlast, hlast, feedAll_step (.inQuoteStr :: rest)
      {x.write (ascii "=\"" ++ t.text ++ ascii "\"") with prev := ch '\\'} _ ?_]
    simp [feed, Scratch.write, show ascii "\"" = [ch '"'] from rfl]
  · have hprev : t.text.getLast?.getD (ch '"') ≠ ch '\\' := by
      cases h : t.text.getLast? with
      | none => decide
      | some d =>
        intro heq
        subst heq
        exact hlast h
    rw [if_neg hlast, feedAll_step rest
      {x.write (ascii "=\"" ++ t.text ++ ascii "\"") with
        prev := t.text.getLast?.getD (ch '"')} _ ?_]
    simp [feed, Scratch.write, hprev, show ascii "\"" = [ch '"'] from rfl]

/-! ### Tokens -/

/-- What is written for a token that finds digits in `num`, and what it leaves there. -/
def ShortToken.written (found : Text) : ShortToken → Text
  | term (.int key operand) => ascii "(" ++ key.long ++ operand.written key.long found
  | t => t.long

def ShortToken.left (found : Text) : ShortToken → Text
  | term (.int _ operand) => operand.left found
  | _ => found

def ShortToken.hidesQuote : ShortToken → Bool
  | term (.str _ operand) => operand.hidesQuote
  | _ => false

theorem feedAll_noSpace (stack : List ExpandState) (x : Scratch) {c : UInt8} (hc : c ≠ ch ' ')
    (input : Text) : feedAll (.skipSpace :: stack, x) (c :: input) = feedAll (stack, x) (c :: input) :=
  feedAll_pass input (by rw [feed_skipSpace, if_neg hc])

/-- The key of a term. -/
theorem feedAll_key (joined : Bool) (x : Scratch) {type : KeyType} (key : Key type) (input : Text) :
    feedAll (boundary joined, x) (ch '~' :: key.short :: input) =
      feedAll (match type with
        | .int => .skipSpace :: .expectInt :: boundary true
        | .str => .skipSpace :: .expectStr :: boundary true
        | .bool => .skipSpace :: boundary true,
        { x with
          out := x.out ++ ((if joined then ascii "&" else []) ++
            ((if type = .int then ascii "(" else []) ++ key.long))
          key := key.long
          prev := key.short }) input := by
  have htilde : feed (boundary joined) x (ch '~') =
      .ok (.expectKey :: boundary true, x.write (if joined then ascii "&" else [])) := by
    cases joined with
    | false =>
      rw [show x.write (if false then ascii "&" else []) = x by simp [Scratch.write]]
      rfl
    | true => rfl
  rw [feedAll_step _ _ _ htilde, feedAll_cons]
  cases type <;>
    simp [feed, key.lookup, key.typed, Scratch.write, Except.bind, show ascii "(" = [ch '('] from rfl]

/-- A token without an operand. -/
theorem feedAll_mark (joined : Bool) (x : Scratch) (t : ShortToken) (c : UInt8)
    (hc : t.spell 0 = [c]) (trail : Nat) (input : Text) :
    ∃ prev, feedAll (boundary joined, x) (c :: (spaces trail ++ input)) =
      feedAll (boundary t.joins, ⟨x.out ++ (t.glue joined ++ [c]), x.num, x.key,
        x.level + t.depth, prev⟩) input := by
  have hfeed : feed (boundary joined) x c = .ok (boundary t.joins,
      {x.write (t.glue joined ++ [c]) with level := x.level + t.depth}) := by
    cases t with
    | term t => cases t <;> simp [ShortToken.spell] at hc
    | _ =>
      obtain rfl := List.singleton_inj.mp hc
      cases joined <;> simp [feed, boundary, ShortToken.joins, ShortToken.glue, ShortToken.depth,
        Scratch.write, ch, ascii, Int.sub_eq_add_neg]
  obtain ⟨prev, h⟩ := feedAll_spaces (boundary t.joins).tail
    ⟨x.out ++ (t.glue joined ++ [c]), x.num, x.key, x.level + t.depth, c⟩ trail input
  exact ⟨prev, (feedAll_step _ _ _ hfeed).trans h⟩

theorem head_short_ne_space (operand : NumOperand) :
    ∃ c input, operand.short = c :: input ∧ c ≠ ch ' ' := by
  have hdigits : ∀ n : Digits, ∃ c input, n.text = c :: input ∧ c ≠ ch ' ' := by
    intro n
    obtain ⟨c, row, hn⟩ := List.exists_cons_of_ne_nil n.nonempty
    have hc := n.digits c (hn ▸ List.mem_cons_self ..)
    refine ⟨c, row, hn, ?_⟩
    intro heq
    subst heq
    revert hc
    decide
  cases operand with
  | lt n => exact ⟨_, _, rfl, by decide⟩
  | gt n => exact ⟨_, _, rfl, by decide⟩
  | le n => exact ⟨_, _, rfl, by decide⟩
  | eq n => exact hdigits n
  | ge n =>
    obtain ⟨c, row, hn, hc⟩ := hdigits n
    exact ⟨c, row ++ [ch '-'], by rw [NumOperand.short, hn, List.cons_append], hc⟩
  | range n m =>
    obtain ⟨c, row, hn, hc⟩ := hdigits n
    exact ⟨c, row ++ ch '-' :: m.text, by rw [NumOperand.short, hn, List.cons_append], hc⟩

/-- A number term, whatever digits it finds. -/
theorem feedAll_intTerm (joined : Bool) (x : Scratch) (key : Key .int) (operand : NumOperand)
    (gap trail : Nat) {c : UInt8} (hc : endsPlain c = true) (input : Text) :
    ∃ prev, feedAll (boundary joined, x) (ch '~' :: key.short ::
        (spaces gap ++ operand.short ++ (spaces trail ++ c :: input))) =
      feedAll (boundary true, ⟨x.out ++ ((if joined then ascii "&" else []) ++
        (ascii "(" ++ key.long ++ operand.written key.long x.num)), operand.left x.num, key.long,
          x.level, prev⟩) (c :: input) := by
  obtain ⟨d, row, hshort, hd⟩ := head_short_ne_space operand
  obtain ⟨e, rest, hrest, he, he'⟩ : ∃ e rest, spaces trail ++ c :: input = e :: rest ∧
      isDigit e = false ∧ e ≠ ch '-' := by
    cases trail with
    | zero =>
      refine ⟨c, input, rfl, ?_, ?_⟩
      · simp only [endsPlain, Bool.or_eq_true, decide_eq_true_eq] at hc
        rcases hc with ((((rfl | rfl) | rfl) | rfl) | rfl) | rfl <;> decide
      · intro heq
        subst heq
        revert hc
        decide
    | succ n => exact ⟨ch ' ', spaces n ++ c :: input, rfl, by decide, by decide⟩
  rw [feedAll_key joined x key]
  obtain ⟨prev, hgap⟩ := feedAll_spaces (.expectInt :: boundary true)
    ⟨x.out ++ ((if joined then ascii "&" else []) ++ (ascii "(" ++ key.long)), x.num, key.long,
      x.level, key.short⟩ gap (operand.short ++ (spaces trail ++ c :: input))
  obtain ⟨prev', hnum⟩ := feedAll_number (boundary true)
    ⟨x.out ++ ((if joined then ascii "&" else []) ++ (ascii "(" ++ key.long)), x.num, key.long,
      x.level, prev⟩ operand he he' rest
  obtain ⟨prev'', htrail⟩ := feedAll_spaces (boundary true).tail
    ⟨x.out ++ ((if joined then ascii "&" else []) ++ (ascii "(" ++ key.long)) ++
      operand.written key.long x.num, operand.left x.num, key.long, x.level, prev'⟩ trail (c :: input)
  refine ⟨prev'', ?_⟩
  rw [List.append_assoc]
  refine hgap.trans ?_
  rw [hshort, List.cons_append, feedAll_noSpace _ _ hd, ← List.cons_append, ← hshort, hrest]
  refine hnum.trans ?_
  rw [← hrest]
  refine htrail.trans ?_
  simp [boundary]

theorem feedAll_strTerm (joined : Bool) (x : Scratch) (key : Key .str) (operand : TextOperand)
    (hquote : operand.hidesQuote = false) (gap trail : Nat) {c : UInt8} (hc : endsPlain c = true)
    (input : Text) :
    ∃ prev, feedAll (boundary joined, x) (ch '~' :: key.short ::
        (spaces gap ++ operand.short ++ (spaces trail ++ c :: input))) =
      feedAll (boundary true, ⟨x.out ++ ((if joined then ascii "&" else []) ++
        (Term.str key operand).long), x.num, key.long, x.level, prev⟩) (c :: input) := by
  rw [feedAll_key joined x key, List.append_assoc]
  obtain ⟨prev, hgap⟩ := feedAll_spaces (.expectStr :: boundary true)
    ⟨x.out ++ ((if joined then ascii "&" else []) ++ key.long), x.num, key.long,
      x.level, key.short⟩ gap (operand.short ++ (spaces trail ++ c :: input))
  cases operand with
  | plain t =>
    obtain ⟨d, row, ht⟩ := List.exists_cons_of_ne_nil t.nonempty
    have hd : d ≠ ch ' ' := by
      have := t.head_ne
      intro heq
      subst heq
      simp [ht] at this
    obtain ⟨prev', hplain⟩ := feedAll_plain (boundary true)
      ⟨x.out ++ ((if joined then ascii "&" else []) ++ key.long), x.num, key.long,
        x.level, prev⟩ t trail hc input
    refine ⟨prev', hgap.trans ?_⟩
    simp only [TextOperand.short] at *
    rw [ht, List.cons_append, feedAll_noSpace _ _ hd, ← List.cons_append, ← ht]
    refine hplain.trans ?_
    simp [Scratch.write, Term.long, TextOperand.pattern, show ascii "=\"*" = ascii "=\"" ++ ascii "*" from rfl,
      show ascii "*\"" = ascii "*" ++ ascii "\"" from rfl]
  | quoted t =>
    have hlast : t.text.getLast? ≠ some (ch '\\') := by
      simpa [TextOperand.hidesQuote] using hquote
    obtain ⟨prev', htrail⟩ := feedAll_spaces (boundary true).tail
      ⟨x.out ++ ((if joined then ascii "&" else []) ++ (Term.str key (.quoted t)).long), x.num,
        key.long, x.level, ch '"'⟩ trail (c :: input)
    refine ⟨prev', hgap.trans ?_⟩
    have hquoted := feedAll_quotedText (boundary true)
      ⟨x.out ++ ((if joined then ascii "&" else []) ++ key.long), x.num, key.long, x.level, prev⟩ t
      (spaces trail ++ c :: input)
    rw [if_neg hlast] at hquoted
    simp only [TextOperand.short, List.cons_append, List.append_assoc, List.nil_append] at hquoted ⊢
    rw [feedAll_noSpace _ _ (by decide), hquoted]
    refine Eq.trans ?_ htrail
    simp [Scratch.write, Term.long, TextOperand.pattern, boundary]

/-- A token and the spaces behind it, up to what follows. -/
theorem feedAll_token (joined : Bool) (x : Scratch) (s : Spelling)
    (hquote : s.token.hidesQuote = false) {c : UInt8} (hc : endsPlain c = true) (input : Text) :
    ∃ key prev, feedAll (boundary joined, x)
        (s.token.spell s.gap ++ (spaces s.trail ++ c :: input)) =
      feedAll (boundary s.token.joins, ⟨x.out ++ (s.token.glue joined ++ s.token.written x.num),
        s.token.left x.num, key, x.level + s.token.depth, prev⟩) (c :: input) := by
  obtain ⟨token, gap, trail⟩ := s
  cases token with
  | term t =>
    cases t with
    | int key operand =>
      obtain ⟨prev, h⟩ := feedAll_intTerm joined x key operand gap trail hc input
      exact ⟨key.long, prev, h.trans (by simp [ShortToken.joins, ShortToken.glue,
        ShortToken.written, ShortToken.left, ShortToken.depth])⟩
    | str key operand =>
      obtain ⟨prev, h⟩ := feedAll_strTerm joined x key operand hquote gap trail hc input
      exact ⟨key.long, prev, h.trans (by simp [ShortToken.joins, ShortToken.glue,
        ShortToken.written, ShortToken.left, ShortToken.depth, ShortToken.long])⟩
    | bool key =>
      obtain ⟨prev, h⟩ := feedAll_spaces (.skipSpace :: .expectOp :: [.top])
        ⟨x.out ++ ((if joined then ascii "&" else []) ++ key.long), x.num, key.long, x.level,
          key.short⟩ trail (c :: input)
      have hne : c ≠ ch ' ' := by
        intro heq
        subst heq
        revert hc
        decide
      refine ⟨key.long, prev, (feedAll_key joined x key _).trans (h.trans ?_)⟩
      rw [feedAll_noSpace _ _ hne]
      simp [boundary, ShortToken.joins, ShortToken.glue, ShortToken.written, ShortToken.left,
        ShortToken.depth, ShortToken.long, Term.long]
  | lparen =>
    obtain ⟨prev, h⟩ := feedAll_mark joined x .lparen (ch '(') rfl trail (c :: input)
    exact ⟨x.key, prev, h⟩
  | rparen =>
    obtain ⟨prev, h⟩ := feedAll_mark joined x .rparen (ch ')') rfl trail (c :: input)
    exact ⟨x.key, prev, h⟩
  | not =>
    obtain ⟨prev, h⟩ := feedAll_mark joined x .not (ch '!') rfl trail (c :: input)
    exact ⟨x.key, prev, h⟩
  | or =>
    obtain ⟨prev, h⟩ := feedAll_mark joined x .or (ch '|') rfl trail (c :: input)
    exact ⟨x.key, prev, h⟩

/-! ### What is written stays -/

/-- `p` is written for good: a plain text that is being read trims the output no further
than its own `*`. -/
def Keeps (p : Text) (s : List ExpandState × Scratch) : Prop :=
  ∃ q, s.2.out = p ++ q ∧ (.inStr ∈ s.1 → ch '*' ∈ q)

theorem Keeps.write {p : Text} {stack stack' : List ExpandState} {x : Scratch}
    (h : Keeps p (stack, x)) (hstack : .inStr ∈ stack' → .inStr ∈ stack) (s : Text) (x' : Scratch)
    (hout : x'.out = x.out ++ s) : Keeps p (stack', x') := by
  obtain ⟨q, hq, hstar⟩ := h
  refine ⟨q ++ s, ?_, fun hs => List.mem_append_left _ (hstar (hstack hs))⟩
  rw [hout, hq, List.append_assoc]

theorem Keeps.trim {p : Text} {rest : List ExpandState} {x : Scratch}
    (h : Keeps p (.inStr :: rest, x)) (s : Text) :
    Keeps p (rest, {x with out := x.out.rdropWhile (· = ch ' ') ++ s}) := by
  obtain ⟨q, hq, hstar⟩ := h
  obtain ⟨front, back, rfl⟩ := List.append_of_mem (hstar (List.mem_cons_self ..))
  -- the star is not a space
  obtain ⟨back', hback⟩ : ∃ back', (p ++ (front ++ ch '*' :: back)).rdropWhile (· = ch ' ') =
      p ++ (front ++ ch '*' :: back') := by
    refine ⟨back.rdropWhile (· = ch ' '), ?_⟩
    have hsplit : (p ++ (front ++ ch '*' :: back)) = (p ++ (front ++ [ch '*'])) ++ back := by simp
    rw [hsplit, List.rdropWhile, List.reverse_append, List.dropWhile_append]
    split
    · rename_i hempty
      have hback : back.rdropWhile (· = ch ' ') = [] := by
        rw [List.rdropWhile, List.isEmpty_iff.mp hempty]
        rfl
      rw [hback]
      simp [show ch '*' ≠ ch ' ' by decide]
    · rw [List.reverse_append, List.reverse_reverse]
      simp [List.rdropWhile]
  refine ⟨front ++ ch '*' :: back' ++ s, ?_, fun _ => by simp⟩
  show x.out.rdropWhile _ ++ s = _
  have hq' : x.out = p ++ (front ++ ch '*' :: back) := hq
  rw [hq', hback, List.append_assoc]

theorem feed_keeps {p : Text} {stack stack' : List ExpandState} {x x' : Scratch} {c : UInt8}
    (h : Keeps p (stack, x)) (hfeed : feed stack x c = .ok (stack', x')) :
    Keeps p (stack', x') := by
  induction stack generalizing x with
  | nil =>
    obtain ⟨rfl, rfl⟩ := Prod.mk.inj (Except.ok.inj hfeed)
    exact h
  | cons state rest ih =>
    have hbelow : ∀ s x₁, x₁.out = x.out ++ s → feed rest x₁ c = .ok (stack', x') →
        Keeps p (stack', x') := fun s x₁ hout hf =>
      ih (h.write (fun hm => List.mem_cons_of_mem _ hm) s x₁ hout) hf
    have hdone : ∀ s stack₁ x₁, x₁.out = x.out ++ s → (.inStr ∈ stack₁ → .inStr ∈ state :: rest) →
        (.ok (stack₁, x₁) : Except Text _) = .ok (stack', x') → Keeps p (stack', x') := by
      intro s stack₁ x₁ hout hstack h
      cases h
      exact h.write hstack s _ hout
    cases state with
    | inStr =>
      simp only [feed] at hfeed
      split at hfeed
      · exact hdone [c] _ _ rfl (fun hm => hm) hfeed
      · exact ih (h.trim _) hfeed
    | expectStr =>
      simp only [feed] at hfeed
      split at hfeed
      · exact hdone _ _ _ rfl (by simp) hfeed
      · obtain ⟨rfl, rfl⟩ := Prod.mk.inj (Except.ok.inj hfeed)
        obtain ⟨q, hq, -⟩ := h
        refine ⟨q ++ (ascii "=\"*" ++ [c]), ?_, fun _ => ?_⟩
        · show x.out ++ _ = _
          rw [show x.out = p ++ q from hq, List.append_assoc]
        · exact List.mem_append_right _ (List.mem_append_left _ (by decide))
    | skipSpace =>
      simp only [feed] at hfeed
      split at hfeed
      · exact hdone [] _ _ (by simp) (by simp) hfeed
      · exact hbelow [] x (by simp) hfeed
    | top =>
      simp only [feed] at hfeed
      split at hfeed
      · exact hdone [] _ _ (by simp) (by simp) hfeed
      split at hfeed
      · exact hdone [c] _ _ rfl (by simp) hfeed
      split at hfeed
      · exact hdone [c] _ _ rfl (by simp) hfeed
      split at hfeed
      · exact hdone [c] _ _ rfl (by simp) hfeed
      split at hfeed
      · split at hfeed
        · cases hfeed
        · exact hdone [c] _ _ rfl (by simp) hfeed
      · cases hfeed
    | expectKey =>
      simp only [feed] at hfeed
      split at hfeed
      · cases hfeed
      · split at hfeed <;> exact hdone _ _ _ rfl (by simp) hfeed
    | expectOp =>
      simp only [feed] at hfeed
      have hout : ∃ s, (if c = ch '~' ∨ c = ch '(' ∨ c = ch '!' then x.write [ch '&'] else x).out =
          x.out ++ s := by
        split
        · exact ⟨_, rfl⟩
        · exact ⟨[], by simp⟩
      obtain ⟨s, hout⟩ := hout
      split at hfeed
      · exact hdone s _ _ hout (by simp) hfeed
      · exact hbelow s _ hout hfeed
    | expectInt =>
      simp only [feed] at hfeed
      split at hfeed
      · exact hdone [c] _ _ rfl (by simp) hfeed
      split at hfeed
      · exact hdone _ _ _ rfl (by simp) hfeed
      split at hfeed
      · exact hdone [] _ _ (by simp) (by simp) hfeed
      · cases hfeed
    | inInt =>
      simp only [feed] at hfeed
      split at hfeed
      · exact hdone [c] _ _ rfl (by simp) hfeed
      · exact hbelow _ _ rfl hfeed
    | memInt =>
      simp only [feed] at hfeed
      split at hfeed
      · exact hdone [] _ _ (by simp) (by simp) hfeed
      split at hfeed
      · exact hdone _ _ _ rfl (by simp) hfeed
      · exact hbelow _ _ rfl hfeed
    | in2ndInt =>
      simp only [feed] at hfeed
      split at hfeed
      · exact hdone [] _ _ (by simp) (by simp) hfeed
      · exact hbelow _ _ rfl hfeed
    | inQuoteStr =>
      simp only [feed] at hfeed
      split at hfeed
      · exact hdone [c] _ _ rfl (fun hm => List.mem_cons_of_mem _ hm) hfeed
      · exact hdone [c] _ _ rfl (fun hm => hm) hfeed

theorem feedAll_keeps {p : Text} (input : Text) {s s' : List ExpandState × Scratch}
    (h : Keeps p s) (hfeed : feedAll s input = .ok s') : Keeps p s' := by
  induction input generalizing s with
  | nil =>
    obtain rfl := Except.ok.inj hfeed
    exact h
  | cons c input ih =>
    rw [feedAll_cons] at hfeed
    cases hone : feed s.1 s.2 c with
    | error e =>
      rw [hone] at hfeed
      cases hfeed
    | ok r =>
      rw [hone] at hfeed
      have hr : Keeps p (r.1, r.2) := feed_keeps h hone
      exact ih (s := (r.1, {r.2 with prev := c})) hr hfeed

/-! ### Spellings -/

theorem spell_head (ts : List Spelling) :
    ∃ c input, spell ts ++ [0] = c :: input ∧ endsPlain c = true := by
  cases ts with
  | nil => exact ⟨0, [], rfl, rfl⟩
  | cons s rest =>
    obtain ⟨token, gap, trail⟩ := s
    cases token with
    | term t => cases t <;> exact ⟨_, _, rfl, rfl⟩
    | _ => exact ⟨_, _, rfl, rfl⟩

/-- The long keys are words. -/
theorem Key.long_alpha {type : KeyType} (key : Key type) :
    key.long ≠ [] ∧ ∀ c ∈ key.long, isAlpha c = true ∨ c = ch '_' := by
  have hcheck : builtin.all (fun entry => !entry.1.isEmpty &&
      entry.1.all fun c => isAlpha c || c = ch '_') = true := by
    decide +kernel
  have hall : ∀ entry ∈ builtin, entry.1 ≠ [] ∧ ∀ c ∈ entry.1, isAlpha c = true ∨ c = ch '_' := by
    intro entry hentry
    have hentry := List.all_eq_true.mp hcheck entry hentry
    rw [Bool.and_eq_true, Bool.not_eq_true', List.isEmpty_eq_false_iff] at hentry
    refine ⟨hentry.1, fun c hc => ?_⟩
    have hc := List.all_eq_true.mp hentry.2 c hc
    rwa [Bool.or_eq_true, decide_eq_true_eq] at hc
  have htyped := key.typed
  rw [lookupKeyType, Option.map_eq_some_iff] at htyped
  obtain ⟨entry, hfind, -⟩ := htyped
  have hkey : entry.1 = key.long := by simpa using List.find?_some hfind
  exact hkey ▸ hall entry (List.mem_of_find?_eq_some hfind)

theorem Term.long_head (t : Term) :
    ∃ c rest, t.long = c :: rest ∧ c ≠ ch ' ' ∧ c ≠ ch '~' ∧ c ≠ ch '=' := by
  have hkey : ∀ {type : KeyType} (key : Key type), ∃ c rest, key.long = c :: rest ∧
      c ≠ ch ' ' ∧ c ≠ ch '~' ∧ c ≠ ch '=' := by
    intro type key
    obtain ⟨hne, hall⟩ := key.long_alpha
    obtain ⟨c, rest, hkey⟩ := List.exists_cons_of_ne_nil hne
    have hc := hall c (hkey ▸ List.mem_cons_self ..)
    refine ⟨c, rest, hkey, ?_, ?_, ?_⟩ <;> rintro rfl <;> revert hc <;> decide
  cases t with
  | int key operand =>
    refine ⟨ch '(', (Term.int key operand).long.tail, ?_, by decide, by decide, by decide⟩
    cases operand <;> rfl
  | str key operand =>
    obtain ⟨c, rest, hlong, hc⟩ := hkey key
    exact ⟨c, rest ++ (ascii "=\"" ++ (operand.pattern ++ ascii "\"")),
      by simp [Term.long, hlong], hc⟩
  | bool key => exact hkey key

theorem longTokens_head (joined : Bool) (ts : List ShortToken) :
    ¬ [ch ' '] <+: longTokens joined ts ∧ ¬ [ch '~'] <+: longTokens joined ts := by
  cases ts with
  | nil => simp [longTokens]
  | cons t rest =>
    obtain ⟨c, row, hhead, hc⟩ : ∃ c row, longTokens joined (t :: rest) = c :: row ∧
        c ≠ ch ' ' ∧ c ≠ ch '~' := by
      cases t with
      | term t =>
        obtain ⟨c, row, hlong, hspace, htilde, -⟩ := t.long_head
        cases joined with
        | false => exact ⟨c, row ++ longTokens true rest, by
            simp [longTokens, ShortToken.glue, ShortToken.long, ShortToken.joins, hlong], hspace, htilde⟩
        | true => exact ⟨ch '&', _, rfl, by decide, by decide⟩
      | _ => cases joined <;> exact ⟨_, _, rfl, by decide, by decide⟩
    rw [hhead]
    simp [Ne.symm hc.1, Ne.symm hc.2]

/-- A text either is the long form of the tokens, or differs from it before the first
quote. -/
def Verbatim (joined : Bool) (ts : List ShortToken) (text : Text) : Prop :=
  (text = longTokens joined ts ∧ ch '"' ∉ text ∧ 0 ∉ text) ∨
    ∃ a, a <+: text ∧ ch '"' ∉ a ∧ 0 ∉ a ∧ ¬ a <+: longTokens joined ts

theorem Verbatim.spaces {joined : Bool} {ts : List ShortToken} {text : Text}
    (h : Verbatim joined ts text) (trail : Nat) : Verbatim joined ts (spaces trail ++ text) := by
  cases trail with
  | zero => exact h
  | succ n =>
    refine .inr ⟨[ch ' '], ⟨Expr.spaces n ++ text, rfl⟩, by decide, by decide, ?_⟩
    exact (longTokens_head joined ts).1

theorem Verbatim.cons {joined : Bool} {t : ShortToken} {ts : List ShortToken} {text : Text}
    {c : UInt8} (h : Verbatim t.joins ts text) (hlong : t.glue joined ++ t.long = [c])
    (hc : c ≠ ch '"' ∧ c ≠ 0) : Verbatim joined (t :: ts) (c :: text) := by
  have hcons : longTokens joined (t :: ts) = c :: longTokens t.joins ts := by
    rw [longTokens, hlong, List.singleton_append]
  rcases h with ⟨htext, hquote, hzero⟩ | ⟨a, ha, hquote, hzero, hdiffers⟩
  · refine .inl ⟨by rw [hcons, htext], ?_, ?_⟩
    · simp [Ne.symm hc.1, hquote]
    · simp [Ne.symm hc.2, hzero]
  · refine .inr ⟨c :: a, ?_, ?_, ?_, ?_⟩
    · simpa using ha
    · simp [Ne.symm hc.1, hquote]
    · simp [Ne.symm hc.2, hzero]
    · simpa [hcons] using hdiffers

theorem verbatim_spell (joined : Bool) (ts : List Spelling) :
    Verbatim joined (ts.map (·.token)) (spell ts) := by
  induction ts generalizing joined with
  | nil => exact .inl ⟨rfl, by simp [spell], by simp [spell]⟩
  | cons s rest ih =>
    obtain ⟨token, gap, trail⟩ := s
    have hrest := (ih token.joins).spaces trail
    cases token with
    | term t =>
      refine .inr ⟨[ch '~'], ?_, by decide, by decide, (longTokens_head joined _).2⟩
      cases t <;> exact ⟨_, rfl⟩
    | rparen => exact hrest.cons rfl (by decide)
    | or => exact hrest.cons rfl (by decide)
    | lparen =>
      cases joined with
      | false => exact hrest.cons rfl (by decide)
      | true => exact .inr ⟨[ch '('], ⟨_, rfl⟩, by decide, by decide, by simp [longTokens,
          ShortToken.glue, show ascii "&" = [ch '&'] from rfl, show ch '(' ≠ ch '&' by decide]⟩
    | not =>
      cases joined with
      | false => exact hrest.cons rfl (by decide)
      | true => exact .inr ⟨[ch '!'], ⟨_, rfl⟩, by decide, by decide, by simp [longTokens,
          ShortToken.glue, show ascii "&" = [ch '&'] from rfl, show ch '!' ≠ ch '&' by decide]⟩

/-! ### The two defects -/

/-- A row of digits with more before it is not the row and something else behind it. -/
theorem digits_not_prefix (sign : Text) {found : Text} (n : Digits) (hfound : found ≠ [])
    (hdigits : ∀ c ∈ found, isDigit c = true) (tail : Text) {z : UInt8} (hz : isDigit z = false)
    (rest : Text) : ¬ (sign ++ (found ++ n.text) ++ tail) <+: sign ++ n.text ++ z :: rest := by
  intro h
  have hrow : (found ++ n.text) <+: n.text ++ z :: rest := by
    simp only [List.append_assoc, List.prefix_append_right_inj] at h
    exact (show (found ++ n.text) <+: found ++ (n.text ++ tail) by simp).trans h
  have hlen : n.text.length < (found ++ n.text).length := by
    rw [List.length_append]
    have := List.length_pos_iff.mpr hfound
    omega
  have hget := hrow.getElem hlen
  have hmem : (found ++ n.text)[n.text.length] ∈ found ++ n.text := List.getElem_mem hlen
  rw [hget] at hmem
  have := List.forall_mem_append.mpr ⟨hdigits, n.digits⟩ _ hmem
  simp [hz] at this

theorem written_nil (key : Text) (operand : NumOperand) :
    operand.long key = ascii "(" ++ key ++ operand.written key [] := by
  cases operand <;> simp [NumOperand.long, NumOperand.written, show ascii ">=" = ascii ">" ++ ascii "=" from rfl]

/-- Digits found in `num` show in what is written. -/
theorem written_not_prefix {found : Text} (hfound : found ≠ [])
    (hdigits : ∀ c ∈ found, isDigit c = true) (key rest : Text) {operand : NumOperand}
    (hfirst : operand.digitFirst = true) :
    ¬ operand.written key found <+: operand.written key [] ++ rest := by
  intro h
  cases operand with
  | eq n =>
    refine digits_not_prefix (ascii "=") n hfound hdigits (ascii ")") (z := ch ')') (by decide)
      rest ?_
    simpa [NumOperand.written, show ascii ")" = [ch ')'] from rfl] using h
  | ge n =>
    refine digits_not_prefix (ascii ">=") n hfound hdigits (ascii ")") (z := ch ')') (by decide)
      rest ?_
    simpa [NumOperand.written, show ascii ")" = [ch ')'] from rfl] using h
  | range n m =>
    refine digits_not_prefix (ascii ">=") n hfound hdigits
      (ascii "&" ++ key ++ ascii "<=" ++ m.text ++ ascii ")") (z := ch '&') (by decide)
      (key ++ ascii "<=" ++ m.text ++ ascii ")" ++ rest) ?_
    simpa [NumOperand.written, show ascii "&" = [ch '&'] from rfl] using h
  | _ => simp [NumOperand.digitFirst] at hfirst

/-! ### The automaton on a spelling -/

/-- What the automaton gives, as a C string. -/
def Gives (s : List ExpandState × Scratch) (input result : Text) : Prop :=
  ∃ s', feedAll s input = .ok s' ∧ s'.2.out.takeWhile (· ≠ 0) = result

theorem takeWhile_terminated {out : Text} (h : 0 ∉ out) (rest : Text) :
    (out ++ 0 :: rest).takeWhile (· ≠ 0) = out := by
  rw [List.takeWhile_append_of_pos]
  · simp
  · intro c hc
    have : c ≠ 0 := fun h0 => h (h0 ▸ hc)
    simpa using this

theorem Gives.congr {s s' : List ExpandState × Scratch} {input input' result : Text}
    (h : feedAll s input = feedAll s' input') : Gives s input result ↔ Gives s' input' result := by
  rw [Gives, Gives, h]

/-- What has been written is in the result. -/
theorem Gives.front {s : List ExpandState × Scratch} {input result p : Text}
    (h : Gives s input result) (hp : Keeps p s) (hzero : 0 ∉ p) : p <+: result := by
  obtain ⟨s', hfeed, rfl⟩ := h
  obtain ⟨q, hq, -⟩ := feedAll_keeps input hp hfeed
  rw [hq, List.takeWhile_append_of_pos]
  · exact List.prefix_append _ _
  · intro c hc
    have : c ≠ 0 := fun h0 => hzero (h0 ▸ hc)
    simpa using this

/-- Behind a closing quote that was not seen. -/
theorem gives_unclosed (rest : List ExpandState) (hrest : .inStr ∉ rest) (x : Scratch)
    (hzero : 0 ∉ x.out) (ts : List Spelling) (trail : Nat) :
    Gives (.inQuoteStr :: rest, x) (spaces trail ++ spell ts ++ [0])
        (x.out ++ longTokens true (ts.map (·.token))) ↔
      spaces trail ++ spell ts = longTokens true (ts.map (·.token)) := by
  have hwrite : ∀ a input, ch '"' ∉ a → ∃ prev, feedAll (.inQuoteStr :: rest, x) (a ++ input) =
      feedAll (.inQuoteStr :: rest, {x.write a with prev}) input := by
    intro a input ha
    refine feedAll_write (.inQuoteStr :: rest) a (fun c hc x => ?_) x input
    have hne : c ≠ ch '"' := fun h => ha (h ▸ hc)
    simp [feed, hne]
  rcases (verbatim_spell true ts).spaces trail with ⟨htext, hquote, hz⟩ | ⟨a, ⟨b, hb⟩, hquote, hz, hdiffers⟩
  · refine iff_of_true ?_ htext
    obtain ⟨prev, h⟩ := hwrite _ [0] hquote
    refine (Gives.congr h).mpr ⟨_, rfl, ?_⟩
    have hout : 0 ∉ x.out ++ (spaces trail ++ spell ts) :=
      fun hm => (List.mem_append.mp hm).elim hzero hz
    rw [← htext]
    exact takeWhile_terminated hout []
  · refine iff_of_false (fun h => hdiffers ?_) fun htext => hdiffers (htext ▸ ⟨b, hb⟩)
    obtain ⟨prev, hfeed⟩ := hwrite a (b ++ [0]) hquote
    rw [← hb, List.append_assoc] at h
    have hkeeps : Keeps (x.out ++ a) (.inQuoteStr :: rest, {x.write a with prev}) :=
      ⟨[], by simp [Scratch.write], by simp [hrest]⟩
    have := ((Gives.congr hfeed).mp h).front hkeeps (by simp [hzero, hz])
    exact (List.prefix_append_right_inj _).mp this

theorem glue_zero (joined : Bool) (t : ShortToken) : 0 ∉ t.glue joined := by
  cases t <;> cases joined <;> simp [ShortToken.glue, ascii, ch]

/-- A number writes the long form exactly when it finds no digits to put in front of
its own. -/
def ShortToken.finds (found : Text) : ShortToken → Prop
  | term (.int _ operand) => operand.digitFirst = true ∧ found ≠ []
  | _ => False

theorem written_eq_long {t : ShortToken} {found : Text} (h : ¬ t.finds found) :
    t.written found = t.long := by
  cases t with
  | term t =>
    cases t with
    | int key operand =>
      rw [ShortToken.written, ShortToken.long, Term.long, written_nil]
      congr 1
      by_cases hfirst : operand.digitFirst = true
      · have hfound : found = [] := by
          by_contra hne
          exact h ⟨hfirst, hne⟩
        rw [hfound]
      · cases operand <;> first | rfl | exact absurd rfl hfirst
    | _ => rfl
  | _ => rfl

theorem clean_cons {s : Spelling} {found : Text} (ts : List Spelling)
    (hquote : s.token.hidesQuote = false) :
    Clean (!found.isEmpty) (s :: ts) ↔
      ¬ s.token.finds found ∧ Clean (!(s.token.left found).isEmpty) ts := by
  obtain ⟨token, gap, trail⟩ := s
  cases token with
  | term t =>
    cases t with
    | int key operand =>
      simp only [Clean, ShortToken.finds, ShortToken.left]
      cases operand with
      | range n m =>
        simp [NumOperand.digitFirst, NumOperand.isRange, NumOperand.left,
          List.isEmpty_eq_false_iff.mpr m.nonempty]
      | _ => simp +contextual [NumOperand.digitFirst, NumOperand.isRange, NumOperand.left]
    | str key operand =>
      have hq : operand.hidesQuote = false := hquote
      simp [Clean, hq, ShortToken.finds, ShortToken.left]
    | bool key => simp [Clean, ShortToken.finds, ShortToken.left]
  | _ => simp [Clean, ShortToken.finds, ShortToken.left]

theorem left_digits {found : Text} (h : ∀ c ∈ found, isDigit c = true) (t : ShortToken) :
    ∀ c ∈ t.left found, isDigit c = true := by
  cases t with
  | term t =>
    cases t with
    | int key operand =>
      cases operand with
      | range n m => exact m.digits
      | eq n => simp [ShortToken.left, NumOperand.left]
      | ge n => simp [ShortToken.left, NumOperand.left]
      | _ => exact h
    | _ => exact h
  | _ => exact h

theorem not_mem_digits {s : Text} (h : ∀ c ∈ s, isDigit c = true) : 0 ∉ s := by
  intro h0
  have := h 0 h0
  revert this
  decide

theorem Key.long_zero {type : KeyType} (key : Key type) : 0 ∉ key.long := by
  intro h0
  have := key.long_alpha.2 0 h0
  revert this
  decide

theorem written_zero {found : Text} (h : ∀ c ∈ found, isDigit c = true) (t : ShortToken) :
    0 ∉ t.written found := by
  have hfound := not_mem_digits h
  cases t with
  | term t =>
    cases t with
    | int key operand =>
      have hkey := key.long_zero
      have hn : ∀ n : Digits, 0 ∉ n.text := fun n => not_mem_digits n.digits
      cases operand <;> simp [ShortToken.written, NumOperand.written, hkey, hn, hfound, ascii, ch]
    | str key operand =>
      have hkey := key.long_zero
      have htext : 0 ∉ operand.pattern := by
        cases operand with
        | plain t =>
          have : 0 ∉ t.text := by
            intro h0
            have := t.plain 0 h0
            revert this
            decide
          simp [TextOperand.pattern, this, ascii, ch]
        | quoted t => exact t.nonzero
      simp [ShortToken.written, ShortToken.long, Term.long, hkey, htext, ascii, ch]
    | bool key => exact key.long_zero
  | _ => simp [ShortToken.written, ShortToken.long, ascii, ch]

/-- A quoted text whose closing quote is not seen. -/
theorem feedAll_unclosed (joined : Bool) (x : Scratch) (key : Key .str) (t : QuotedText)
    (hlast : t.text.getLast? = some (ch '\\')) (gap : Nat) (input : Text) :
    feedAll (boundary joined, x) (ch '~' :: key.short ::
        (spaces gap ++ (TextOperand.quoted t).short ++ input)) =
      feedAll (.inQuoteStr :: boundary true, ⟨x.out ++ ((if joined then ascii "&" else []) ++
        (Term.str key (.quoted t)).long), x.num, key.long, x.level, ch '"'⟩) input := by
  rw [feedAll_key joined x key, List.append_assoc]
  obtain ⟨prev, hgap⟩ := feedAll_spaces (.expectStr :: boundary true)
    ⟨x.out ++ ((if joined then ascii "&" else []) ++ key.long), x.num, key.long,
      x.level, key.short⟩ gap ((TextOperand.quoted t).short ++ input)
  have hquoted := feedAll_quotedText (boundary true)
    ⟨x.out ++ ((if joined then ascii "&" else []) ++ key.long), x.num, key.long, x.level, prev⟩ t
    input
  rw [if_pos hlast] at hquoted
  refine hgap.trans ?_
  simp only [TextOperand.short, List.cons_append, List.append_assoc, List.nil_append] at hquoted ⊢
  rw [feedAll_noSpace _ _ (by decide), hquoted]
  simp [Scratch.write, Term.long, TextOperand.pattern]

/-- **What the automaton makes of a spelling**: the long form of its tokens, exactly
where the spelling is clean. -/
theorem gives_spell (ts : List Spelling) (joined : Bool) (x : Scratch) (hzero : 0 ∉ x.out)
    (hnum : ∀ c ∈ x.num, isDigit c = true) (hlevel : x.level + depth (ts.map (·.token)) ≤ 0) :
    Gives (boundary joined, x) (spell ts ++ [0])
        (x.out ++ longTokens joined (ts.map (·.token))) ↔ Clean (!x.num.isEmpty) ts := by
  induction ts generalizing joined x with
  | nil =>
    refine iff_of_true ?_ trivial
    have hnul : feed (boundary joined) x 0 = .ok ([.top], x.write [0]) := by
      have : ¬ x.level > 0 := by simpa [depth] using hlevel
      cases joined <;> simp [feed, boundary, this, ch]
    refine ⟨_, by rw [spell, List.nil_append, feedAll_step _ _ _ hnul]; rfl, ?_⟩
    exact (takeWhile_terminated hzero []).trans (List.append_nil _).symm
  | cons s ts ih =>
    have hsplit : x.out ++ longTokens joined ((s :: ts).map (·.token)) =
        x.out ++ (s.token.glue joined ++ s.token.long) ++
          longTokens s.token.joins (ts.map (·.token)) := by
      simp [longTokens]
    have hinput : spell (s :: ts) ++ [0] =
        s.token.spell s.gap ++ (spaces s.trail ++ (spell ts ++ [0])) := by
      simp [spell]
    rw [hsplit, hinput]
    cases hquote : s.token.hidesQuote with
    | false =>
      obtain ⟨c, input, hhead, hc⟩ := spell_head ts
      obtain ⟨key, prev, hfeed⟩ := feedAll_token joined x s hquote hc input
      rw [clean_cons ts hquote, hhead, Gives.congr hfeed, ← hhead]
      have hwritten := written_zero hnum s.token
      have hout : 0 ∉ x.out ++ (s.token.glue joined ++ s.token.written x.num) := by
        simp [hzero, glue_zero, hwritten]
      by_cases hfinds : s.token.finds x.num
      · refine iff_of_false (fun h => ?_) fun h => h.1 hfinds
        have hprefix := h.front (p := x.out ++ (s.token.glue joined ++ s.token.written x.num))
          ⟨[], (List.append_nil _).symm, by cases s.token.joins <;> simp [boundary]⟩ hout
        obtain ⟨token, gap, trail⟩ := s
        cases token with
        | term t =>
          cases t with
          | int key operand =>
            refine written_not_prefix hfinds.2 hnum key.long
              (longTokens true (ts.map (·.token))) hfinds.1 ?_
            simpa [ShortToken.written, ShortToken.long, Term.long, written_nil, ShortToken.joins] using hprefix
          | _ => exact hfinds
        | _ => exact hfinds
      · have hlong := written_eq_long hfinds
        rw [← hlong, ih s.token.joins _ hout (left_digits hnum s.token) ?_]
        · simp [hfinds]
        · have := depth_cons s.token (ts.map (·.token))
          simp only [List.map_cons] at hlevel
          simp only
          omega
    | true =>
      obtain ⟨token, gap, trail⟩ := s
      obtain ⟨key, t, rfl, hlast⟩ : ∃ key t, token = .term (.str key (.quoted t)) ∧
          t.text.getLast? = some (ch '\\') := by
        cases token with
        | term t =>
          cases t with
          | str key operand =>
            cases operand with
            | quoted t => exact ⟨key, t, rfl, by simpa [ShortToken.hidesQuote,
                TextOperand.hidesQuote] using hquote⟩
            | plain t => cases hquote
          | _ => cases hquote
        | _ => cases hquote
      have hfeed := feedAll_unclosed joined x key t hlast gap (spaces trail ++ (spell ts ++ [0]))
      have hwritten := written_zero hnum (.term (.str key (.quoted t)))
      have hout : 0 ∉ x.out ++ ((if joined then ascii "&" else []) ++
          (Term.str key (.quoted t)).long) := by
        have := glue_zero joined (.term (.str key (.quoted t)))
        simp only [ShortToken.glue, ShortToken.written, ShortToken.long] at this hwritten
        simp only [List.mem_append, not_or]
        exact ⟨hzero, this, hwritten⟩
      have hclean : Clean (!x.num.isEmpty) (⟨.term (.str key (.quoted t)), gap, trail⟩ :: ts) ↔
          spaces trail ++ spell ts = longTokens true (ts.map (·.token)) := by
        simp [Clean, TextOperand.hidesQuote, hlast]
      have hrest := gives_unclosed (boundary true) (by simp [boundary])
        ⟨x.out ++ ((if joined then ascii "&" else []) ++ (Term.str key (.quoted t)).long), x.num,
          key.long, x.level, ch '"'⟩ hout ts trail
      rw [hclean, ← hrest, List.append_assoc (spaces trail)]
      exact Gives.congr (by simpa [ShortToken.spell] using hfeed)

end GracefulMusic.Expr
