import GracefulMusic.Expr.ShortForm

/-! The memory of the expansion of the short form (`expr.c`).

The automaton of `expand_short_expr` with its own variables: the index, the stack of states
packed into an `unsigned long` of at least 32 bits, and buffers whose sizes come from the
length of the input. A write outside of a buffer, a push that loses a state and a pop from
the empty stack are `none`.

Each character pays for seven bytes. `weight` is what the states on the stack still write,
so that characters read and bytes written balance over the whole input. -/
namespace GracefulMusic.Expr

/-- The numbers of the states. -/
def ExpandState.code : ExpandState → Nat
  | .skipSpace => 1
  | .top => 2
  | .expectKey => 3
  | .expectOp => 4
  | .expectInt => 5
  | .inInt => 6
  | .memInt => 7
  | .in2ndInt => 8
  | .expectStr => 9
  | .inQuoteStr => 10
  | .inStr => 11

def expandStates : List ExpandState :=
  [.skipSpace, .top, .expectKey, .expectOp, .expectInt, .inInt, .memInt, .in2ndInt, .expectStr,
    .inQuoteStr, .inStr]

def stack4Push (s : Nat) (state : ExpandState) : Option Nat :=
  if s * 16 < 2 ^ 32 then some (s * 16 + state.code) else none

def stack4Pop (s : Nat) : Option Nat := if s = 0 then none else some (s / 16)

def stack4Top (s : Nat) : Option ExpandState := expandStates.find? (·.code = s % 16)

def stack4ReplaceTop (s : Nat) (state : ExpandState) : Option Nat :=
  if s = 0 then none else some (s / 16 * 16 + state.code)

/-- The variables of `expand_short_expr`; `out` and `num` are what is written so far. -/
structure Expander where
  i : Nat
  stateStack : Nat
  out : Text
  num : Text
  key : Text
  level : Int

section
variable (exprShort : Text)

/-- Bytes behind the `k` bytes there are. -/
def Expander.put (e : Expander) (s : Text) : Option Expander :=
  if e.out.length + s.length ≤ 7 * exprShort.length then some {e with out := e.out ++ s} else none

/-- `strcpy`, which writes a terminator too. -/
def Expander.strcpy (e : Expander) (s : Text) : Option Expander :=
  if e.out.length + s.length + 1 ≤ 7 * exprShort.length then some {e with out := e.out ++ s}
  else none

def Expander.putNum (e : Expander) (c : UInt8) : Option Expander :=
  if e.num.length < exprShort.length then some {e with num := e.num ++ [c]} else none

def Expander.push (e : Expander) (state : ExpandState) : Option Expander :=
  (stack4Push e.stateStack state).map fun stateStack => {e with stateStack}

def Expander.pop (e : Expander) : Option Expander :=
  (stack4Pop e.stateStack).map fun stateStack => {e with stateStack}

def Expander.replaceTop (e : Expander) (state : ExpandState) : Option Expander :=
  (stack4ReplaceTop e.stateStack state).map fun stateStack => {e with stateStack}

/-- To the next character. -/
def Expander.next (e : Expander) : Expander := {e with i := e.i + 1}

/-- A round of the loop. Where the source goes back by one, the index stays. -/
def expandRound (e : Expander) : Option (Except Text Expander) :=
  let c := exprShort[e.i]?.getD 0
  (stack4Top e.stateStack).bind fun
  | .skipSpace => if c = ch ' ' then some (.ok e.next) else do some (.ok (← e.pop))
  | .top =>
    if c = ch '~' then do
      let e ← e.push .expectOp
      let e ← e.push .skipSpace
      let e ← e.push .expectKey
      some (.ok e.next)
    else if c = ch '(' then do
      let e ← Expander.put exprShort {e with level := e.level + 1} [c]
      some (.ok (← e.push .skipSpace).next)
    else if c = ch '!' ∨ c = ch '|' then do
      let e ← e.put exprShort [c]
      some (.ok (← e.push .skipSpace).next)
    else if c = ch ')' then do
      let e ← Expander.put exprShort {e with level := e.level - 1} [c]
      let e ← e.push .expectOp
      some (.ok (← e.push .skipSpace).next)
    else if c = 0 then
      if e.level > 0 then some (setError (ascii "')' expected"))
      else do some (.ok (← e.put exprShort [c]).next)
    else some (setError (ascii "unexpected '" ++ [c] ++ ascii "'"))
  | .expectKey => do
    let e ← e.pop
    match lookupLongKey c with
    | none => some (setError (ascii "unknown short key " ++ [c]))
    | some key =>
      let e := {e with key}
      match lookupKeyType key with
      | some .int => do
        let e ← e.push .expectInt
        let e ← e.put exprShort [ch '(']
        let e ← e.strcpy exprShort key
        some (.ok (← e.push .skipSpace).next)
      | some .str => do
        let e ← e.push .expectStr
        let e ← e.strcpy exprShort key
        some (.ok (← e.push .skipSpace).next)
      | _ => do
        let e ← e.strcpy exprShort key
        some (.ok (← e.push .skipSpace).next)
  | .expectOp => do
    let e ← e.put exprShort (if c = ch '~' ∨ c = ch '(' ∨ c = ch '!' then [ch '&'] else [])
    some (.ok (← e.replaceTop .skipSpace))
  | .expectInt =>
    if c = ch '<' ∨ c = ch '>' then do
      let e ← e.put exprShort [c]
      some (.ok (← e.replaceTop .inInt).next)
    else if c = ch '-' then do
      let e ← e.put exprShort (ascii "<=")
      some (.ok (← e.replaceTop .inInt).next)
    else if isDigit c then do
      let e ← e.putNum exprShort c
      some (.ok (← e.replaceTop .memInt).next)
    else some (setError (ascii "integer expected"))
  | .inInt =>
    if isDigit c then do some (.ok (← e.put exprShort [c]).next)
    else do
      let e ← e.pop
      some (.ok (← e.put exprShort (ascii ")")))
  | .memInt =>
    if isDigit c then do some (.ok (← e.putNum exprShort c).next)
    else if c = ch '-' then do
      let e ← e.put exprShort (ascii ">=")
      let e ← e.replaceTop .in2ndInt
      let e ← e.put exprShort e.num
      some (.ok {e.next with num := []})
    else do
      let e ← e.put exprShort (ascii "=")
      let e ← e.pop
      let e ← e.put exprShort e.num
      Expander.put exprShort {e with num := []} (ascii ")") |>.map .ok
  | .in2ndInt =>
    if isDigit c then do some (.ok (← e.putNum exprShort c).next)
    else do
      let e ← e.pop
      if e.num ≠ [] then do
        let e ← e.put exprShort [ch '&']
        let e ← e.strcpy exprShort e.key
        let e ← e.put exprShort (ascii "<=")
        let e ← e.put exprShort e.num
        some (.ok (← e.put exprShort (ascii ")")))
      else some (.ok (← e.put exprShort (ascii ")")))
  | .expectStr => do
    let e ← e.put exprShort (ascii "=")
    if c = ch '"' then do
      let e ← e.replaceTop .inQuoteStr
      some (.ok (← e.put exprShort [c]).next)
    else do
      let e ← e.replaceTop .inStr
      some (.ok (← e.put exprShort (ascii "\"*" ++ [c])).next)
  | .inQuoteStr => do
    let e ← if c = ch '"' ∧ exprShort[e.i - 1]?.getD 0 ≠ ch '\\' then e.pop else some e
    some (.ok (← e.put exprShort [c]).next)
  | .inStr =>
    if c ≠ ch '~' ∧ c ≠ ch '!' ∧ c ≠ ch '|' ∧ c ≠ ch '(' ∧ c ≠ ch ')' ∧ c ≠ 0 then do
      some (.ok (← e.put exprShort [c]).next)
    else do
      let e ← Expander.put exprShort {e with out := e.out.rdropWhile (· = ch ' ')} (ascii "*\"")
      some (.ok (← e.pop))

def expandLoop : Nat → Expander → Option (Except Text Expander)
  | 0, _ => none
  | fuel + 1, e =>
    if exprShort.length < e.i then some (.ok e)
    else
      (expandRound exprShort e).bind fun
        | .error message => some (.error message)
        | .ok e => expandLoop fuel e

/-- The string that is returned ends at its first terminator. -/
def expandShort (fuel : Nat) : Option (Except Text Text) :=
  ((stack4Push 0 .top).bind fun s => stack4Push s .skipSpace).bind fun stateStack =>
    (expandLoop exprShort fuel ⟨0, stateStack, [], [], [], 0⟩).map
      (Except.map fun e => e.out.takeWhile (· ≠ 0))

end

example : expandShort (ascii "~n1-2") 40 = some (.ok (ascii "(tracknumber>=1&tracknumber<=2)")) := by
  decide +kernel

/-! ### The packed stack -/

def pack : List ExpandState → Nat
  | [] => 0
  | state :: rest => pack rest * 16 + state.code

theorem pack_lt (stack : List ExpandState) : pack stack < 16 ^ stack.length := by
  induction stack with
  | nil => decide
  | cons state rest ih =>
    have hcode : state.code < 16 := by cases state <;> decide
    rw [pack, List.length_cons, pow_succ]
    omega

theorem stack4Top_pack (state : ExpandState) (rest : List ExpandState) :
    stack4Top (pack (state :: rest)) = some state := by
  rw [stack4Top, pack, Nat.mul_add_mod_self_right]
  cases state <;> decide

theorem stack4Pop_pack (state : ExpandState) (rest : List ExpandState) :
    stack4Pop (pack (state :: rest)) = some (pack rest) := by
  have hcode : state.code < 16 ∧ state.code ≠ 0 := by cases state <;> decide
  rw [stack4Pop, pack, if_neg (by omega)]
  congr 1
  omega

theorem stack4Push_pack (state : ExpandState) {rest : List ExpandState} (h : rest.length ≤ 7) :
    stack4Push (pack rest) state = some (pack (state :: rest)) := by
  have hlt := pack_lt rest
  have hle : 16 ^ rest.length ≤ 16 ^ 7 := Nat.pow_le_pow_right (by decide) h
  exact if_pos (by omega)

theorem stack4ReplaceTop_pack (new state : ExpandState) (rest : List ExpandState) :
    stack4ReplaceTop (pack (state :: rest)) new = some (pack (new :: rest)) := by
  have hcode : state.code < 16 ∧ state.code ≠ 0 := by cases state <;> decide
  rw [stack4ReplaceTop, pack, if_neg (by omega), pack]
  congr 2
  omega

/-- The stacks that occur. -/
def stackShapes : List (List ExpandState) :=
  [[.top], [.skipSpace, .top], [.expectOp, .top], [.skipSpace, .expectOp, .top],
    [.skipSpace, .skipSpace, .expectOp, .top], [.expectKey, .skipSpace, .expectOp, .top],
    [.skipSpace, .expectInt, .skipSpace, .expectOp, .top],
    [.expectInt, .skipSpace, .expectOp, .top], [.inInt, .skipSpace, .expectOp, .top],
    [.memInt, .skipSpace, .expectOp, .top], [.in2ndInt, .skipSpace, .expectOp, .top],
    [.skipSpace, .expectStr, .skipSpace, .expectOp, .top],
    [.expectStr, .skipSpace, .expectOp, .top], [.inQuoteStr, .skipSpace, .expectOp, .top],
    [.inStr, .skipSpace, .expectOp, .top]]

theorem stackShapes_length : ∀ stack ∈ stackShapes, stack.length ≤ 5 := by decide

/-- Below another state than `ST_TOP` there is a stack that occurs. -/
theorem stackShapes_below {state : ExpandState} {rest : List ExpandState}
    (h : state :: rest ∈ stackShapes) (hstate : state ≠ .top) : rest ∈ stackShapes := by
  have hall : ∀ stack ∈ stackShapes, stack.head? ≠ some .top → stack.tail ∈ stackShapes := by
    decide
  exact hall _ h fun heq => hstate (Option.some.inj heq)

/-! ### Rounds -/

/-- The variables with an index and a stack. -/
def load (i : Nat) (stack : List ExpandState) (x : Scratch) : Expander :=
  ⟨i, pack stack, x.out, x.num, x.key, x.level⟩

section
variable {exprShort : Text}

/-- What the loop still does from a result. -/
def resume (exprShort : Text) (fuel : Nat) : Except Text Expander → Option (Except Text Expander)
  | .error message => some (.error message)
  | .ok e => expandLoop exprShort fuel e

/-- The loop comes to a result of its rounds. -/
def Leads (exprShort : Text) (e : Expander) (r : Except Text Expander) : Prop :=
  ∃ n, ∀ fuel, expandLoop exprShort (n + fuel) e = resume exprShort fuel r

/-- A round that ends the character. -/
theorem Leads.last {e : Expander} {r : Except Text Expander} (hi : e.i ≤ exprShort.length)
    (hround : expandRound exprShort e = some r) : Leads exprShort e r := by
  refine ⟨1, fun fuel => ?_⟩
  rw [Nat.add_comm, expandLoop, if_neg (by omega), hround]
  cases r <;> rfl

/-- A round that passes the character on. -/
theorem Leads.pass {e e' : Expander} {r : Except Text Expander} (hi : e.i ≤ exprShort.length)
    (hround : expandRound exprShort e = some (.ok e')) (h : Leads exprShort e' r) :
    Leads exprShort e r := by
  obtain ⟨n, hn⟩ := h
  refine ⟨n + 1, fun fuel => ?_⟩
  rw [← hn fuel, Nat.add_right_comm, expandLoop, if_neg (by omega), hround]
  rfl

/-- Most that is written for a character, with `n` digits in `num` and a key of length `k`. -/
def spend (c : UInt8) (k : Nat) : List ExpandState → Nat → Nat
  | [], _ => 0
  | .skipSpace :: rest, n => spend c k rest n
  | .top :: _, _ => 1
  | .expectKey :: _, _ => if c = 0 then 0 else 13
  | .expectOp :: rest, n => (if c = 0 then 0 else 1) + spend c k rest n
  | .expectInt :: _, _ => if c = 0 then 0 else 2
  | .inInt :: rest, n => 1 + spend c k rest n
  | .memInt :: rest, n => 2 + n + spend c k rest 0
  | .in2ndInt :: rest, n => (if n = 0 then 0 else 3 + k + n) + 1 + spend c k rest n
  | .expectStr :: _, _ => 4
  | .inQuoteStr :: _, _ => 1
  | .inStr :: rest, n => 2 + spend c k rest n

theorem put_eq {e : Expander} {s : Text} (h : e.out.length + s.length ≤ 7 * exprShort.length) :
    e.put exprShort s = some {e with out := e.out ++ s} := if_pos h

theorem strcpy_eq {e : Expander} {s : Text}
    (h : e.out.length + s.length + 1 ≤ 7 * exprShort.length) :
    e.strcpy exprShort s = some {e with out := e.out ++ s} := if_pos h

theorem putNum_eq {e : Expander} {c : UInt8} (h : e.num.length < exprShort.length) :
    e.putNum exprShort c = some {e with num := e.num ++ [c]} := if_pos h

variable {i : Nat} {c : UInt8} {rest : List ExpandState} {x : Scratch}

theorem load_put {stack : List ExpandState} {s : Text}
    (h : x.out.length + s.length ≤ 7 * exprShort.length) :
    (load i stack x).put exprShort s = some (load i stack (x.write s)) := put_eq h

theorem load_strcpy {stack : List ExpandState} {s : Text}
    (h : x.out.length + s.length + 1 ≤ 7 * exprShort.length) :
    (load i stack x).strcpy exprShort s = some (load i stack (x.write s)) := strcpy_eq h

theorem load_putNum {stack : List ExpandState} (h : x.num.length < exprShort.length) :
    (load i stack x).putNum exprShort c = some (load i stack {x with num := x.num ++ [c]}) :=
  putNum_eq h

theorem load_push {stack : List ExpandState} (state : ExpandState) (h : stack.length ≤ 7) :
    (load i stack x).push state = some (load i (state :: stack) x) :=
  congrArg (Option.map _) (stack4Push_pack state h)

theorem load_pop (state : ExpandState) :
    (load i (state :: rest) x).pop = some (load i rest x) :=
  congrArg (Option.map _) (stack4Pop_pack state rest)

theorem load_replaceTop (state new : ExpandState) :
    (load i (state :: rest) x).replaceTop new = some (load i (new :: rest) x) :=
  congrArg (Option.map _) (stack4ReplaceTop_pack new state rest)

theorem load_next (stack : List ExpandState) : (load i stack x).next = load (i + 1) stack x := rfl

theorem load_top (state : ExpandState) :
    stack4Top (load i (state :: rest) x).stateStack = some state := stack4Top_pack state rest

theorem round_top (hc : exprShort[i]?.getD 0 = c) (hrest : rest.length ≤ 4)
    (hroom : x.out.length + 1 ≤ 7 * exprShort.length) :
    expandRound exprShort (load i (.top :: rest) x) =
      some ((feed (.top :: rest) x c).map fun r => load (i + 1) r.1 r.2) := by
  have hput : ∀ level, (load i (.top :: rest) {x with level}).put exprShort [c] =
      some (load i (.top :: rest) (Scratch.write {x with level} [c])) := fun level => load_put hroom
  have hsame : (load i (.top :: rest) x).put exprShort [c] =
      some (load i (.top :: rest) (x.write [c])) := load_put hroom
  have hone : (ExpandState.top :: rest).length ≤ 7 := by rw [List.length_cons]; omega
  have htwo : (ExpandState.expectOp :: .top :: rest).length ≤ 7 := by
    simp only [List.length_cons]
    omega
  have hthree : (ExpandState.skipSpace :: .expectOp :: .top :: rest).length ≤ 7 := by
    simp only [List.length_cons]
    omega
  unfold expandRound
  rw [load_top, Option.bind_some, feed]
  show (if exprShort[i]?.getD 0 = ch '~' then _ else _) = _
  simp only [show (load i (.top :: rest) x).i = i from rfl, hc]
  split
  · simp only [load_push _ hone, load_push _ htwo, load_push _ hthree, Option.bind_eq_bind,
      Option.bind_some]
    rfl
  split
  · show ((load i (.top :: rest) {x with level := x.level + 1}).put exprShort [c]).bind _ = _
    simp only [hput, load_push _ hone, Option.bind_eq_bind, Option.bind_some]
    rfl
  split
  · simp only [hsame, load_push _ hone, Option.bind_eq_bind, Option.bind_some]
    rfl
  split
  · show ((load i (.top :: rest) {x with level := x.level - 1}).put exprShort [c]).bind _ = _
    simp only [hput, load_push _ hone, load_push _ htwo, Option.bind_eq_bind, Option.bind_some]
    rfl
  split
  · show (if x.level > 0 then _ else _) = _
    split
    · rfl
    · simp only [hsame, Option.bind_eq_bind, Option.bind_some]
      rfl
  · rfl

theorem lookupLongKey_length {key : Text} (h : lookupLongKey c = some key) :
    c ≠ 0 ∧ key.length ≤ 11 := by
  obtain ⟨entry, hentry, rfl⟩ := Option.map_eq_some_iff.mp h
  have hall : ∀ entry ∈ shortKeys, entry.1 ≠ 0 ∧ entry.2.length ≤ 11 := by decide
  have hkey := hall entry (List.mem_of_find?_eq_some hentry)
  have hc : entry.1 = c := by simpa using List.find?_some hentry
  rwa [hc] at hkey

theorem round_expectKey (hc : exprShort[i]?.getD 0 = c) (hrest : rest.length ≤ 4)
    (hroom : x.out.length + (if c = 0 then 0 else 13) ≤ 7 * exprShort.length) :
    expandRound exprShort (load i (.expectKey :: rest) x) =
      some ((feed (.expectKey :: rest) x c).map fun r => load (i + 1) r.1 r.2) := by
  unfold expandRound
  rw [load_top, Option.bind_some, feed]
  simp only [show (load i (.expectKey :: rest) x).i = i from rfl, hc, load_pop,
    Option.bind_eq_bind, Option.bind_some]
  cases hkey : lookupLongKey c with
  | none => rfl
  | some key =>
    obtain ⟨hne, hlen⟩ := lookupLongKey_length hkey
    rw [if_neg hne] at hroom
    have hstrcpy : ∀ (stack : List ExpandState) (x' : Scratch), x'.out.length ≤ x.out.length + 1 →
        (load i stack x').strcpy exprShort key = some (load i stack (x'.write key)) :=
      fun stack x' hx' => load_strcpy (by omega)
    have hpush : ∀ (stack : List ExpandState) (x' : Scratch) (state : ExpandState),
        stack.length ≤ 5 → (load i stack x').push state = some (load i (state :: stack) x') :=
      fun stack x' state hstack => load_push state (by omega)
    simp only [show ({load i rest x with key} : Expander) = load i rest {x with key} from rfl]
    cases htype : lookupKeyType key with
    | none =>
      simp only [hstrcpy rest {x with key} (Nat.le_succ _),
        hpush rest _ _ (Nat.le_succ_of_le hrest), Option.bind_some]
      rfl
    | some type =>
      cases type with
      | bool =>
        simp only [hstrcpy rest {x with key} (Nat.le_succ _),
          hpush rest _ _ (Nat.le_succ_of_le hrest), Option.bind_some]
        rfl
      | str =>
        simp only [hpush rest _ _ (Nat.le_succ_of_le hrest), Option.bind_some,
          hstrcpy (.expectStr :: rest) {x with key} (Nat.le_succ _),
          hpush (.expectStr :: rest) _ _ (by rw [List.length_cons]; omega)]
        rfl
      | int =>
        have hput : (load i (.expectInt :: rest) {x with key}).put exprShort [ch '('] =
            some (load i (.expectInt :: rest) (Scratch.write {x with key} [ch '('])) :=
          load_put (by simp only [List.length_singleton]; omega)
        simp only [hpush rest _ _ (Nat.le_succ_of_le hrest), Option.bind_some, hput,
          hstrcpy (.expectInt :: rest) (Scratch.write {x with key} [ch '('])
            (by simp [Scratch.write]),
          hpush (.expectInt :: rest) _ _ (by rw [List.length_cons]; omega)]
        simp only [Scratch.write, List.append_assoc, List.singleton_append, load_next, Except.map]

theorem round_expectInt (hc : exprShort[i]?.getD 0 = c)
    (hroom : x.out.length + (if c = 0 then 0 else 2) ≤ 7 * exprShort.length)
    (hnum : isDigit c = true → x.num.length < exprShort.length) :
    expandRound exprShort (load i (.expectInt :: rest) x) =
      some ((feed (.expectInt :: rest) x c).map fun r => load (i + 1) r.1 r.2) := by
  unfold expandRound
  rw [load_top, Option.bind_some, feed]
  simp only [show (load i (.expectInt :: rest) x).i = i from rfl, hc, Option.bind_eq_bind]
  by_cases hzero : c = 0
  · subst hzero
    rfl
  rw [if_neg hzero] at hroom
  split
  · rw [load_put (by rw [List.length_singleton]; omega), Option.bind_some, load_replaceTop]
    rfl
  split
  · rw [load_put hroom, Option.bind_some, load_replaceTop]
    rfl
  split
  · rw [load_putNum (hnum ‹_›), Option.bind_some, load_replaceTop]
    rfl
  · rfl

theorem round_expectStr (hc : exprShort[i]?.getD 0 = c)
    (hroom : x.out.length + 4 ≤ 7 * exprShort.length) :
    expandRound exprShort (load i (.expectStr :: rest) x) =
      some ((feed (.expectStr :: rest) x c).map fun r => load (i + 1) r.1 r.2) := by
  unfold expandRound
  rw [load_top, Option.bind_some, feed]
  have hlen : (x.write (ascii "=")).out.length = x.out.length + 1 := List.length_append
  simp only [show (load i (.expectStr :: rest) x).i = i from rfl, hc, Option.bind_eq_bind]
  rw [load_put (show _ + 1 ≤ _ by omega), Option.bind_some]
  split
  · rw [load_replaceTop, Option.bind_some, load_put (by rw [hlen, List.length_singleton]; omega)]
    simp [Scratch.write, load_next, Except.map]
  · rw [load_replaceTop, Option.bind_some, load_put (by rw [hlen]; exact hroom)]
    simp [Scratch.write, load_next, Except.map, ascii]

theorem round_inQuoteStr (hc : exprShort[i]?.getD 0 = c)
    (hprev : x.prev = exprShort[i - 1]?.getD 0)
    (hroom : x.out.length + 1 ≤ 7 * exprShort.length) :
    expandRound exprShort (load i (.inQuoteStr :: rest) x) =
      some ((feed (.inQuoteStr :: rest) x c).map fun r => load (i + 1) r.1 r.2) := by
  unfold expandRound
  rw [load_top, Option.bind_some, feed]
  simp only [show (load i (.inQuoteStr :: rest) x).i = i from rfl, hc, Option.bind_eq_bind, ← hprev]
  split
  · rw [load_pop, Option.bind_some, load_put hroom]
    rfl
  · rw [Option.bind_some, load_put hroom]
    rfl

/-- The state on top passes the character on to the ones below it. -/
structure PassesTo (exprShort : Text) (i : Nat) (c : UInt8) (state : ExpandState)
    (rest : List ExpandState) (x x' : Scratch) : Prop where
  feeds : feed (state :: rest) x c = feed rest x' c
  round : expandRound exprShort (load i (state :: rest) x) = some (.ok (load i rest x'))
  prev : x'.prev = x.prev
  room : x'.out.length + spend c x'.key.length rest x'.num.length ≤ 7 * exprShort.length
  digits : isDigit c = true → x'.num = x.num

/-- Or it keeps it, or fails. -/
def Ends (exprShort : Text) (i : Nat) (c : UInt8) (stack : List ExpandState) (x : Scratch) :
    Prop :=
  expandRound exprShort (load i stack x) =
    some ((feed stack x c).map fun r => load (i + 1) r.1 r.2)

theorem round_skipSpace (hc : exprShort[i]?.getD 0 = c)
    (hroom : x.out.length + spend c x.key.length rest x.num.length ≤ 7 * exprShort.length) :
    Ends exprShort i c (.skipSpace :: rest) x ∨
      ∃ x', PassesTo exprShort i c .skipSpace rest x x' := by
  have hindex : (load i (.skipSpace :: rest) x).i = i := rfl
  by_cases hsp : c = ch ' '
  · left
    rw [Ends, feed_skipSpace, if_pos hsp, expandRound, load_top, Option.bind_some]
    simp only [hindex, hc, if_pos hsp]
    rfl
  · refine .inr ⟨x, ?_, ?_, rfl, hroom, fun _ => rfl⟩
    · rw [feed_skipSpace, if_neg hsp]
    · rw [expandRound, load_top, Option.bind_some]
      simp only [hindex, hc, if_neg hsp, load_pop, Option.bind_eq_bind, Option.bind_some]

/-- `ST_EXPECT_OP` becomes `ST_SKIP_SPACE`. -/
theorem round_expectOp (hc : exprShort[i]?.getD 0 = c)
    (hroom : x.out.length + spend c x.key.length (.expectOp :: rest) x.num.length ≤
      7 * exprShort.length) :
    ∃ x', feed (.expectOp :: rest) x c = feed (.skipSpace :: rest) x' c ∧
      expandRound exprShort (load i (.expectOp :: rest) x) =
        some (.ok (load i (.skipSpace :: rest) x')) ∧
      x'.prev = x.prev ∧ x'.num = x.num ∧
      x'.out.length + spend c x'.key.length rest x'.num.length ≤ 7 * exprShort.length := by
  let op := if c = ch '~' ∨ c = ch '(' ∨ c = ch '!' then [ch '&'] else []
  have hop : op.length ≤ if c = 0 then 0 else 1 := by
    by_cases hzero : c = 0
    · subst hzero
      exact Nat.le_refl _
    · rw [if_neg hzero]
      show (if _ then _ else _ : Text).length ≤ 1
      split
      · exact Nat.le_refl _
      · exact Nat.zero_le _
  have hout : (x.write op).out.length = x.out.length + op.length := List.length_append
  rw [spend] at hroom
  refine ⟨x.write op, ?_, ?_, rfl, rfl, ?_⟩
  · have hwrite : x.write op = if c = ch '~' ∨ c = ch '(' ∨ c = ch '!' then x.write [ch '&']
        else x := by
      show x.write (if _ then _ else _) = _
      split
      · rfl
      · simp [Scratch.write]
    rw [feed_skipSpace, hwrite, feed]
  · rw [expandRound, load_top, Option.bind_some]
    simp only [show (load i (.expectOp :: rest) x).i = i from rfl, hc, Option.bind_eq_bind]
    rw [load_put (show x.out.length + op.length ≤ _ by omega), Option.bind_some, load_replaceTop,
      Option.bind_some]
  · rw [hout]
    show _ + spend c x.key.length rest x.num.length ≤ _
    omega

theorem round_inInt (hc : exprShort[i]?.getD 0 = c)
    (hroom : x.out.length + spend c x.key.length (.inInt :: rest) x.num.length ≤
      7 * exprShort.length) :
    Ends exprShort i c (.inInt :: rest) x ∨ ∃ x', PassesTo exprShort i c .inInt rest x x' := by
  have hindex : (load i (.inInt :: rest) x).i = i := rfl
  rw [spend] at hroom
  by_cases hdigit : isDigit c = true
  · left
    rw [Ends, feed, if_pos hdigit, expandRound, load_top, Option.bind_some]
    simp only [hindex, hc, if_pos hdigit, Option.bind_eq_bind]
    rw [load_put (by rw [List.length_singleton]; omega)]
    rfl
  · have hout : (x.write (ascii ")")).out.length = x.out.length + 1 := List.length_append
    refine .inr ⟨x.write (ascii ")"), ?_, ?_, rfl, ?_, fun _ => rfl⟩
    · rw [feed, if_neg hdigit]
    · rw [expandRound, load_top, Option.bind_some]
      simp only [hindex, hc, if_neg hdigit, load_pop, Option.bind_eq_bind, Option.bind_some]
      rw [load_put (show _ + 1 ≤ _ by omega), Option.bind_some]
    · rw [hout]
      show _ + spend c x.key.length rest x.num.length ≤ _
      omega

theorem round_memInt (hc : exprShort[i]?.getD 0 = c)
    (hroom : x.out.length + spend c x.key.length (.memInt :: rest) x.num.length ≤
      7 * exprShort.length)
    (hnum : isDigit c = true → x.num.length < exprShort.length) :
    Ends exprShort i c (.memInt :: rest) x ∨ ∃ x', PassesTo exprShort i c .memInt rest x x' := by
  have hindex : (load i (.memInt :: rest) x).i = i := rfl
  rw [spend] at hroom
  by_cases hdigit : isDigit c = true
  · left
    rw [Ends, feed, if_pos hdigit, expandRound, load_top, Option.bind_some]
    simp only [hindex, hc, if_pos hdigit, Option.bind_eq_bind]
    rw [load_putNum (hnum hdigit)]
    rfl
  by_cases hdash : c = ch '-'
  · left
    have hout : (x.write (ascii ">=")).out.length = x.out.length + 2 := List.length_append
    rw [Ends, feed, if_neg hdigit, if_pos hdash, expandRound, load_top, Option.bind_some]
    simp only [hindex, hc, if_neg hdigit, if_pos hdash, Option.bind_eq_bind]
    rw [load_put (show _ + 2 ≤ _ by omega), Option.bind_some, load_replaceTop,
      Option.bind_some, load_put (by rw [hout]; show _ + x.num.length ≤ _; omega)]
    simp [Scratch.write, load, Expander.next, Except.map]
  · have hout : (x.write (ascii "=")).out.length = x.out.length + 1 := List.length_append
    have hall : (x.write (ascii "=" ++ x.num ++ ascii ")")).out.length =
        x.out.length + (1 + x.num.length + 1) := by
      simp only [Scratch.write, List.length_append]
      rfl
    have hlast : (load i rest {(x.write (ascii "=")).write x.num with num := []}).put exprShort
        (ascii ")") = some (load i rest
          {x.write (ascii "=" ++ x.num ++ ascii ")") with num := []}) := by
      rw [load_put]
      · simp [Scratch.write]
      · simp only [Scratch.write, List.length_append]
        show _ + 1 + x.num.length + 1 ≤ _
        omega
    refine .inr ⟨{x.write (ascii "=" ++ x.num ++ ascii ")") with num := []}, ?_, ?_, rfl, ?_,
      fun h => absurd h hdigit⟩
    · rw [feed, if_neg hdigit, if_neg hdash]
    · rw [expandRound, load_top, Option.bind_some]
      simp only [hindex, hc, if_neg hdigit, if_neg hdash, Option.bind_eq_bind]
      rw [load_put (show _ + 1 ≤ _ by omega), Option.bind_some, load_pop, Option.bind_some,
        load_put (by rw [hout]; show _ + x.num.length ≤ _; omega), Option.bind_some]
      exact congrArg (Option.map Except.ok) hlast
    · rw [hall]
      show _ + spend c x.key.length rest 0 ≤ _
      omega

/-- The upper bound is written in five steps. -/
theorem put_upper (i : Nat) (rest : List ExpandState) {x : Scratch}
    (hroom : x.out.length + (3 + x.key.length + x.num.length) + 1 ≤ 7 * exprShort.length) :
    (do
      let e ← (load i rest x).put exprShort [ch '&']
      let e ← e.strcpy exprShort e.key
      let e ← e.put exprShort (ascii "<=")
      let e ← e.put exprShort e.num
      e.put exprShort (ascii ")")) =
      some (load i rest (x.write (ch '&' :: x.key ++ ascii "<=" ++ x.num ++ ascii ")"))) := by
  have hout : ∀ s, (x.write s).out.length = x.out.length + s.length := fun s =>
    List.length_append
  have hkey : ∀ (y : Scratch), (load i rest y).key = y.key := fun _ => rfl
  have hnum : ∀ (y : Scratch), (load i rest y).num = y.num := fun _ => rfl
  have hw : ∀ (s t : Text), (x.write s).write t = x.write (s ++ t) := fun s t => by
    simp [Scratch.write]
  simp only [Option.bind_eq_bind]
  rw [load_put (by rw [List.length_singleton]; omega), Option.bind_some, hkey,
    load_strcpy (by
      rw [hout, List.length_singleton]
      show _ + 1 + x.key.length + 1 ≤ _
      omega), Option.bind_some, hw]
  rw [load_put (by
    rw [hout]
    simp only [List.length_append, List.length_singleton]
    show _ + (1 + x.key.length) + 2 ≤ _
    omega), Option.bind_some, hw, hnum]
  rw [load_put (by
    rw [hout]
    simp only [List.length_append, List.length_singleton]
    show _ + (1 + x.key.length + 2) + x.num.length ≤ _
    omega), Option.bind_some, hw]
  rw [load_put (by
    rw [hout]
    simp only [List.length_append, List.length_singleton]
    show _ + (1 + x.key.length + 2 + x.num.length) + 1 ≤ _
    omega), hw]
  simp only [List.cons_append, List.append_assoc]
  rfl

theorem round_in2ndInt (hc : exprShort[i]?.getD 0 = c)
    (hroom : x.out.length + spend c x.key.length (.in2ndInt :: rest) x.num.length ≤
      7 * exprShort.length)
    (hnum : isDigit c = true → x.num.length < exprShort.length) :
    Ends exprShort i c (.in2ndInt :: rest) x ∨
      ∃ x', PassesTo exprShort i c .in2ndInt rest x x' := by
  have hindex : (load i (.in2ndInt :: rest) x).i = i := rfl
  rw [spend] at hroom
  by_cases hdigit : isDigit c = true
  · left
    rw [Ends, feed, if_pos hdigit, expandRound, load_top, Option.bind_some]
    simp only [hindex, hc, if_pos hdigit, Option.bind_eq_bind]
    rw [load_putNum (hnum hdigit)]
    rfl
  by_cases hnone : x.num = []
  · have hout : (x.write (ascii ")")).out.length = x.out.length + 1 := List.length_append
    refine .inr ⟨x.write (ascii ")"), ?_, ?_, rfl, ?_, fun _ => rfl⟩
    · rw [feed, if_neg hdigit, if_pos hnone]
      rfl
    · rw [expandRound, load_top, Option.bind_some]
      simp only [hindex, hc, if_neg hdigit, load_pop, Option.bind_eq_bind, Option.bind_some]
      rw [if_neg (show ¬(load i rest x).num ≠ [] from not_not.mpr hnone),
        load_put (show _ + 1 ≤ _ by omega), Option.bind_some]
    · rw [hout]
      show _ + spend c x.key.length rest x.num.length ≤ _
      omega
  · have hlength : x.num.length ≠ 0 := fun h => hnone (List.length_eq_zero_iff.mp h)
    rw [if_neg hlength] at hroom
    refine .inr ⟨x.write (ch '&' :: x.key ++ ascii "<=" ++ x.num ++ ascii ")"), ?_, ?_, rfl, ?_,
      fun _ => rfl⟩
    · rw [feed, if_neg hdigit, if_neg hnone]
    · rw [expandRound, load_top, Option.bind_some]
      simp only [hindex, hc, if_neg hdigit, load_pop, Option.bind_eq_bind, Option.bind_some]
      rw [if_pos (show (load i rest x).num ≠ [] from hnone)]
      have hroom' : x.out.length + (3 + x.key.length + x.num.length) + 1 ≤
          7 * exprShort.length := by omega
      have hupper := congrArg (fun r => Option.bind r fun e => some (Except.ok e : Except Text _))
        (put_upper i rest hroom')
      simpa only [Option.bind_eq_bind, Option.bind_assoc, Option.bind_some] using hupper
    · show (x.out ++ _).length + spend c x.key.length rest x.num.length ≤ _
      simp only [List.length_append, List.length_cons]
      show _ + (x.key.length + 1 + 2 + x.num.length + 1) +
        spend c x.key.length rest x.num.length ≤ _
      omega

theorem round_inStr (hc : exprShort[i]?.getD 0 = c)
    (hroom : x.out.length + spend c x.key.length (.inStr :: rest) x.num.length ≤
      7 * exprShort.length) :
    Ends exprShort i c (.inStr :: rest) x ∨ ∃ x', PassesTo exprShort i c .inStr rest x x' := by
  have hindex : (load i (.inStr :: rest) x).i = i := rfl
  have hle : (x.out.rdropWhile (· = ch ' ')).length ≤ x.out.length :=
    (List.rdropWhile_prefix _ _).length_le
  rw [spend] at hroom
  by_cases htext : c ≠ ch '~' ∧ c ≠ ch '!' ∧ c ≠ ch '|' ∧ c ≠ ch '(' ∧ c ≠ ch ')' ∧ c ≠ 0
  · left
    rw [Ends, feed, if_pos htext, expandRound, load_top, Option.bind_some]
    simp only [hindex, hc, Option.bind_eq_bind]
    rw [if_pos htext, load_put (by rw [List.length_singleton]; omega)]
    rfl
  · have hlast : (load i (.inStr :: rest) {x with out := x.out.rdropWhile (· = ch ' ')}).put
        exprShort (ascii "*\"") = some (load i (.inStr :: rest)
          {x with out := x.out.rdropWhile (· = ch ' ') ++ ascii "*\""}) :=
      load_put (show (x.out.rdropWhile (· = ch ' ')).length + 2 ≤ _ by omega)
    refine .inr ⟨{x with out := x.out.rdropWhile (· = ch ' ') ++ ascii "*\""}, ?_, ?_, rfl, ?_,
      fun _ => rfl⟩
    · rw [feed, if_neg htext]
    · rw [expandRound, load_top, Option.bind_some]
      simp only [hindex, hc, Option.bind_eq_bind]
      rw [if_neg htext]
      refine (congrArg (fun e => Option.bind e fun e =>
        Option.bind e.pop fun e => some (Except.ok e)) hlast).trans ?_
      rw [Option.bind_some, load_pop, Option.bind_some]
    · rw [List.length_append]
      show _ + 2 + spend c x.key.length rest x.num.length ≤ _
      omega

/-- A character read by the machine, from any stack that occurs. -/
theorem feed_leads (hi : i ≤ exprShort.length) (hc : exprShort[i]?.getD 0 = c)
    (stack : List ExpandState) (x : Scratch) (hstack : stack ∈ stackShapes)
    (hprev : .inQuoteStr ∈ stack → x.prev = exprShort[i - 1]?.getD 0)
    (hroom : x.out.length + spend c x.key.length stack x.num.length ≤ 7 * exprShort.length)
    (hnum : isDigit c = true → x.num.length < exprShort.length) :
    Leads exprShort (load i stack x) ((feed stack x c).map fun r => load (i + 1) r.1 r.2) := by
  induction stack generalizing x with
  | nil => simp [stackShapes] at hstack
  | cons state rest ih =>
    have hlen := stackShapes_length _ hstack
    rw [List.length_cons] at hlen
    -- the states that pass the character on
    have hpass : ∀ state' x₁, state ≠ .top → x₁.prev = x.prev → x₁.num = x.num →
        (Ends exprShort i c (state' :: rest) x₁ ∨
          ∃ x', PassesTo exprShort i c state' rest x₁ x') →
        Leads exprShort (load i (state' :: rest) x₁)
          ((feed (state' :: rest) x₁ c).map fun r => load (i + 1) r.1 r.2) := by
      intro state' x₁ htop hprev₁ hnum₁ hround
      obtain hend | ⟨x', hpass⟩ := hround
      · exact .last hi hend
      · rw [hpass.feeds]
        refine .pass hi hpass.round
          (ih x' (stackShapes_below hstack htop) (fun h => ?_) hpass.room fun h => ?_)
        · exact (hpass.prev.trans hprev₁).trans (hprev (List.mem_cons_of_mem _ h))
        · rw [hpass.digits h, hnum₁]
          exact hnum h
    cases state with
    | skipSpace => exact hpass _ x (fun h => by cases h) rfl rfl (round_skipSpace hc hroom)
    | top => exact .last hi (round_top hc (by omega) hroom)
    | expectKey => exact .last hi (round_expectKey hc (by omega) hroom)
    | expectInt => exact .last hi (round_expectInt hc hroom hnum)
    | expectStr => exact .last hi (round_expectStr hc hroom)
    | inQuoteStr => exact .last hi (round_inQuoteStr hc (hprev (.head _)) hroom)
    | expectOp =>
      obtain ⟨x₁, hfeed, hround, hprev₁, hnum₁, hroom₁⟩ := round_expectOp hc hroom
      rw [hfeed]
      exact .pass hi hround
        (hpass _ x₁ (fun h => by cases h) hprev₁ hnum₁ (round_skipSpace hc hroom₁))
    | inInt => exact hpass _ x (fun h => by cases h) rfl rfl (round_inInt hc hroom)
    | memInt => exact hpass _ x (fun h => by cases h) rfl rfl (round_memInt hc hroom hnum)
    | in2ndInt => exact hpass _ x (fun h => by cases h) rfl rfl (round_in2ndInt hc hroom hnum)
    | inStr => exact hpass _ x (fun h => by cases h) rfl rfl (round_inStr hc hroom)

end

end GracefulMusic.Expr
