import GracefulMusic.Commands.Table
import GracefulMusic.Foundation.Blocks

/-! The arguments of a command (`command_mode.c`).

An argument is one or more parts, each in its own kind of quotes. The scanners of quoted
and escaped parts go over a part twice, once for its size and once to copy it. `none` is a
run that writes outside of what it allocated or does not end; errors carry their
message, if there is one. -/
namespace GracefulMusic.Commands
open Memory

def doubleQuote : UInt8 := ch '"'

def singleQuote : UInt8 := ch '\''

def backslash : UInt8 := ch '\\'

/-- A string copied into a new buffer of `size` bytes, with its terminator. -/
def copied (size : Nat) (s : Text) : Option Text := if s.length + 1 ≤ size then some s else none

/-- The bytes up to the closing quote, and with it. -/
def quotedSize : Text → Option Nat
  | [] => none
  | c :: str =>
    if c = doubleQuote then some 1
    else if c = backslash then
      match str with
      | [] => none
      | _ :: str => (quotedSize str).map (· + 2)
    else (quotedSize str).map (· + 1)

def quotedCopy : Text → Text
  | [] => []
  | c :: str =>
    if c = doubleQuote then []
    else if c = backslash then
      match str with
      | [] => []
      | c :: str =>
        if c ≠ doubleQuote ∧ c ≠ backslash then backslash :: c :: quotedCopy str
        else c :: quotedCopy str
    else c :: quotedCopy str

/-- `parse_quoted`, behind the opening quote. -/
def parseQuoted (str : Text) : Option (Except Text (Text × Text)) :=
  match quotedSize str with
  | none => some (.error (ascii "`\"' expected"))
  | some size => (copied size (quotedCopy str)).map fun part => .ok (part, str.drop size)

def endsEscaped (c : UInt8) : Bool := c = ch ' ' ∨ c = singleQuote ∨ c = doubleQuote

def escapedSize : Text → Nat
  | [] => 0
  | c :: str =>
    if endsEscaped c then 0
    else if c = backslash then
      match str with
      | [] => 1
      | _ :: str => escapedSize str + 2
    else escapedSize str + 1

def escapedCopy : Text → Text
  | [] => []
  | c :: str =>
    if endsEscaped c then []
    else if c = backslash then
      match str with
      | [] => [backslash]
      | c :: str => c :: escapedCopy str
    else c :: escapedCopy str

def parseEscaped (str : Text) : Option (Text × Text) :=
  (copied (escapedSize str + 1) (escapedCopy str)).map fun part => (part, str.drop (escapedSize str))

/-- A round of `parse_one`: a part that begins with `c`. -/
def parsePart (c : UInt8) (str : Text) : Option (Except Text (Text × Text)) :=
  if c = doubleQuote then parseQuoted str
  else if c = singleQuote then
    -- backslashes are normal chars inside single-quotes
    match str.dropWhile (· ≠ singleQuote) with
    | [] => some (.error (ascii "`'' expected"))
    | _ :: behind => some (.ok (str.takeWhile (· ≠ singleQuote), behind))
  else (parseEscaped (c :: str)).map .ok

/-- `ret` is null as long as there is no part. -/
def parseOneLoop : Nat → Text → Option Text → Option (Except Text (Option Text × Text))
  | 0, _, _ => none
  | _ + 1, [], ret => some (.ok (ret, []))
  | fuel + 1, c :: str, ret =>
    if c = ch ' ' then some (.ok (ret, c :: str))
    else
      (parsePart c str).bind fun
        | .error message => some (.error message)
        | .ok (part, str) => parseOneLoop fuel str (some (ret.getD [] ++ part))

def parseOne (str : Text) : Option (Except Text (Option Text × Text)) :=
  parseOneLoop (str.length + 1) str none

/-- Whether `{}` comes next, as a word of its own. -/
def isPlaceholder (cmd : Text) : Bool :=
  cmd.take 2 = ascii "\x7b\x7d" ∧ (cmd.length = 2 ∨ cmd[2]? = some (ch ' '))

def parseCmdLoop : Nat → Text → Growing (Option Text) → Option Nat →
    Option (Except (Option Text) (Growing (Option Text) × Option Nat))
  | 0, _, _, _ => none
  | fuel + 1, cmd, av, argsIdx =>
    if cmd = [] then some (.ok (av, argsIdx))
    else if isPlaceholder cmd then
      -- \x7b\x7d is replaced with file arguments
      if argsIdx.isSome then some (.error (some (ascii "\x7b\x7d can be used only once")))
      else parseCmdLoop fuel (skipSpaces (cmd.drop 2)) av (some av.nr)
    else
      (parseOne cmd).bind fun
        | .error message => some (.error (some message))
        | .ok (none, _) => some (.error none)
        | .ok (some arg, cmd) =>
          (av.push 4 1 (some arg)).bind fun av => parseCmdLoop fuel (skipSpaces cmd) av argsIdx

/-- What `parse_cmd` returns and stores. -/
structure Parsed where
  av : Block (Option Text)
  argsIdx : Option Nat
  ac : Nat

def parseCmd (cmd : Text) : Option (Except (Option Text) Parsed) :=
  (parseCmdLoop (cmd.length + 1) cmd .empty none).bind fun
    | .error message => some (.error message)
    | .ok (av, argsIdx) => (av.block.write av.nr none).map fun block => .ok ⟨block, argsIdx, av.nr⟩

/-! ### What a command says -/

inductive Word where
  | arg (arg : Text)
  | files
  deriving DecidableEq

/-- The words of a command. -/
inductive Reads : Text → List Word → Prop where
  | done : Reads [] []
  | files {cmd : Text} {words : List Word} (h : isPlaceholder cmd = true)
    (hrest : Reads (skipSpaces (cmd.drop 2)) words) : Reads cmd (.files :: words)
  | arg {cmd arg rest : Text} {words : List Word} (h : isPlaceholder cmd = false)
    (harg : parseOne cmd = some (.ok (some arg, rest))) (hrest : Reads (skipSpaces rest) words) :
    Reads cmd (.arg arg :: words)

def arguments (words : List Word) : List Text := words.filterMap fun
  | .arg a => some a
  | .files => none

/-- The arguments with their terminator, and the place of the placeholder among them. -/
structure Parsed.Of (p : Parsed) (words : List Word) : Prop where
  av : p.av.Starts ((arguments words).map some ++ [none])
  ac : p.ac = (arguments words).length
  argsIdx : p.argsIdx = words.findIdx? (· = .files)

/-! ### Parts -/

/-- The copy fits, and there is something behind it at most. -/
theorem quotedSize_spec {str : Text} {size : Nat} (h : quotedSize str = some size) :
    (quotedCopy str).length + 1 ≤ size ∧ size ≤ str.length := by
  fun_induction quotedSize str generalizing size with
  | case1 => cases h
  | case2 str =>
    cases h
    rw [quotedCopy.eq_def]
    simp
  | case3 hc => cases h
  | case4 d str hc ih =>
    obtain ⟨n, hn, rfl⟩ := Option.map_eq_some_iff.mp h
    have hle := ih hn
    rw [quotedCopy.eq_def]
    simp only [if_neg hc, if_true, List.length_cons]
    split
    · simp only [List.length_cons]
      omega
    · simp only [List.length_cons]
      omega
  | case5 c str hc hb ih =>
    obtain ⟨n, hn, rfl⟩ := Option.map_eq_some_iff.mp h
    have hle := ih hn
    rw [quotedCopy.eq_def]
    simp only [if_neg hc, if_neg hb, List.length_cons]
    omega

theorem escapedSize_spec (str : Text) :
    (escapedCopy str).length ≤ escapedSize str ∧ escapedSize str ≤ str.length := by
  fun_induction escapedSize str with
  | case1 => simp [escapedCopy]
  | case2 c str hc =>
    rw [escapedCopy.eq_def]
    simp [hc]
  | case3 hc => 
    rw [escapedCopy.eq_def]
    simp [hc]
  | case4 d str hc ih =>
    rw [escapedCopy.eq_def]
    simp only [if_neg hc, if_true, List.length_cons]
    omega
  | case5 c str hc hb ih =>
    rw [escapedCopy.eq_def]
    simp [hc, hb]
    omega

theorem copied_of_le {size : Nat} {s : Text} (h : s.length + 1 ≤ size) : copied size s = some s :=
  if_pos h

/-- A part ends, and takes at least its first byte. -/
theorem parsePart_spec {c : UInt8} (hc : c ≠ ch ' ') (str : Text) :
    (∃ message, parsePart c str = some (.error message)) ∨
      ∃ part rest, parsePart c str = some (.ok (part, rest)) ∧ rest.length ≤ str.length := by
  unfold parsePart
  by_cases hq : c = doubleQuote
  · rw [if_pos hq, parseQuoted]
    cases hsize : quotedSize str with
    | none => exact .inl ⟨_, rfl⟩
    | some size =>
      refine .inr ⟨quotedCopy str, str.drop size, ?_, by simp⟩
      simp only [copied_of_le (quotedSize_spec hsize).1, Option.map_some]
  · rw [if_neg hq]
    by_cases hs : c = singleQuote
    · rw [if_pos hs]
      rcases hd : str.dropWhile (· ≠ singleQuote) with _ | ⟨d, behind⟩
      · exact .inl ⟨_, rfl⟩
      · refine .inr ⟨_, behind, rfl, ?_⟩
        have hle := (List.dropWhile_sublist (· ≠ singleQuote) (l := str)).length_le
        rw [hd, List.length_cons] at hle
        omega
    · rw [if_neg hs, parseEscaped, copied_of_le (by have := (escapedSize_spec (c :: str)).1; omega)]
      refine .inr ⟨_, _, rfl, ?_⟩
      have hends : endsEscaped c = false := by
        simpa [endsEscaped] using And.intro hc (And.intro hs hq)
      have hpos : 1 ≤ escapedSize (c :: str) := by
        rw [escapedSize.eq_def]
        simp only [hends, Bool.false_eq_true, if_false]
        split
        · split
          · exact Nat.le_refl 1
          · omega
        · omega
      rw [List.length_drop, List.length_cons]
      omega

theorem parseOneLoop_spec (fuel : Nat) (str : Text) (hfuel : str.length < fuel)
    (ret : Option Text) :
    (∃ message, parseOneLoop fuel str ret = some (.error message)) ∨
      ∃ ret' rest, parseOneLoop fuel str ret = some (.ok (ret', rest)) ∧
        rest.length ≤ str.length ∧ (ret.isSome → ret'.isSome) := by
  induction fuel generalizing str ret with
  | zero => cases hfuel
  | succ fuel ih =>
    cases str with
    | nil => exact .inr ⟨ret, [], rfl, Nat.le_refl _, id⟩
    | cons c str =>
      rw [parseOneLoop]
      by_cases hc : c = ch ' '
      · exact .inr ⟨ret, c :: str, if_pos hc, Nat.le_refl _, id⟩
      · rw [if_neg hc]
        obtain ⟨message, hpart⟩ | ⟨part, rest, hpart, hle⟩ := parsePart_spec hc str
        · exact .inl ⟨message, by rw [hpart]; rfl⟩
        · rw [List.length_cons] at hfuel
          simp only [hpart, Option.bind_some]
          obtain herr | ⟨ret', rest', hrun, hle', hsome⟩ :=
            ih rest (by omega) (some (ret.getD [] ++ part))
          · exact .inl herr
          · exact .inr ⟨ret', rest', hrun, by rw [List.length_cons]; omega, fun _ => hsome rfl⟩

/-- An argument ends, and takes at least its first byte. -/
theorem parseOne_spec {c : UInt8} (hc : c ≠ ch ' ') (str : Text) :
    (∃ message, parseOne (c :: str) = some (.error message)) ∨
      ∃ arg rest, parseOne (c :: str) = some (.ok (some arg, rest)) ∧
        rest.length < (c :: str).length := by
  rw [parseOne, parseOneLoop, if_neg hc]
  obtain ⟨message, hpart⟩ | ⟨part, rest, hpart, hle⟩ := parsePart_spec hc str
  · exact .inl ⟨message, by rw [hpart]; rfl⟩
  · simp only [hpart, Option.bind_some]
    obtain herr | ⟨ret', rest', hrun, hle', hsome⟩ :=
      parseOneLoop_spec (c :: str).length rest (by rw [List.length_cons]; omega)
        (some (Option.getD none [] ++ part))
    · exact .inl herr
    · obtain ⟨arg, rfl⟩ := Option.isSome_iff_exists.mp (hsome rfl)
      exact .inr ⟨arg, rest', hrun, by rw [List.length_cons]; omega⟩

/-! ### The loop -/

theorem skipSpaces_length (cmd : Text) : (skipSpaces cmd).length ≤ cmd.length :=
  (List.dropWhile_sublist _).length_le

theorem skipSpaces_head (cmd : Text) : (skipSpaces cmd).head? ≠ some (ch ' ') := by
  have h := List.head?_dropWhile_not (· = ch ' ') cmd
  intro hhead
  rw [skipSpaces] at hhead
  rw [hhead] at h
  simp at h

theorem skipSpaces_of_head {t : Text} (h : t.head? ≠ some (ch ' ')) : skipSpaces t = t := by
  cases t with
  | nil => rfl
  | cons c t =>
    rw [skipSpaces, List.dropWhile_cons_of_neg]
    simpa using h

theorem arguments_arg (a : Text) (words : List Word) :
    arguments (.arg a :: words) = a :: arguments words := rfl

/-- Where the loop does not report an error, it has read words: the arguments are behind
those it began with, and the placeholder, seen before or not, only once. -/
theorem parseCmdLoop_spec (fuel : Nat) (cmd : Text) (hfuel : cmd.length < fuel)
    (hcmd : cmd.head? ≠ some (ch ' ')) {av : Growing (Option Text)} (args : List Text)
    (hav : av.Holds 4 1 (args.map some)) (argsIdx : Option Nat) :
    (∃ message, parseCmdLoop fuel cmd av argsIdx = some (.error (some message))) ∨
      ∃ av' argsIdx' words, parseCmdLoop fuel cmd av argsIdx = some (.ok (av', argsIdx')) ∧
        Reads cmd words ∧ av'.Holds 4 1 ((args ++ arguments words).map some) ∧
        (argsIdx.isSome → .files ∉ words) ∧ argsIdx' =
          argsIdx.or ((words.findIdx? (· = .files)).map (args.length + ·)) ∧
        (words.count .files ≤ 1) := by
  induction fuel generalizing cmd av args argsIdx with
  | zero => cases hfuel
  | succ fuel ih =>
    rw [parseCmdLoop]
    cases cmd with
    | nil =>
      refine .inr ⟨av, argsIdx, [], if_pos rfl, .done, ?_, fun _ => List.not_mem_nil, ?_, by simp⟩
      · simpa [arguments] using hav
      · simp
    | cons c str =>
      rw [if_neg (List.cons_ne_nil c str)]
      have hc : c ≠ ch ' ' := fun h => hcmd (by rw [h]; rfl)
      by_cases hplace : isPlaceholder (c :: str) = true
      · rw [if_pos hplace]
        cases argsIdx with
        | some idx => exact .inl ⟨_, rfl⟩
        | none =>
          have hlen := skipSpaces_length ((c :: str).drop 2)
          rw [List.length_drop] at hlen
          obtain herr | ⟨av', argsIdx', words, hrun, hreads, hholds, hfiles, hidx, hcount⟩ :=
            ih (skipSpaces ((c :: str).drop 2)) (by rw [List.length_cons] at hlen hfuel; omega)
              (skipSpaces_head _) args hav (some av.nr)
          · exact .inl herr
          · refine .inr ⟨av', argsIdx', .files :: words, hrun, .files hplace hreads, hholds, nofun,
              ?_, ?_⟩
            · rw [hidx, hav.nr, List.findIdx?_cons, if_pos (by simp), List.length_map]
              rfl
            · rw [List.count_cons_self, List.count_eq_zero_of_not_mem (hfiles rfl)]
      · rw [if_neg hplace]
        obtain ⟨message, hone⟩ | ⟨arg, rest, hone, hlt⟩ := parseOne_spec hc str
        · exact .inl ⟨message, by rw [hone]; rfl⟩
        · obtain ⟨av₁, hpush, hav₁⟩ := hav.push (by decide) (some arg)
          simp only [hone, Option.bind_some, hpush]
          have hlen := skipSpaces_length rest
          rw [show args.map some ++ [some arg] = (args ++ [arg]).map some by simp] at hav₁
          obtain herr | ⟨av', argsIdx', words, hrun, hreads, hholds, hfiles, hidx, hcount⟩ :=
            ih (skipSpaces rest) (by omega) (skipSpaces_head _) (args ++ [arg]) hav₁ argsIdx
          · exact .inl herr
          · refine .inr ⟨av', argsIdx', .arg arg :: words, hrun,
              .arg (Bool.eq_false_of_not_eq_true hplace) hone hreads, ?_, ?_, ?_, ?_⟩
            · rwa [arguments_arg, List.append_cons]
            · simpa using hfiles
            · rw [hidx, List.findIdx?_cons, if_neg (by simp), Option.map_map, List.length_append,
                List.length_singleton]
              congr 2
              funext n
              simp only [Function.comp_apply]
              omega
            · rwa [List.count_cons_of_ne (by simp)]

/-- The words of a command with nothing but a placeholder. -/
theorem arguments_eq_nil {words : List Word} (hargs : arguments words = [])
    (hcount : words.count .files ≤ 1) : words = [] ∨ words = [.files] := by
  cases words with
  | nil => exact .inl rfl
  | cons w words =>
    cases w with
    | arg a => cases hargs
    | files =>
      cases words with
      | nil => exact .inr rfl
      | cons w words =>
        cases w with
        | arg a => cases hargs
        | files => simp at hcount

/-- There is an argument. -/
def HasArgument (cmd : Text) : Prop :=
  cmd ≠ [] ∧ ¬(isPlaceholder cmd = true ∧ skipSpaces (cmd.drop 2) = [])

instance (cmd : Text) : Decidable (HasArgument cmd) := by
  unfold HasArgument
  infer_instance

/-- An error with its message, or the arguments. -/
def Parses (cmd : Text) : Prop :=
  (∃ message, parseCmd cmd = some (.error (some message))) ∨
    ∃ p words, parseCmd cmd = some (.ok p) ∧ Reads cmd words ∧ p.Of words

/-- Without an argument there is no array that the terminator could be written to. -/
theorem parseCmd_of_not_hasArgument {cmd : Text} (h : ¬HasArgument cmd) : parseCmd cmd = none := by
  unfold HasArgument at h
  by_cases hnil : cmd = []
  · rw [hnil]
    rfl
  · obtain ⟨hplace, hrest⟩ : isPlaceholder cmd = true ∧ skipSpaces (cmd.drop 2) = [] :=
      not_not.mp fun hno => h ⟨hnil, hno⟩
    obtain ⟨c, str, rfl⟩ := List.exists_cons_of_ne_nil hnil
    rw [parseCmd, List.length_cons, parseCmdLoop, if_neg hnil, if_pos hplace, hrest]
    rfl

theorem parseCmd_spec {cmd : Text} (hcmd : cmd.head? ≠ some (ch ' ')) (h : HasArgument cmd) :
    Parses cmd := by
  obtain ⟨message, herr⟩ | ⟨av, argsIdx, words, hrun, hreads, hholds, -, hidx, hcount⟩ :=
    parseCmdLoop_spec (cmd.length + 1) cmd (Nat.lt_succ_self _) hcmd [] Growing.holds_empty none
  · exact .inl ⟨message, by rw [parseCmd, herr]; rfl⟩
  · rw [List.nil_append] at hholds
    have hargs : (arguments words).map some ≠ [] := by
      intro hnone
      obtain rfl | rfl := arguments_eq_nil (List.map_eq_nil_iff.mp hnone) hcount
      · cases hreads
        exact h.1 rfl
      · cases hreads with
        | files hplace hrest =>
          cases hrest' : skipSpaces (cmd.drop 2) with
          | nil => exact h.2 ⟨hplace, hrest'⟩
          | cons c str =>
            rw [hrest'] at hrest
            cases hrest
    obtain ⟨b, hb, hstarts, -⟩ :=
      hholds.starts.write (hholds.room_iff.mpr ⟨hargs, .inl (by decide)⟩) none
    refine .inr ⟨⟨b, argsIdx, av.nr⟩, words, ?_, hreads, hstarts, ?_, ?_⟩
    · rw [parseCmd, hrun, Option.bind_some]
      show (av.block.write av.nr none).map _ = _
      rw [hholds.nr, hb]
      rfl
    · exact hholds.nr.trans (List.length_map _)
    · rw [hidx]
      simp

/-! ### Quoting -/

/-- A byte between double quotes. -/
def escapeByte (c : UInt8) : Text := if c = doubleQuote ∨ c = backslash then [backslash, c] else [c]

def quote (arg : Text) : Text := doubleQuote :: (arg.flatMap escapeByte ++ [doubleQuote])

def commandLine (args : List Text) : Text := List.intercalate [ch ' '] (args.map quote)

theorem quotedSize_end (rest : Text) : quotedSize (doubleQuote :: rest) = some 1 := by
  rw [quotedSize.eq_def]
  simp

theorem quotedSize_backslash (c : UInt8) (rest : Text) :
    quotedSize (backslash :: c :: rest) = (quotedSize rest).map (· + 2) := by
  rw [quotedSize.eq_def]
  simp [backslash, doubleQuote]
  decide

theorem quotedSize_plain {c : UInt8} (hc : ¬(c = doubleQuote ∨ c = backslash)) (rest : Text) :
    quotedSize (c :: rest) = (quotedSize rest).map (· + 1) := by
  obtain ⟨hq, hb⟩ := not_or.mp hc
  rw [quotedSize.eq_def]
  simp [hq, hb]

theorem quotedCopy_end (rest : Text) : quotedCopy (doubleQuote :: rest) = [] := by
  rw [quotedCopy.eq_def]
  simp

theorem quotedCopy_backslash {c : UInt8} (hc : c = doubleQuote ∨ c = backslash) (rest : Text) :
    quotedCopy (backslash :: c :: rest) = c :: quotedCopy rest := by
  rw [quotedCopy.eq_def]
  obtain rfl | rfl := hc
  · simp [backslash, doubleQuote]
    decide
  · simp [backslash, doubleQuote]
    decide

theorem quotedCopy_plain {c : UInt8} (hc : ¬(c = doubleQuote ∨ c = backslash)) (rest : Text) :
    quotedCopy (c :: rest) = c :: quotedCopy rest := by
  obtain ⟨hq, hb⟩ := not_or.mp hc
  rw [quotedCopy.eq_def]
  simp [hq, hb]

/-- The scanners on an argument in quotes. -/
theorem quoted_escaped (arg rest : Text) :
    quotedSize (arg.flatMap escapeByte ++ doubleQuote :: rest) =
      some ((arg.flatMap escapeByte).length + 1) ∧
    quotedCopy (arg.flatMap escapeByte ++ doubleQuote :: rest) = arg := by
  induction arg with
  | nil => exact ⟨quotedSize_end rest, quotedCopy_end rest⟩
  | cons c arg ih =>
    rw [List.flatMap_cons, List.append_assoc, List.length_append]
    by_cases hc : c = doubleQuote ∨ c = backslash
    · rw [escapeByte, if_pos hc]
      refine ⟨?_, ?_⟩
      · rw [List.cons_append, List.singleton_append, quotedSize_backslash, ih.1, Option.map_some,
          List.length_cons, List.length_singleton]
        congr 1
        omega
      · rw [List.cons_append, List.singleton_append, quotedCopy_backslash hc, ih.2]
    · rw [escapeByte, if_neg hc]
      refine ⟨?_, ?_⟩
      · rw [List.singleton_append, quotedSize_plain hc, ih.1, Option.map_some,
          List.length_singleton]
        congr 1
        omega
      · rw [List.singleton_append, quotedCopy_plain hc, ih.2]

theorem parsePart_quote (arg rest : Text) :
    parsePart doubleQuote (arg.flatMap escapeByte ++ doubleQuote :: rest) =
      some (.ok (arg, rest)) := by
  obtain ⟨hsize, hcopy⟩ := quoted_escaped arg rest
  have hcopied := copied_of_le (quotedSize_spec hsize).1
  have hdrop : (arg.flatMap escapeByte ++ doubleQuote :: rest).drop
      ((arg.flatMap escapeByte).length + 1) = rest := by
    rw [List.append_cons]
    exact List.drop_left' (by simp)
  rw [hcopy] at hcopied
  simp only [parsePart, if_true, parseQuoted, hsize, hcopy, hcopied, Option.map_some, hdrop]

/-- One argument, up to the space behind it. -/
theorem parseOne_quote (arg : Text) {rest : Text} (hrest : rest = [] ∨ rest.head? = some (ch ' ')) :
    parseOne (quote arg ++ rest) = some (.ok (some arg, rest)) := by
  have hstop : ∀ fuel, parseOneLoop (fuel + 1) rest (some arg) = some (.ok (some arg, rest)) := by
    intro fuel
    cases rest with
    | nil => rfl
    | cons c rest =>
      obtain h | h := hrest
      · cases h
      · exact if_pos (Option.some.inj h)
  rw [quote, List.cons_append, List.append_assoc, List.singleton_append, parseOne, List.length_cons,
    parseOneLoop, if_neg (by decide), parsePart_quote]
  show parseOneLoop _ rest (some ([] ++ arg)) = _
  rw [List.nil_append, List.length_append, List.length_cons]
  exact hstop _

theorem commandLine_cons (arg : Text) (args : List Text) : ∃ rest,
    commandLine (arg :: args) = quote arg ++ rest ∧
      (rest = [] ∨ rest.head? = some (ch ' ')) ∧ skipSpaces rest = commandLine args := by
  cases args with
  | nil => exact ⟨[], by simp [commandLine], .inl rfl, rfl⟩
  | cons b args =>
    refine ⟨ch ' ' :: commandLine (b :: args), ?_, .inr rfl, ?_⟩
    · simp [commandLine, List.intercalate]
    · have hhead : ∃ tail, commandLine (b :: args) = doubleQuote :: tail := by
        cases args with
        | nil => exact ⟨_, by simp [commandLine, quote]; rfl⟩
        | cons c args => exact ⟨_, by simp [commandLine, quote, List.intercalate]; rfl⟩
      obtain ⟨tail, htail⟩ := hhead
      rw [htail, skipSpaces, List.dropWhile_cons_of_pos (by decide),
        List.dropWhile_cons_of_neg (by decide)]

theorem parseCmdLoop_quoted (args : List Text) (fuel : Nat)
    (hfuel : (commandLine args).length < fuel) {av : Growing (Option Text)} (before : List Text)
    (hav : av.Holds 4 1 (before.map some)) :
    ∃ av', parseCmdLoop fuel (commandLine args) av none = some (.ok (av', none)) ∧
      av'.Holds 4 1 ((before ++ args).map some) := by
  induction args generalizing fuel av before with
  | nil =>
    obtain ⟨fuel, rfl⟩ := Nat.exists_eq_succ_of_ne_zero (Nat.ne_of_gt (Nat.zero_lt_of_lt hfuel))
    exact ⟨av, if_pos rfl, by rwa [List.append_nil]⟩
  | cons arg args ih =>
    obtain ⟨fuel, rfl⟩ := Nat.exists_eq_succ_of_ne_zero (Nat.ne_of_gt (Nat.zero_lt_of_lt hfuel))
    obtain ⟨rest, hline, hrest, hskip⟩ := commandLine_cons arg args
    have hlen := skipSpaces_length rest
    rw [hskip] at hlen
    obtain ⟨av₁, hpush, hav₁⟩ := hav.push (by decide) (some arg)
    rw [show before.map some ++ [some arg] = (before ++ [arg]).map some by simp] at hav₁
    have hquote : quote arg ++ rest =
        doubleQuote :: (arg.flatMap escapeByte ++ [doubleQuote] ++ rest) := rfl
    rw [hline, List.length_append, quote, List.length_cons] at hfuel
    obtain ⟨av', hrun, hholds⟩ := ih fuel (by omega) (before ++ [arg]) hav₁
    refine ⟨av', ?_, by rwa [List.append_cons]⟩
    rw [hline, parseCmdLoop, if_neg (by rw [hquote]; exact List.cons_ne_nil _ _), if_neg,
      parseOne_quote arg hrest]
    · show (av.push 4 1 (some arg)).bind _ = _
      rw [hpush, Option.bind_some, hskip, hrun]
    · rw [hquote]
      simp [isPlaceholder, doubleQuote, ascii, ch]

/-- Arguments in quotes are those arguments, and any command with an argument is parsed or
reported. -/
theorem parse_cmd_arguments (args : List Text) (cmd : Text) :
    (args ≠ [] → (∀ a ∈ args, a ≠ []) →
      ∃ p, parseCmd (commandLine args) = some (.ok p) ∧ p.Of (args.map .arg)) ∧
    (cmd.head? ≠ some (ch ' ') → (Parses cmd ↔ HasArgument cmd)) := by
  refine ⟨fun hargs _ => ?_, fun hcmd => ⟨fun h => ?_, parseCmd_spec hcmd⟩⟩
  · obtain ⟨av, hrun, hholds⟩ := parseCmdLoop_quoted args ((commandLine args).length + 1)
      (Nat.lt_succ_self _) [] Growing.holds_empty
    rw [List.nil_append] at hholds
    obtain ⟨b, hb, hstarts, -⟩ := hholds.starts.write
      (hholds.room_iff.mpr ⟨fun h => hargs (List.map_eq_nil_iff.mp h), .inl (by decide)⟩) none
    have harguments : arguments (args.map .arg) = args := by
      rw [arguments, List.filterMap_map]
      exact List.filterMap_some
    refine ⟨⟨b, none, av.nr⟩, ?_, ?_, ?_, ?_⟩
    · rw [parseCmd, hrun, Option.bind_some]
      show (av.block.write av.nr none).map _ = _
      rw [hholds.nr, hb]
      rfl
    · rwa [harguments]
    · rw [harguments]
      exact hholds.nr.trans (List.length_map _)
    · refine (List.findIdx?_eq_none_iff.mpr fun w hw => ?_).symm
      obtain ⟨a, -, rfl⟩ := List.mem_map.mp hw
      rfl
  · by_contra hno
    have hnone := parseCmd_of_not_hasArgument hno
    obtain ⟨message, herr⟩ | ⟨p, words, hok, -⟩ := h
    · rw [hnone] at herr
      cases herr
    · rw [hnone] at hok
      cases hok

/-- A command of nothing but the placeholder. -/
theorem parse_cmd_placeholder :
    (ascii "\x7b\x7d").head? ≠ some (ch ' ') ∧ ¬Parses (ascii "\x7b\x7d") := by
  refine ⟨by decide, ?_⟩
  have hnone : parseCmd (ascii "\x7b\x7d") = none := by decide +kernel
  rintro (⟨message, herr⟩ | ⟨p, words, hok, -⟩)
  · rw [hnone] at herr
    cases herr
  · rw [hnone] at hok
    cases hok

theorem parse_cmd_arguments_rm :
    (∃ p, parseCmd (commandLine [ascii "rm", ascii "a b\\"]) = some (.ok p) ∧
      p.Of ([ascii "rm", ascii "a b\\"].map .arg)) ∧
    Parses (ascii "cp \x7b\x7d '/mnt'\\ x\"y\"") :=
  ⟨(parse_cmd_arguments [ascii "rm", ascii "a b\\"] []).1 (by decide) (by decide),
    ((parse_cmd_arguments [] (ascii "cp \x7b\x7d '/mnt'\\ x\"y\"")).2 (by decide)).mpr (by decide)⟩

end GracefulMusic.Commands
