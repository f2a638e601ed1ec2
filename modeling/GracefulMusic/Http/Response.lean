import GracefulMusic.Foundation.Frames
import GracefulMusic.Foundation.Sequence
import GracefulMusic.Urls.Strings

/-! Scanning of strings (`http.c`).

A pointer into a string is the suffix it points at, and of two pointers into the same string
the later one has the shorter suffix. -/
namespace GracefulMusic.Http

def strchr (s : Text) (c : UInt8) : Option Text := if c ∈ s then some (s.dropWhile (· ≠ c)) else none

/-- `xstrndup(s, p - s)` -/
def upTo (s p : Text) : Text := s.take (s.length - p.length)

/-- The loop over digits, with the value in an `int`: undefined beyond. -/
def readNumber : Text → Nat → Option (Nat × Text)
  | [], n => some (n, [])
  | c :: str, n =>
    if isDigit c then
      let n := 10 * n + (c - ch '0').toNat
      if (n : Int) ≤ intMax then readNumber str n else none
    else some (n, c :: str)

variable {c : UInt8} {s t p : Text}

/-! ### Searching -/

theorem strchr_append (h : c ∉ s) (t : Text) : strchr (s ++ t) c = strchr t c := by
  rw [strchr, strchr, List.dropWhile_append_of_pos]
  · simp [h]
  · intro a ha
    simpa using fun hac : a = c => h (hac ▸ ha)

/-- Where a character is first found. -/
theorem strchr_split (h : c ∉ s) (t : Text) : strchr (s ++ c :: t) c = some (c :: t) := by
  rw [strchr_append h]
  simp [strchr]

theorem strchr_suffix (h : strchr s c = some p) : p <:+ s := by
  rw [strchr] at h
  split at h
  · cases h
    exact List.dropWhile_suffix _
  · cases h

@[simp] theorem upTo_append (s t : Text) : upTo (s ++ t) t = s := by
  simp [upTo]

theorem takeWhile_ne_self (h : c ∉ s) : s.takeWhile (· ≠ c) = s :=
  List.takeWhile_eq_self_iff.mpr fun a ha => by
    simpa using fun hac : a = c => h (hac ▸ ha)

theorem takeWhile_ne_append (h : c ∉ s) (t : Text) :
    (s ++ t).takeWhile (· ≠ c) = s ++ t.takeWhile (· ≠ c) :=
  List.takeWhile_append_of_pos fun a ha => by
    simpa using fun hac : a = c => h (hac ▸ ha)

/-- A string has one first `c`. -/
theorem split_unique {s' t' : Text} (h : c ∉ s) (h' : c ∉ s') (heq : s ++ c :: t = s' ++ c :: t') :
    s = s' ∧ t = t' := by
  have hfront := congrArg (List.takeWhile (· ≠ c)) heq
  rw [takeWhile_ne_append h, takeWhile_ne_append h'] at hfront
  have hs : s = s' := by simpa using hfront
  subst hs
  simpa using heq

/-! ### Numbers -/

/-- Digits in front of what does not begin with one. -/
theorem digits_append (ht : ∀ c ∈ t.head?, isDigit c = false) (p : Text) :
    (p ++ t).takeWhile isDigit = p.takeWhile isDigit ∧
      (p ++ t).dropWhile isDigit = p.dropWhile isDigit ++ t := by
  have hnot : t.takeWhile isDigit = [] ∧ t.dropWhile isDigit = t := by
    cases t with
    | nil => exact ⟨rfl, rfl⟩
    | cons c t => simp [ht c rfl]
  induction p with
  | nil => exact hnot
  | cons c p ih =>
    by_cases hc : isDigit c = true
    · simpa [hc] using ih
    · simp [hc]

theorem le_foldl_digits (s : Text) (n : Nat) :
    n ≤ s.foldl (fun n c => 10 * n + (c - ch '0').toNat) n := by
  induction s generalizing n with
  | nil => exact Nat.le_refl n
  | cons c s ih =>
    have := ih (10 * n + (c - ch '0').toNat)
    rw [List.foldl_cons]
    omega

theorem readNumber_foldl (s : Text) {n : Nat} (hn : (n : Int) ≤ intMax) :
    readNumber s n =
      let value := (s.takeWhile isDigit).foldl (fun n c => 10 * n + (c - ch '0').toNat) n
      if (value : Int) ≤ intMax then some (value, s.dropWhile isDigit) else none := by
  induction s generalizing n with
  | nil => simp [readNumber, hn]
  | cons c s ih =>
    by_cases hc : isDigit c = true
    · simp only [readNumber, hc, if_true, List.takeWhile_cons_of_pos, List.dropWhile_cons_of_pos,
        List.foldl_cons]
      split
      · rename_i hfits
        exact ih hfits
      · rename_i hover
        have hle := le_foldl_digits (s.takeWhile isDigit) (10 * n + (c - ch '0').toNat)
        rw [if_neg (by omega)]
    · simp [readNumber, hc, hn]

/-- The number in front, where it fits. -/
theorem readNumber_eq (s : Text) : readNumber s 0 =
    if (digitsValue (s.takeWhile isDigit) : Int) ≤ intMax then
      some (digitsValue (s.takeWhile isDigit), s.dropWhile isDigit)
    else none :=
  readNumber_foldl s (n := 0) (by decide)

end GracefulMusic.Http

/-! Responses to HTTP requests (`http.c`).

`http_read_response` takes bytes up to an empty line. `http_parse_response` goes over them as
over a string: a search stops at the first null byte, which the server may have sent. A pointer
is what the buffer holds from there on, with the terminator at its end. -/
namespace GracefulMusic.Http

/-! ### Reading -/

/-- The bytes that are read up to the end of a stream; `none` is an error. -/
def readLoop : Text → UInt8 → Text → Option Text
  | [], _, _ => none
  | c :: stream, prev, buf =>
    if c = ch '\r' then readLoop stream prev buf
    else if c = ch '\n' ∧ prev = ch '\n' then some buf
    else readLoop stream c (buf ++ [c])

def httpReadResponse (stream : Text) : Option Text := readLoop stream 0 []

/-! ### Parsing -/

inductive Fault where
  /-- A read behind the terminator. -/
  | outside
  /-- What a search did not find. -/
  | null
  /-- Of an `int`. -/
  | overflow
  /-- A loop that has not ended. -/
  | endless
  deriving DecidableEq

/-- -2, or what is set. -/
inductive Answer where
  | refused
  | parsed (code : Nat) (reason : Text) (headers : List (Text × Text))
  deriving DecidableEq

/-- `strchr`, which does not look behind a null byte. -/
def search (c : UInt8) : Text → Except Fault (Option Text)
  | [] => .error .outside
  | d :: str =>
    if d = c then .ok (some (d :: str)) else if d = 0 then .ok none else search c str

/-- To the first space of the line. -/
def toSpace : Text → Except Fault (Option Text)
  | [] => .error .outside
  | c :: str =>
    if c = ch ' ' then .ok (some (c :: str)) else if c = ch '\n' then .ok none else toSpace str

def skipBlanks : Text → Except Fault Text
  | [] => .error .outside
  | c :: str => if c = ch ' ' then skipBlanks str else .ok (c :: str)

def readCode (str : Text) : Except Fault (Nat × Text) :=
  match readNumber str 0 with
  | none => .error .overflow
  | some (_, []) => .error .outside
  | some (code, c :: str) => .ok (code, c :: str)

/-- Behind the protocol. -/
def skipProtocol (str : Text) : Except Fault (Option Text) :=
  if (ascii "HTTP/").isPrefixOf str then toSpace (str.drop 5)
  else if (ascii "ICY").isPrefixOf str then .ok (some (str.drop 3))
  else .ok none

/-- `none` is -2. -/
def parseHeaders : Nat → Text → Except Fault (Option (List (Text × Text)))
  | 0, _ => .error .endless
  | _ + 1, [] => .error .outside
  | fuel + 1, c :: rest =>
    if c = 0 then .ok (some [])
    else do
      let str := c :: rest
      let eol ← search (ch '\n') str
      let ptr ← search (ch ':') str
      match ptr, eol with
      | none, _ => .ok none
      | some _, none => .ok none -- `ptr > end`
      | some ptr, some eol =>
        if ptr.length < eol.length then .ok none
        else do
          let value ← skipBlanks ptr.tail
          let headers ← parseHeaders fuel eol.tail
          .ok (headers.map ((upTo str ptr, upTo value eol) :: ·))

def httpParseResponse (str : Text) : Except Fault Answer := do
  let status ← skipProtocol str
  match status with
  | none => .ok .refused
  | some str => do
    let str ← skipBlanks str
    let (code, str) ← readCode str
    if code = 0 then .ok .refused
    else do
      let str ← skipBlanks str
      let eol ← search (ch '\n') str
      match eol with
      | none => .error .null
      | some eol => do
        let headers ← parseHeaders (eol.tail.length + 1) eol.tail
        .ok (headers.elim .refused (.parsed code (upTo str eol)))

/-! ### Lines -/

/-- From the number of a status line on, if the line begins as one. -/
def statusNumber (line : Text) : Option Text :=
  let behind :=
    if ascii "HTTP/" <+: line then
      if ch ' ' ∈ line then some (line.dropWhile (· ≠ ch ' ')) else none
    else if ascii "ICY" <+: line then some (line.drop 3)
    else none
  behind.map fun s => s.dropWhile (· = ch ' ')

def statusCode (number : Text) : Nat := digitsValue (number.takeWhile isDigit)

def statusReason (number : Text) : Text := (number.dropWhile isDigit).dropWhile (· = ch ' ')

/-- A key and a value. -/
def IsField (line : Text) : Prop := ch ':' ∈ line ∧ 0 ∉ line

instance (line : Text) : Decidable (IsField line) := inferInstanceAs (Decidable (_ ∧ _))

def field (line : Text) : Text × Text :=
  (line.takeWhile (· ≠ ch ':'), (line.dropWhile (· ≠ ch ':')).tail.dropWhile (· = ch ' '))

/-- The lines of a response, the last of which is ended too. -/
def linesOf (buf : Text) : List Text := Frames.frames (ch '\n') [] buf

/-- The response is refused, or its code, its reason and all its fields are there in order. -/
def Answered (first : Text) (rest : List Text) (result : Except Fault Answer) : Prop :=
  result = .ok .refused ∨
    (∀ line ∈ rest, IsField line) ∧ ∃ number ∈ statusNumber first, statusCode number ≠ 0 ∧
      result = .ok (.parsed (statusCode number) (statusReason number) (rest.map field))

/-! ### Null bytes -/

/-- No line begins with a null byte before one that is no field. -/
def FieldsReached : List Text → Prop
  | [] => True
  | line :: rest => line.head? ≠ some 0 ∧ (IsField line → FieldsReached rest)

/-- The code is an `int`, no null byte is in the reason, and none begins a line that is
reached. -/
def Readable (first : Text) (rest : List Text) : Prop :=
  ∀ number ∈ statusNumber first, (statusCode number : Int) ≤ intMax ∧
    (statusCode number ≠ 0 → 0 ∉ statusReason number ∧ FieldsReached rest)

/-! ### What the reader accepts -/

theorem readLoop_newline {stream : Text} {prev : UInt8} {buf buf' : Text}
    (hprev : prev = ch '\n' → ∃ front, buf = front ++ [ch '\n'])
    (h : readLoop stream prev buf = some buf') : ∃ front, buf' = front ++ [ch '\n'] := by
  induction stream generalizing prev buf with
  | nil => cases h
  | cons c stream ih =>
    rw [readLoop] at h
    split at h
    · exact ih hprev h
    · split at h
      · rename_i hend
        cases h
        exact hprev hend.2
      · refine ih (fun hc => ⟨buf, ?_⟩) h
        rw [hc]

/-- The lines are the whole buffer. -/
theorem flatMap_linesOf (front : Text) :
    (linesOf (front ++ [ch '\n'])).flatMap (· ++ [ch '\n']) = front ++ [ch '\n'] := by
  have hall : (linesOf (front ++ [ch '\n'])).flatMap (· ++ [ch '\n']) ++
      Frames.unfinished (ch '\n') [] (front ++ [ch '\n']) = [] ++ (front ++ [ch '\n']) :=
    Frames.flatMap_frames _ _
  rwa [Frames.unfinished_append, Frames.unfinished, if_pos rfl, Frames.unfinished,
    List.append_nil, List.nil_append] at hall

/-! ### Within a line -/

variable {line m : Text}

theorem isPrefixOf_line {pattern : Text} (hpattern : ch '\n' ∉ pattern) :
    pattern.isPrefixOf (line ++ ch '\n' :: m) = true ↔ pattern <+: line := by
  rw [List.isPrefixOf_iff_prefix]
  refine ⟨fun h => ?_, fun h => h.trans (List.prefix_append _ _)⟩
  rcases List.prefix_or_prefix_of_prefix h (List.prefix_append line (ch '\n' :: m)) with h' | h'
  · exact h'
  · obtain ⟨rest, rfl⟩ := h'
    cases rest with
    | nil => simp
    | cons c rest =>
      obtain ⟨m', hm⟩ := h
      simp only [List.append_assoc, List.append_cancel_left_eq, List.cons_append,
        List.cons.injEq] at hm
      exact absurd (by simp [hm.1]) hpattern

theorem toSpace_line (hline : ch '\n' ∉ line) : toSpace (line ++ ch '\n' :: m) =
    .ok (if ch ' ' ∈ line then some (line.dropWhile (· ≠ ch ' ') ++ ch '\n' :: m) else none) := by
  induction line with
  | nil => rfl
  | cons c line ih =>
    simp only [List.mem_cons, not_or] at hline
    rw [List.cons_append, toSpace]
    by_cases hc : c = ch ' '
    · simp [hc]
    · rw [if_neg hc, if_neg (Ne.symm hline.1), ih hline.2]
      simp [hc, Ne.symm hc]

theorem skipBlanks_line : skipBlanks (line ++ ch '\n' :: m) =
    .ok (line.dropWhile (· = ch ' ') ++ ch '\n' :: m) := by
  induction line with
  | nil => rfl
  | cons c line ih =>
    rw [List.cons_append, skipBlanks]
    by_cases hc : c = ch ' '
    · simp [hc, ih]
    · simp [hc]

variable (line m) in
theorem readCode_line : readCode (line ++ ch '\n' :: m) =
    if (statusCode line : Int) ≤ intMax then
      .ok (statusCode line, line.dropWhile isDigit ++ ch '\n' :: m)
    else .error .overflow := by
  obtain ⟨htake, hdrop⟩ := digits_append (t := ch '\n' :: m) (by simp; decide) line
  have hrest : ∃ c rest, line.dropWhile isDigit ++ ch '\n' :: m = c :: rest :=
    List.exists_cons_of_ne_nil (by simp)
  obtain ⟨c, rest, hrest⟩ := hrest
  rw [readCode, readNumber_eq, htake, hdrop, statusCode, hrest]
  by_cases hfits : (digitsValue (line.takeWhile isDigit) : Int) ≤ intMax
  · rw [if_pos hfits, if_pos hfits]
  · rw [if_neg hfits, if_neg hfits]

theorem search_newline (hline : ch '\n' ∉ line) : search (ch '\n') (line ++ ch '\n' :: m) =
    .ok (if 0 ∈ line then none else some (ch '\n' :: m)) := by
  induction line with
  | nil => rfl
  | cons c line ih =>
    simp only [List.mem_cons, not_or] at hline
    rw [List.cons_append, search, if_neg (Ne.symm hline.1)]
    by_cases hc : c = 0
    · simp [hc]
    · simp [hc, Ne.symm hc, ih hline.2]

/-- A colon of the line, in front of every null byte. -/
theorem search_colon (h : ch ':' ∈ line) (hzero : 0 ∉ line) :
    search (ch ':') (line ++ m) = .ok (some (line.dropWhile (· ≠ ch ':') ++ m)) := by
  induction line with
  | nil => cases h
  | cons c line ih =>
    simp only [List.mem_cons, not_or] at h hzero
    rw [List.cons_append, search]
    by_cases hc : c = ch ':'
    · simp [hc]
    · simp [hc, Ne.symm hzero.1, ih (h.resolve_left (Ne.symm hc)) hzero.2]

/-- Some search over a string ends. -/
theorem search_ends (c : UInt8) {str : Text} (h : 0 ∈ str) : ∃ found, search c str = .ok found ∧
    ∀ p ∈ found, p.length ≤ str.length := by
  induction str with
  | nil => cases h
  | cons d str ih =>
    rw [search]
    by_cases hd : d = c
    · exact ⟨some (d :: str), by simp [hd], by simp⟩
    · by_cases hzero : d = 0
      · exact ⟨none, by rw [if_neg hd, if_pos hzero], by simp⟩
      · obtain ⟨found, hfound, hle⟩ := ih ((List.mem_cons.mp h).resolve_left (Ne.symm hzero))
        refine ⟨found, by simp [hd, hzero, hfound], fun p hp => ?_⟩
        have := hle p hp
        rw [List.length_cons]
        omega

/-- Characters that a search goes past. -/
theorem search_skip {c : UInt8} (h : c ∉ line) (hzero : 0 ∉ line) (m : Text) :
    search c (line ++ m) = search c m := by
  induction line with
  | nil => rfl
  | cons d line ih =>
    simp only [List.mem_cons, not_or] at h hzero
    rw [List.cons_append, search, if_neg (Ne.symm h.1), if_neg (Ne.symm hzero.1), ih h.2 hzero.2]

/-! ### The headers -/

/-- The fields up to a line that begins with a null byte; `none` is a line that is none. -/
def readFields : List Text → Option (List (Text × Text))
  | [] => some []
  | line :: rest =>
    if line.head? = some 0 then some []
    else if IsField line then (readFields rest).map (field line :: ·)
    else none

theorem parseHeaders_eq (fuel : Nat) {str : Text} (hne : str ≠ []) (hhead : str.head? ≠ some 0) :
    parseHeaders (fuel + 1) str = (do
      let eol ← search (ch '\n') str
      let ptr ← search (ch ':') str
      match ptr, eol with
      | none, _ => .ok none
      | some _, none => .ok none
      | some ptr, some eol =>
        if ptr.length < eol.length then .ok none
        else do
          let value ← skipBlanks ptr.tail
          let headers ← parseHeaders fuel eol.tail
          .ok (headers.map ((upTo str ptr, upTo value eol) :: ·))) := by
  cases str with
  | nil => exact absurd rfl hne
  | cons c str =>
    rw [parseHeaders, if_neg (by simpa using hhead)]

theorem head?_line {line : Text} (hline : line.head? ≠ some 0) (m : Text) :
    (line ++ ch '\n' :: m).head? ≠ some 0 := by
  cases line with
  | nil => simp; decide
  | cons c line => exact hline

/-- A line that is a field. -/
theorem parseHeaders_field {fuel : Nat} (hline : ch '\n' ∉ line) (hfield : IsField line) :
    parseHeaders (fuel + 1) (line ++ ch '\n' :: m) =
      (parseHeaders fuel m).map (Option.map (field line :: ·)) := by
  obtain ⟨hcolon, hzero⟩ := hfield
  obtain ⟨key, value, rfl, hkey⟩ := List.eq_append_cons_of_mem hcolon
  have hhead : (key ++ ch ':' :: value).head? ≠ some 0 := fun h =>
    hzero (List.mem_of_mem_head? h)
  have hdrop : (key ++ ch ':' :: value).dropWhile (· ≠ ch ':') = ch ':' :: value :=
    Sequence.dropWhile_split value hkey
  have htake : (key ++ ch ':' :: value).takeWhile (· ≠ ch ':') = key :=
    Sequence.takeWhile_split value hkey
  have hnot : ¬ (ch ':' :: (value ++ ch '\n' :: m)).length < (ch '\n' :: m).length := by
    simp
    omega
  have hkeyText : upTo (key ++ ch ':' :: value ++ ch '\n' :: m) (ch ':' :: (value ++ ch '\n' :: m)) =
      key := by
    rw [List.append_assoc]
    exact upTo_append _ _
  rw [parseHeaders_eq fuel (by simp) (head?_line hhead m), search_newline hline, if_neg hzero,
    search_colon hcolon hzero, hdrop, field, htake, hdrop]
  simp only [bind, Except.bind, List.cons_append, if_neg hnot, hkeyText, List.tail_cons,
    skipBlanks_line, upTo_append]
  cases parseHeaders fuel m <;> rfl

/-- A line that is none. -/
theorem parseHeaders_noField {fuel : Nat} (hline : ch '\n' ∉ line) (hhead : line.head? ≠ some 0)
    (hm : 0 ∈ m) (hfield : ¬ IsField line) :
    parseHeaders (fuel + 1) (line ++ ch '\n' :: m) = .ok none := by
  rw [parseHeaders_eq fuel (by simp) (head?_line hhead m), search_newline hline]
  by_cases hzero : 0 ∈ line
  · have hnull : 0 ∈ line ++ ch '\n' :: m := by simp [hzero]
    obtain ⟨found, hfound, -⟩ := search_ends (ch ':') hnull
    rw [if_pos hzero, hfound]
    cases found <;> rfl
  · have hcolon : ch ':' ∉ line := fun h => hfield ⟨h, hzero⟩
    obtain ⟨found, hfound, hle⟩ := search_ends (ch ':') hm
    rw [if_neg hzero, search_skip hcolon hzero, search, if_neg (by decide), if_neg (by decide), hfound]
    cases found with
    | none => rfl
    | some ptr =>
      have := hle ptr rfl
      exact if_pos (by simpa [Nat.lt_succ_iff] using this)

theorem parseHeaders_lines {fuel : Nat} {lines : List Text} (hlines : ∀ line ∈ lines, ch '\n' ∉ line)
    (hfuel : lines.length < fuel) :
    parseHeaders fuel (lines.flatMap (· ++ [ch '\n']) ++ [0]) = .ok (readFields lines) := by
  induction lines generalizing fuel with
  | nil =>
    obtain ⟨fuel, rfl⟩ : ∃ k, fuel = k + 1 := ⟨fuel - 1, by omega⟩
    rfl
  | cons line lines ih =>
    obtain ⟨fuel, rfl⟩ : ∃ k, fuel = k + 1 := ⟨fuel - 1, by omega⟩
    have hstr : (line :: lines).flatMap (· ++ [ch '\n']) ++ [0] =
        line ++ ch '\n' :: (lines.flatMap (· ++ [ch '\n']) ++ [0]) := by simp
    have hline := hlines line List.mem_cons_self
    have hrest : lines.length < fuel := by simpa using hfuel
    have ih := ih (fun l hl => hlines l (List.mem_cons_of_mem _ hl)) hrest
    rw [hstr, readFields]
    by_cases hhead : line.head? = some 0
    · obtain ⟨rest, rfl⟩ : ∃ rest, line = 0 :: rest := List.head?_eq_some_iff.mp hhead
      simp [parseHeaders]
    · rw [if_neg hhead]
      by_cases hfield : IsField line
      · rw [if_pos hfield, parseHeaders_field hline hfield, ih]
        rfl
      · rw [if_neg hfield, parseHeaders_noField hline hhead (by simp) hfield]

/-! ### The whole response -/

/-- The status line is refused, or its number is reached. -/
theorem skipProtocol_line (hline : ch '\n' ∉ line) :
    (statusNumber line = none ∧ skipProtocol (line ++ ch '\n' :: m) = .ok none) ∨
    ∃ behind number, statusNumber line = some number ∧ number <:+ line ∧
      skipProtocol (line ++ ch '\n' :: m) = .ok (some behind) ∧
      skipBlanks behind = .ok (number ++ ch '\n' :: m) := by
  rw [skipProtocol, statusNumber]
  have hhttpFree : ch '\n' ∉ ascii "HTTP/" := by decide
  have hicyFree : ch '\n' ∉ ascii "ICY" := by decide
  simp only [isPrefixOf_line hhttpFree, isPrefixOf_line hicyFree]
  by_cases hhttp : ascii "HTTP/" <+: line
  · obtain ⟨version, rfl⟩ := hhttp
    have hdrop : (ascii "HTTP/" ++ version ++ ch '\n' :: m).drop 5 = version ++ ch '\n' :: m := rfl
    have hspace : ch ' ' ∈ ascii "HTTP/" ++ version ↔ ch ' ' ∈ version := by
      simp only [List.mem_append, or_iff_right_iff_imp]
      exact fun h => absurd h (by decide)
    have hwhile : (ascii "HTTP/" ++ version).dropWhile (· ≠ ch ' ') =
        version.dropWhile (· ≠ ch ' ') := List.dropWhile_append_of_pos (by decide +kernel)
    rw [if_pos (List.prefix_append _ _), if_pos (List.prefix_append _ _), hdrop,
      toSpace_line (fun h => hline (List.mem_append_right _ h)), hwhile]
    simp only [hspace]
    by_cases hblank : ch ' ' ∈ version
    · rw [if_pos hblank, if_pos hblank]
      refine .inr ⟨_, _, rfl, ?_, rfl, skipBlanks_line⟩
      exact ((List.dropWhile_suffix _).trans (List.dropWhile_suffix _)).trans
        (List.suffix_append _ _)
    · rw [if_neg hblank, if_neg hblank]
      exact .inl ⟨rfl, rfl⟩
  · rw [if_neg hhttp, if_neg hhttp]
    by_cases hicy : ascii "ICY" <+: line
    · obtain ⟨behind, rfl⟩ := hicy
      have hdrop : (ascii "ICY" ++ behind ++ ch '\n' :: m).drop 3 = behind ++ ch '\n' :: m := rfl
      have hdrop' : (ascii "ICY" ++ behind).drop 3 = behind := rfl
      rw [if_pos (List.prefix_append _ _), if_pos (List.prefix_append _ _), hdrop, hdrop']
      exact .inr ⟨_, _, rfl, (List.dropWhile_suffix _).trans (List.suffix_append _ _), rfl,
        skipBlanks_line⟩
    · rw [if_neg hicy, if_neg hicy]
      exact .inl ⟨rfl, rfl⟩

theorem length_le_flatMap (lines : List Text) :
    lines.length ≤ (lines.flatMap (· ++ [ch '\n'])).length := by
  induction lines with
  | nil => exact Nat.le_refl _
  | cons line lines ih =>
    simp only [List.flatMap_cons, List.length_append, List.length_cons, List.length_nil]
    omega

/-- What the parser does, line by line. -/
theorem httpParseResponse_eq {rest : List Text} (hline : ch '\n' ∉ line)
    (hrest : ∀ line ∈ rest, ch '\n' ∉ line) :
    httpParseResponse ((line :: rest).flatMap (· ++ [ch '\n']) ++ [0]) =
      match statusNumber line with
      | none => .ok .refused
      | some number =>
        if ¬ (statusCode number : Int) ≤ intMax then .error .overflow
        else if statusCode number = 0 then .ok .refused
        else if 0 ∈ statusReason number then .error .null
        else .ok ((readFields rest).elim .refused
          (.parsed (statusCode number) (statusReason number))) := by
  have hstr : (line :: rest).flatMap (· ++ [ch '\n']) ++ [0] =
      line ++ ch '\n' :: (rest.flatMap (· ++ [ch '\n']) ++ [0]) := by simp
  rw [hstr, httpParseResponse]
  rcases skipProtocol_line (m := rest.flatMap (· ++ [ch '\n']) ++ [0]) hline with
    ⟨hnumber, hskip⟩ | ⟨behind, number, hnumber, hsuffix, hskip, hblanks⟩
  · rw [hnumber, hskip]
    rfl
  · have hfree : ch '\n' ∉ statusReason number := fun h =>
      hline ((((List.dropWhile_suffix _).trans (List.dropWhile_suffix _)).trans hsuffix).mem h)
    have hfuel : rest.length < (rest.flatMap (· ++ [ch '\n']) ++ [0]).length + 1 := by
      have := length_le_flatMap rest
      rw [List.length_append]
      omega
    rw [hnumber, hskip]
    by_cases hfits : (statusCode number : Int) ≤ intMax
    · have hcode := readCode_line number (rest.flatMap (· ++ [ch '\n']) ++ [0])
      have hreason : skipBlanks (number.dropWhile isDigit ++ ch '\n' ::
          (rest.flatMap (· ++ [ch '\n']) ++ [0])) = .ok (statusReason number ++ ch '\n' ::
          (rest.flatMap (· ++ [ch '\n']) ++ [0])) := skipBlanks_line
      have heol := search_newline (m := rest.flatMap (· ++ [ch '\n']) ++ [0]) hfree
      rw [if_pos hfits] at hcode
      by_cases hzeroCode : statusCode number = 0
      · simp only [bind, Except.bind, hblanks, hcode, hzeroCode, if_true]
        exact (if_neg (by decide)).symm
      · by_cases hzero : 0 ∈ statusReason number
        · rw [if_pos hzero] at heol
          simp only [bind, Except.bind, hblanks, hcode, hreason, heol, hfits, hzeroCode, hzero,
            not_true, if_false, if_true]
        · rw [if_neg hzero] at heol
          simp only [bind, Except.bind, hblanks, hcode, hreason, heol, hfits, hzeroCode, hzero,
            not_true, if_false, List.tail_cons, parseHeaders_lines hrest hfuel, upTo_append]
    · have hcode := readCode_line number (rest.flatMap (· ++ [ch '\n']) ++ [0])
      rw [if_neg hfits] at hcode
      simp only [bind, Except.bind, hblanks, hcode, hfits, not_false_eq_true, if_true]

/-! ### What is answered -/

theorem readFields_iff (rest : List Text) :
    (readFields rest = none ∨ (∀ line ∈ rest, IsField line) ∧ readFields rest = some (rest.map field)) ↔
      FieldsReached rest := by
  induction rest with
  | nil => simp [readFields, FieldsReached]
  | cons line rest ih =>
    rw [readFields, FieldsReached]
    by_cases hhead : line.head? = some 0
    · simp [hhead]
    · by_cases hfield : IsField line
      · rw [if_neg hhead, if_pos hfield, ← and_congr_right_iff.mpr fun _ => imp_congr_right fun _ => ih]
        simp [hhead, hfield]
      · simp [hhead, hfield]

/-- The parser comes to an end, within the string. -/
theorem httpParseResponse_within {rest : List Text} (hline : ch '\n' ∉ line)
    (hrest : ∀ line ∈ rest, ch '\n' ∉ line) :
    httpParseResponse ((line :: rest).flatMap (· ++ [ch '\n']) ++ [0]) ≠ .error .outside ∧
      httpParseResponse ((line :: rest).flatMap (· ++ [ch '\n']) ++ [0]) ≠ .error .endless := by
  rw [httpParseResponse_eq hline hrest]
  split
  · simp
  · split_ifs <;> simp

/-- Whatever the reader accepts is answered, by a refusal or with all that was sent, if and only
if its code is an `int`, its reason holds no null byte, and none begins a line that the parser
reaches. Otherwise too the parser ends and stays within the string. -/
theorem response_answered (stream : Text) {buf : Text} (h : httpReadResponse stream = some buf) :
    ∃ first rest, linesOf buf = first :: rest ∧
      (Answered first rest (httpParseResponse (buf ++ [0])) ↔ Readable first rest) ∧
      httpParseResponse (buf ++ [0]) ≠ .error .outside ∧
      httpParseResponse (buf ++ [0]) ≠ .error .endless := by
  obtain ⟨front, rfl⟩ := readLoop_newline (fun h => absurd h (by decide)) h
  have hbuf := flatMap_linesOf front
  have hfree : ∀ line ∈ linesOf (front ++ [ch '\n']), ch '\n' ∉ line := fun line hline =>
    Frames.notMem_frames List.not_mem_nil hline
  cases hlines : linesOf (front ++ [ch '\n']) with
  | nil =>
    rw [hlines] at hbuf
    simp at hbuf
  | cons first rest =>
    rw [hlines] at hbuf hfree
    have hrest : ∀ line ∈ rest, ch '\n' ∉ line := fun line hline =>
      hfree line (List.mem_cons_of_mem _ hline)
    have hparse := httpParseResponse_eq (hfree first List.mem_cons_self) hrest
    have hwithin := httpParseResponse_within (hfree first List.mem_cons_self) hrest
    rw [hbuf] at hparse hwithin
    refine ⟨first, rest, rfl, ?_, hwithin⟩
    rw [hparse, Answered, Readable]
    cases hnumber : statusNumber first with
    | none => simp
    | some number =>
      simp only [Option.mem_some, forall_eq', exists_eq_left']
      by_cases hfits : (statusCode number : Int) ≤ intMax
      · by_cases hcode : statusCode number = 0
        · simp [hcode, intMax]
        · by_cases hzero : 0 ∈ statusReason number
          · simp [hfits, hcode, hzero]
          · have hreached := readFields_iff rest
            cases hfields : readFields rest with
            | none => simpa [hfits, hcode, hzero, hfields] using hreached
            | some fields => simpa [hfits, hcode, hzero, hfields] using hreached
      · simp [hfits]

theorem response_answered_plain :
    ∃ first rest, linesOf (ascii "HTTP/1.0 200 OK\nicy-name: x\n") = first :: rest ∧
      (Answered first rest (httpParseResponse (ascii "HTTP/1.0 200 OK\nicy-name: x\n" ++ [0])) ↔
        Readable first rest) ∧
      httpParseResponse (ascii "HTTP/1.0 200 OK\nicy-name: x\n" ++ [0]) ≠ .error .outside ∧
      httpParseResponse (ascii "HTTP/1.0 200 OK\nicy-name: x\n" ++ [0]) ≠ .error .endless :=
  response_answered (ascii "HTTP/1.0 200 OK\r\nicy-name: x\r\n\r\nbody") (by decide)

/-- A null byte in the reason hides the end of the line, and one at the start of a line hides the
lines that follow. -/
theorem response_null :
    httpReadResponse (ascii "ICY 200" ++ 0 :: ascii "OK\r\n\r\n") =
        some (ascii "ICY 200" ++ 0 :: ascii "OK\n") ∧
      httpParseResponse (ascii "ICY 200" ++ 0 :: ascii "OK\n" ++ [0]) = .error .null ∧
      ¬ Answered (ascii "ICY 200" ++ 0 :: ascii "OK") []
        (httpParseResponse (ascii "ICY 200" ++ 0 :: ascii "OK\n" ++ [0])) ∧
      httpParseResponse (ascii "ICY 200 OK\n" ++ 0 :: ascii "a\nb: c\n" ++ [0]) =
        .ok (.parsed 200 (ascii "OK") []) := by
  have hnull : httpParseResponse (ascii "ICY 200" ++ 0 :: ascii "OK\n" ++ [0]) = .error .null := by
    decide
  refine ⟨by decide, hnull, ?_, by decide⟩
  rw [hnull]
  rintro (h | ⟨-, number, -, -, h⟩)
  · cases h
  · cases h

end GracefulMusic.Http
