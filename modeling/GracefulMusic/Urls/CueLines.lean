import GracefulMusic.Urls.CueTracks

/-! The lines of a cue sheet (`cue.c`).

A line ends with `\n`, `\r` or `\r\n`. No command reads past the end of its line, so that a
sheet is what its lines come to one after the other, whatever stands between them. -/
namespace GracefulMusic.Cue
open CueParser

inductive Terminator where
  | lf
  | cr
  | crlf
  deriving DecidableEq

def Terminator.text : Terminator → Text
  | .lf => [ch '\n']
  | .cr => [ch '\r']
  | .crlf => [ch '\r', ch '\n']

def InLine (s : Text) : Prop := ∀ c ∈ s, isNewline c = false

/-- The lines of a text; nothing ends the last one. -/
inductive HasLines : List Text → Text → Prop where
  | last {line : Text} : InLine line → HasLines [line] line
  | line {line : Text} {t : Terminator} {lines : List Text} {rest : Text} : InLine line →
      HasLines lines rest → HasLines (line :: lines) (line ++ (t.text ++ rest))

/-- A line alone. After an error nothing more is read. -/
def CueParser.lineAlone (p : CueParser) (line : Text) : CueParser :=
  if p.err then p else { CueParser.parseCmd { p with src := line } lineCmds with src := [] }

/-! ### Commands stay in their line -/

/-- The text is at its end or at that of a line. -/
def AtEnd (rest : Text) : Prop := ∀ c ∈ rest.head?, isNewline c = true

theorem takeWhile_append_atEnd {p : UInt8 → Bool} (hp : ∀ c, isNewline c = true → p c = false)
    {rest : Text} (hrest : AtEnd rest) (s : Text) :
    (s ++ rest).takeWhile p = s.takeWhile p ∧ (s ++ rest).dropWhile p = s.dropWhile p ++ rest := by
  induction s with
  | nil =>
    cases rest with
    | nil => exact ⟨rfl, rfl⟩
    | cons c rest =>
      have hc : ¬ p c = true := by
        rw [hp c (hrest c rfl)]
        decide
      rw [List.nil_append, List.takeWhile_cons_of_neg hc, List.dropWhile_cons_of_neg hc]
      exact ⟨rfl, rfl⟩
  | cons c s ih =>
    rw [List.cons_append]
    by_cases hc : p c = true
    · rw [List.takeWhile_cons_of_pos hc, List.takeWhile_cons_of_pos hc,
        List.dropWhile_cons_of_pos hc,
        List.dropWhile_cons_of_pos hc, ih.1, ih.2]
      exact ⟨rfl, rfl⟩
    · rw [List.takeWhile_cons_of_neg hc, List.takeWhile_cons_of_neg hc,
        List.dropWhile_cons_of_neg hc, List.dropWhile_cons_of_neg hc]
      exact ⟨rfl, rfl⟩

theorem newline_not_blank (c : UInt8) (h : isNewline c = true) : isBlank c = false := by
  revert h
  exact forall_byte (P := fun c => isNewline c = true → isBlank c = false) (by decide +kernel) c

theorem newline_not_quote {c : UInt8} (h : isNewline c = true) : c ≠ ch '"' := by
  intro hc
  rw [hc] at h
  exact absurd h (by decide)

theorem InLine.of_suffix {s t : Text} (h : InLine t) (hst : s <:+ t) : InLine s :=
  fun c hc => h c (hst.subset hc)

/-- A token and what it leaves depend on the line alone. -/
theorem extractToken_line {line rest : Text} (hline : InLine line) (hrest : AtEnd rest) :
    InLine (cueExtractToken line).2 ∧ cueExtractToken (line ++ rest) =
      ((cueExtractToken line).1, (cueExtractToken line).2 ++ rest) := by
  have hblank := takeWhile_append_atEnd newline_not_blank hrest line
  have hquoted : ∀ c, isNewline c = true → (!isNewline c && c != ch '"') = false := by
    intro c hc
    rw [hc]
    rfl
  have hplain : ∀ c, isNewline c = true → (!isNewline c && !isBlank c) = false := by
    intro c hc
    rw [hc]
    rfl
  have hsuffix : line.dropWhile isBlank <:+ line := List.dropWhile_suffix _
  rw [cueExtractToken, cueExtractToken, hblank.2]
  cases hdrop : line.dropWhile isBlank with
  | nil =>
    refine ⟨fun c hc => absurd hc List.not_mem_nil, ?_⟩
    cases rest with
    | nil => rfl
    | cons c rest =>
      have hc := hrest c rfl
      rw [List.nil_append]
      dsimp only
      rw [if_neg (newline_not_quote hc), List.takeWhile_cons_of_neg (by rw [hplain c hc]; decide),
        List.dropWhile_cons_of_neg (by rw [hplain c hc]; decide)]
  | cons c s =>
    rw [hdrop] at hsuffix
    have hs : s <:+ line := (List.suffix_cons c s).trans hsuffix
    rw [List.cons_append]
    dsimp only
    by_cases hc : c = ch '"'
    · rw [if_pos hc, if_pos hc]
      obtain ⟨htake, hbehind⟩ := takeWhile_append_atEnd hquoted hrest s
      rw [htake, hbehind]
      have hsub : (s.dropWhile fun c => !isNewline c && c != ch '"') <:+ line :=
        (List.dropWhile_suffix _).trans hs
      generalize hb : (s.dropWhile fun c => !isNewline c && c != ch '"') = behind at hsub ⊢
      cases behind with
      | nil =>
        refine ⟨fun c hc => absurd hc List.not_mem_nil, ?_⟩
        rw [List.nil_append, if_neg, if_neg (by decide)]
        · rfl
        · intro hhead
          exact newline_not_quote (hrest _ hhead) rfl
      | cons d behind =>
        rw [List.cons_append, List.head?_cons, List.head?_cons]
        split
        · exact ⟨hline.of_suffix ((List.suffix_cons d behind).trans hsub), rfl⟩
        · exact ⟨hline.of_suffix hsub, rfl⟩
    · rw [if_neg hc, if_neg hc]
      obtain ⟨htake, hbehind⟩ := takeWhile_append_atEnd hplain hrest (c :: s)
      rw [List.cons_append] at htake hbehind
      rw [htake, hbehind]
      exact ⟨hline.of_suffix ((List.dropWhile_suffix _).trans hsuffix), rfl⟩

def CueParser.withSrc (p : CueParser) (src : Text) : CueParser := { p with src := src }

/-- A command reads in its line and leaves the rest as it is. -/
def Local (f : CueParser → CueParser) : Prop :=
  ∀ (p : CueParser) (line rest : Text), InLine line → AtEnd rest →
    InLine (f (p.withSrc line)).src ∧
      f (p.withSrc (line ++ rest)) = (f (p.withSrc line)).withSrc ((f (p.withSrc line)).src ++ rest)

theorem Local.of_withSrc {f : CueParser → CueParser}
    (h : ∀ p src, f (p.withSrc src) = (f p).withSrc src) : Local f := by
  intro p line rest hline _
  rw [h, h]
  exact ⟨hline, rfl⟩

/-- What is done with a token and the rest of the line. -/
theorem Local.token {f : Text → CueParser → CueParser} (h : ∀ token, Local (f token)) :
    Local fun p => f (cueExtractToken p.src).1 (p.withSrc (cueExtractToken p.src).2) := by
  intro p line rest hline hrest
  obtain ⟨hbehind, htoken⟩ := extractToken_line hline hrest
  obtain ⟨hinside, heq⟩ := h (cueExtractToken line).1 p (cueExtractToken line).2 rest hbehind hrest
  refine ⟨hinside, ?_⟩
  show f (cueExtractToken (line ++ rest)).1 (p.withSrc (cueExtractToken (line ++ rest)).2) = _
  rw [htoken]
  exact heq

theorem onLast_withSrc (f : CueTrackProto → CueTrackProto) (p : CueParser) (src : Text) :
    (p.withSrc src).onLast f = (p.onLast f).withSrc src := by
  have htracks : (p.withSrc src).tracks = p.tracks := rfl
  unfold CueParser.onLast
  rw [htracks]
  cases p.tracks.getLast? <;> rfl

theorem onLast_local (f : CueTrackProto → CueTrackProto) : Local (·.onLast f) :=
  Local.of_withSrc (onLast_withSrc f)

theorem setErr_local : Local setErr := Local.of_withSrc fun _ _ => rfl

theorem id_local : Local fun p => p := Local.of_withSrc fun _ _ => rfl

theorem parseField_local (get : CueMeta → Option Text) (set : CueMeta → Option Text → CueMeta) :
    Local (·.parseField get set) := by
  apply Local.token (f := fun token p =>
    if p.tracks = [] then { p with info := set p.info ((get p.info).or (some token)) }
    else p.onLast fun t => { t with info := set t.info ((get t.info).or (some token)) })
  intro token
  apply Local.of_withSrc
  intro p src
  show (if p.tracks = [] then _ else _ : CueParser) =
    (if p.tracks = [] then _ else _ : CueParser).withSrc src
  by_cases h : p.tracks = []
  · rw [if_pos h, if_pos h]
    rfl
  · rw [if_neg h, if_neg h]
    exact onLast_withSrc _ p src

theorem parseFile_local : Local parseFile :=
  Local.token (f := fun token p => { p with file := p.file.or (some token) })
    fun _ => Local.of_withSrc fun _ _ => rfl

/-- Every parser of a command begins with a token. -/
theorem Local.of_token {g : CueParser → CueParser} (f : Text → CueParser → CueParser)
    (hg : ∀ p, g p = f (cueExtractToken p.src).1 (p.withSrc (cueExtractToken p.src).2))
    (h : ∀ token, Local (f token)) : Local g := by
  have hfun : g = fun p => f (cueExtractToken p.src).1 (p.withSrc (cueExtractToken p.src).2) :=
    funext hg
  rw [hfun]
  exact Local.token h

/-- A parser that gives up where the token is not what it reads. -/
theorem Local.elim {α : Type} (r : Text → Option α) {f : α → CueParser → CueParser}
    (h : ∀ a, Local (f a)) (token : Text) :
    Local fun p => (r token).elim p.setErr fun a => f a p := by
  cases r token with
  | none => exact setErr_local
  | some a => exact h a

theorem parseTrack_local : Local parseTrack := by
  apply Local.of_token (fun token p => (cueParseInt token).elim p.setErr fun d =>
    { p with tracks := p.tracks ++ [⟨d, -1, -1, -1, -1, CueMeta.empty⟩] })
  · intro p
    unfold parseTrack
    rcases cueExtractToken p.src with ⟨token, src⟩
    dsimp only
    cases cueParseInt token <;> rfl
  · exact Local.elim cueParseInt fun d => Local.of_withSrc fun _ _ => rfl

/-- The second token of an index is its time. -/
def indexTime (d : UInt32) (token : Text) (p : CueParser) : CueParser :=
  (cueParseTime token).elim p.setErr fun offset => p.onLast fun t =>
    if d = 0 then { t with index0 := toTime offset } else { t with index1 := toTime offset }

theorem parseIndex_local : Local parseIndex := by
  apply Local.of_token (fun token p => (cueParseInt token).elim p.setErr fun d =>
    if d > 1 then p
    else indexTime d (cueExtractToken p.src).1 (p.withSrc (cueExtractToken p.src).2))
  · intro p
    unfold parseIndex
    rcases cueExtractToken p.src with ⟨token, src⟩
    dsimp only
    cases cueParseInt token with
    | none => rfl
    | some d =>
      dsimp only [Option.elim]
      split
      · rfl
      · show _ = indexTime d (cueExtractToken src).1
          ((p.withSrc src).withSrc (cueExtractToken src).2)
        rcases cueExtractToken src with ⟨token, src⟩
        unfold indexTime
        cases cueParseTime token <;> rfl
  · apply Local.elim cueParseInt
    intro d
    split
    · exact id_local
    · exact Local.token fun token => Local.elim cueParseTime (fun _ => onLast_local _) token

theorem parseGap_local (post : Bool) : Local (·.parseGap post) := by
  apply Local.of_token (fun token p => (cueParseTime token).elim p.setErr fun gap =>
    p.onLast fun t =>
      if post then { t with postgap := toTime gap } else { t with pregap := toTime gap })
  · intro p
    unfold CueParser.parseGap
    rcases cueExtractToken p.src with ⟨token, src⟩
    dsimp only
    cases cueParseTime token <;> rfl
  · exact Local.elim cueParseTime fun _ => onLast_local _

theorem parseCmd_local {cmds : List (Text × (CueParser → CueParser))}
    (h : ∀ cmd ∈ cmds, Local cmd.2) : Local (·.parseCmd cmds) := by
  apply Local.of_token (fun token p =>
    (cmds.find? fun cmd => cueStrEq token cmd.1).elim p fun cmd => cmd.2 p)
  · intro p
    unfold CueParser.parseCmd
    rcases cueExtractToken p.src with ⟨token, src⟩
    dsimp only
    cases cmds.find? fun cmd => cueStrEq token cmd.1 <;> rfl
  · intro token
    cases hfind : cmds.find? fun cmd => cueStrEq token cmd.1 with
    | none => exact id_local
    | some cmd => exact h cmd (List.mem_of_find?_eq_some hfind)

theorem parseRem_local : Local parseRem := by
  apply parseCmd_local
  intro cmd hcmd
  simp only [List.mem_cons, List.not_mem_nil, or_false] at hcmd
  rcases hcmd with rfl | rfl | rfl | rfl | rfl <;> exact parseField_local _ _

theorem lineCmds_local : Local (·.parseCmd lineCmds) := by
  apply parseCmd_local
  intro cmd hcmd
  simp only [lineCmds, List.mem_cons, List.not_mem_nil, or_false] at hcmd
  rcases hcmd with rfl | rfl | rfl | rfl | rfl | rfl | rfl | rfl | rfl
  · exact parseFile_local
  · exact parseField_local _ _
  · exact parseField_local _ _
  · exact parseField_local _ _
  · exact parseTrack_local
  · exact parseIndex_local
  · exact parseRem_local
  · exact parseGap_local _
  · exact parseGap_local _

/-! ### One line after the other -/

theorem atEnd_terminator (t : Terminator) (rest : Text) : AtEnd (t.text ++ rest) := by
  intro c hc
  cases t with
  | lf =>
    obtain rfl := Option.some.inj hc
    decide
  | cr =>
    obtain rfl := Option.some.inj hc
    decide
  | crlf =>
    obtain rfl := Option.some.inj hc
    decide

theorem cueSkipLine_line {line rest : Text} (hline : InLine line) :
    cueSkipLine (line ++ rest) = cueSkipLine rest := by
  have hall : ∀ c ∈ line, (!isNewline c) = true := fun c hc => by rw [hline c hc]; rfl
  rw [cueSkipLine, cueSkipLine, List.dropWhile_append_of_pos hall]

/-- Behind a terminator the next line starts, unless the terminator is the first half of
`\r\n`. -/
theorem cueSkipLine_terminator (t : Terminator) (rest : Text) :
    cueSkipLine (t.text ++ rest) = rest ∨
      ∃ more, rest = ch '\n' :: more ∧ cueSkipLine (t.text ++ rest) = more := by
  cases t with
  | lf =>
    left
    rw [cueSkipLine]
    show (if ch '\n' = ch '\r' ∧ _ then _ else rest) = rest
    rw [if_neg fun h => absurd h.1 (by decide)]
  | cr =>
    rw [cueSkipLine]
    show (if ch '\r' = ch '\r' ∧ rest.head? = some (ch '\n') then rest.drop 1 else rest) = rest ∨ _
    by_cases h : rest.head? = some (ch '\n')
    · obtain ⟨more, rfl⟩ := List.head?_eq_some_iff.mp h
      exact .inr ⟨more, rfl, if_pos ⟨rfl, rfl⟩⟩
    · exact .inl (if_neg fun hcr => h hcr.2)
  | crlf => exact .inl rfl

/-- The parser after the command of the line in front of `rest`. -/
theorem parseLine_line {p : CueParser} {line rest : Text} (hline : InLine line)
    (hrest : AtEnd rest) (herr : p.err = false) :
    CueParser.parseLine (p.withSrc (line ++ rest)) =
      (p.lineAlone line).withSrc (cueSkipLine rest) := by
  obtain ⟨hinside, heq⟩ := lineCmds_local p line rest hline hrest
  have hskip := @cueSkipLine_line _ rest hinside
  rw [CueParser.parseLine, CueParser.lineAlone, if_neg (by rw [herr]; decide)]
  beta_reduce at heq
  rw [heq]
  show CueParser.withSrc _ (cueSkipLine _) = CueParser.withSrc _ (cueSkipLine rest)
  rw [← hskip]
  rfl

theorem lineAlone_src {p : CueParser} (h : p.src = []) (line : Text) : (p.lineAlone line).src =
    [] := by
  rw [CueParser.lineAlone]
  split
  · exact h
  · rfl

/-- An empty line has no command. -/
theorem lineAlone_nil {p : CueParser} (h : p.src = []) : p.lineAlone [] = p := by
  rw [CueParser.lineAlone]
  split
  · rfl
  · cases p
    obtain rfl := h
    rfl

theorem foldl_lineAlone_err {p : CueParser} (h : p.err = true) (lines : List Text) :
    lines.foldl CueParser.lineAlone p = p := by
  induction lines with
  | nil => rfl
  | cons line lines ih => rw [List.foldl_cons, CueParser.lineAlone, if_pos h, ih]

theorem parseLines_stop {p : CueParser} (h : p.src = [] ∨ p.err = true) (fuel : Nat) :
    CueParser.parseLines fuel p = p := by
  cases fuel with
  | zero => rfl
  | succ fuel =>
    rw [CueParser.parseLines, if_neg]
    intro hgo
    rcases h with hsrc | herr
    · exact hgo.1 hsrc
    · rw [hgo.2] at herr
      cases herr

theorem withSrc_nil {p : CueParser} (h : p.src = []) : p.withSrc [] = p := by
  cases p
  obtain rfl := h
  rfl

/-- A text that starts with `\n` starts with an empty line. -/
theorem HasLines.newline {lines : List Text} {more : Text} (h : HasLines lines (ch '\n' :: more)) :
    ∃ tail, lines = [] :: tail ∧ HasLines tail more := by
  have hnewline : isNewline (ch '\n') = true := by decide
  generalize hsrc : ch '\n' :: more = src at h
  cases h with
  | last hline =>
    rw [← hsrc] at hline
    rw [hline (ch '\n') List.mem_cons_self] at hnewline
    cases hnewline
  | @line line t tail rest hline hrest =>
    cases line with
    | cons c line =>
      rw [List.cons_append] at hsrc
      rw [(List.cons.inj hsrc).1, hline c List.mem_cons_self] at hnewline
      cases hnewline
    | nil =>
      cases t with
      | lf =>
        rw [(List.cons.inj hsrc).2]
        exact ⟨tail, rfl, hrest⟩
      | cr => exact absurd (List.cons.inj hsrc).1 (by decide)
      | crlf => exact absurd (List.cons.inj hsrc).1 (by decide)

/-- The loop goes through the lines, each on its own. -/
theorem parseLines_eq_foldl {fuel : Nat} {lines : List Text} {src : Text} (h : HasLines lines src)
    (hfuel : src.length ≤ fuel) {p : CueParser} (hp : p.src = []) :
    (CueParser.parseLines fuel (p.withSrc src)).withSrc [] = lines.foldl CueParser.lineAlone p := by
  induction fuel generalizing lines src p with
  | zero =>
    obtain rfl := List.eq_nil_of_length_eq_zero (Nat.le_zero.mp hfuel)
    generalize hsrc : ([] : Text) = src at h
    cases h with
    | last _ =>
      subst hsrc
      rw [List.foldl_cons, lineAlone_nil hp]
      exact withSrc_nil hp
    | @line line t lines rest _ _ =>
      cases line <;> cases t <;> cases hsrc
  | succ fuel ih =>
    cases herr : p.err with
    | true =>
      rw [foldl_lineAlone_err herr, @parseLines_stop (p.withSrc src) (.inr herr)]
      exact withSrc_nil hp
    | false =>
      cases h with
      | last hline =>
        cases src with
        | nil =>
          rw [@parseLines_stop (p.withSrc []) (.inl rfl), List.foldl_cons, lineAlone_nil hp]
          exact withSrc_nil hp
        | cons c line =>
          have hend : AtEnd [] := fun c hc => by cases hc
          have hstep := parseLine_line hline hend herr
          rw [List.append_nil] at hstep
          rw [CueParser.parseLines, if_pos ⟨List.cons_ne_nil c line, herr⟩, hstep,
            @parseLines_stop (CueParser.withSrc _ (cueSkipLine [])) (.inl rfl)]
          exact withSrc_nil (lineAlone_src hp _)
      | @line line t lines rest hline hrest =>
        have hne : line ++ (t.text ++ rest) ≠ [] := by
          cases line <;> cases t <;> exact List.cons_ne_nil _ _
        have hlen : 0 < t.text.length := by cases t <;> decide
        rw [List.length_append, List.length_append] at hfuel
        have halone := lineAlone_src hp line
        rw [CueParser.parseLines, if_pos ⟨hne, herr⟩,
          parseLine_line hline (atEnd_terminator t rest) herr, List.foldl_cons]
        rcases cueSkipLine_terminator t rest with hnext | hnext
        · rw [hnext]
          exact ih hrest (by omega) halone
        · obtain ⟨more, rfl, hnext⟩ := hnext
          obtain ⟨tail, rfl, htail⟩ := hrest.newline
          rw [List.length_cons] at hfuel
          rw [hnext, List.foldl_cons, lineAlone_nil halone]
          exact ih htail (by omega) halone

/-! ### The loop ends -/

theorem parseLines_fuel {fuel fuel' : Nat} {p : CueParser} (hfuel : p.src.length ≤ fuel)
    (hfuel' : p.src.length ≤ fuel') :
    CueParser.parseLines fuel p = CueParser.parseLines fuel' p := by
  induction fuel generalizing fuel' p with
  | zero =>
    have hsrc := List.eq_nil_of_length_eq_zero (Nat.le_zero.mp hfuel)
    rw [parseLines_stop (.inl hsrc), parseLines_stop (.inl hsrc)]
  | succ fuel ih =>
    by_cases hgo : p.src ≠ [] ∧ p.err = false
    · have hpos := List.length_pos_iff.mpr hgo.1
      obtain ⟨fuel', rfl⟩ : ∃ n, fuel' = n + 1 := ⟨fuel' - 1, by omega⟩
      rw [CueParser.parseLines, CueParser.parseLines, if_pos hgo, if_pos hgo]
      cases herr : p.parseLine.err with
      | true => rw [parseLines_stop (.inr herr), parseLines_stop (.inr herr)]
      | false =>
        have hless := cueSkipLine_length hgo.1
        have hsrc := (parseLine_spec herr).1
        exact ih (by rw [hsrc]; omega) (by rw [hsrc]; omega)
    · have hstop : p.src = [] ∨ p.err = true := by
        by_cases hsrc : p.src = []
        · exact .inl hsrc
        · exact .inr (by simpa using fun h => hgo ⟨hsrc, h⟩)
      rw [parseLines_stop hstop, parseLines_stop hstop]

/-! ### The sheet depends on the lines -/

def CueParser.start : CueParser := ⟨[], false, none, [], CueMeta.empty⟩

/-- What is made of the parser in the end. -/
def CueParser.sheet (p : CueParser) : Option CueSheet :=
  if p.err then none
  else (cuePostProcess p).map fun (file, tracks) => cueParserToSheet p file tracks

theorem cueParse_eq_foldl {lines : List Text} {src : Text} (h : HasLines lines src) :
    cueParse src = (lines.foldl CueParser.lineAlone CueParser.start).sheet := by
  rw [← parseLines_eq_foldl h (Nat.le_refl _) rfl]
  rfl

/-- Every text has lines. -/
theorem exists_hasLines (src : Text) : ∃ lines, HasLines lines src := by
  induction src with
  | nil => exact ⟨[[]], .last fun c hc => absurd hc List.not_mem_nil⟩
  | cons c src ih =>
    obtain ⟨lines, h⟩ := ih
    have hempty : InLine [] := fun c hc => absurd hc List.not_mem_nil
    by_cases hlf : c = ch '\n'
    · exact ⟨[] :: lines, hlf ▸ HasLines.line (t := .lf) hempty h⟩
    by_cases hcr : c = ch '\r'
    · exact ⟨[] :: lines, hcr ▸ HasLines.line (t := .cr) hempty h⟩
    have hc : isNewline c = false := by
      rw [isNewline, beq_eq_false_iff_ne.mpr hlf, beq_eq_false_iff_ne.mpr hcr]
      rfl
    have hcons : ∀ {line : Text}, InLine line → InLine (c :: line) := by
      intro line hline d hd
      rcases List.mem_cons.mp hd with rfl | hd
      · exact hc
      · exact hline d hd
    cases h with
    | last hline => exact ⟨[c :: src], .last (hcons hline)⟩
    | @line line t tail rest hline hrest => exact ⟨(c :: line) :: tail, .line (hcons hline) hrest⟩

/-- A sheet is parsed line by line, in so many rounds as the text has bytes, and texts with
the same lines are the same sheet. -/
theorem cueParse_lines :
    (∀ src, ∃ lines, HasLines lines src) ∧
      ∀ lines src, HasLines lines src →
        cueParse src = (lines.foldl CueParser.lineAlone CueParser.start).sheet ∧
          (∀ src', HasLines lines src' → cueParse src' = cueParse src) ∧
            ∀ fuel, src.length ≤ fuel → CueParser.parseLines fuel (CueParser.start.withSrc src) =
              CueParser.parseLines src.length (CueParser.start.withSrc src) := by
  refine ⟨exists_hasLines, fun lines src h => ⟨cueParse_eq_foldl h, fun src' h' => ?_,
    fun fuel hfuel => parseLines_fuel hfuel (Nat.le_refl _)⟩⟩
  rw [cueParse_eq_foldl h, cueParse_eq_foldl h']

theorem cueParse_lines_crlf :
    cueParse (ascii "FILE a WAVE\r\n\nTRACK 1\rINDEX 1 0:0:0") =
      cueParse (ascii "FILE a WAVE\n\r\nTRACK 1\r\nINDEX 1 0:0:0") := by
  have hline : ∀ line : Text, (line.all fun c => !isNewline c) = true → InLine line := by
    intro line hall c hc
    exact (Bool.not_eq_true' _).mp (List.all_eq_true.mp hall c hc)
  have hlines : ∀ t u v : Terminator, HasLines
      [ascii "FILE a WAVE", [], ascii "TRACK 1", ascii "INDEX 1 0:0:0"]
      (ascii "FILE a WAVE" ++ (t.text ++ ([] ++ (u.text ++ (ascii "TRACK 1" ++ (v.text ++
        ascii "INDEX 1 0:0:0")))))) :=
    fun t u v => .line (hline _ (by decide +kernel)) (.line (hline _ (by decide +kernel))
      (.line (hline _ (by decide +kernel)) (.last (hline _ (by decide +kernel)))))
  exact (cueParse_lines.2 _ _ (hlines .lf .crlf .crlf)).2.1 _ (hlines .crlf .lf .cr)

end GracefulMusic.Cue
