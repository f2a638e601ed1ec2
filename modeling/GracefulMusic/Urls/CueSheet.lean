import GracefulMusic.Text

/-! Cue sheets (`cue.c`, `cue.h`).

Numbers are read into 32 bits without a sign, and times are kept in those bits with a
sign. Offsets and lengths stay in frames, of which there are 75 a second. -/
namespace GracefulMusic.Cue

structure CueMeta where
  performer : Option Text
  songwriter : Option Text
  title : Option Text
  genre : Option Text
  date : Option Text
  comment : Option Text
  compilation : Option Text
  discnumber : Option Text
deriving DecidableEq

def CueMeta.empty : CueMeta := ⟨none, none, none, none, none, none, none, none⟩

/-- A track while it is read; a time is -1 where it is missing. -/
structure CueTrackProto where
  nr : UInt32
  pregap : Int
  postgap : Int
  index0 : Int
  index1 : Int
  info : CueMeta
deriving DecidableEq

structure CueParser where
  src : Text
  err : Bool
  file : Option Text
  tracks : List CueTrackProto
  info : CueMeta
deriving DecidableEq

/-! ### Tokens -/

def isBlank (c : UInt8) : Bool := c == ch ' ' || c == ch '\t'

def isNewline (c : UInt8) : Bool := c == ch '\n' || c == ch '\r'

def cueStrEq (a b : Text) : Bool := a.map (· &&& 0xDF) == b.map (· &&& 0xDF)

/-- A token and what is behind it. -/
def cueExtractToken (src : Text) : Text × Text :=
  match src.dropWhile isBlank with
  | [] => ([], [])
  | c :: rest =>
    if c = ch '"' then
      let behind := rest.dropWhile fun c => !isNewline c && c != ch '"'
      (rest.takeWhile fun c => !isNewline c && c != ch '"',
        if behind.head? = some (ch '"') then behind.drop 1 else behind)
    else
      ((c :: rest).takeWhile fun c => !isNewline c && !isBlank c,
        (c :: rest).dropWhile fun c => !isNewline c && !isBlank c)

def cueSkipLine (src : Text) : Text :=
  match src.dropWhile (!isNewline ·) with
  | [] => []
  | c :: rest => if c = ch '\r' ∧ rest.head? = some (ch '\n') then rest.drop 1 else rest

/-- `none` is the error. -/
def cueParseInt (token : Text) : Option UInt32 :=
  token.foldlM (fun val c =>
    if isDigit c then some (val * 10 + (c - ch '0').toUInt32) else none) 0

/-- Minutes, seconds and frames. -/
def cueParseTimeLoop (vals : UInt32 × UInt32 × UInt32) : Nat → Text →
    Option (UInt32 × UInt32 × UInt32)
  | _, [] => some vals
  | pos, c :: rest =>
    if c = ch ':' then if pos = 2 then some vals else cueParseTimeLoop vals (pos + 1) rest
    else if isDigit c then
      let d := (c - ch '0').toUInt32
      let (m, s, f) := vals
      cueParseTimeLoop (if pos = 0 then (m * 10 + d, s, f) else if pos = 1 then (m, s * 10 + d, f)
        else (m, s, f * 10 + d)) pos rest
    else none

def cueParseTime (token : Text) : Option UInt32 :=
  (cueParseTimeLoop (0, 0, 0) 0 token).map fun (m, s, f) => (m * 60 + s) * 75 + f

/-- A time stored with a sign. -/
def toTime (x : UInt32) : Int := toInt x.toNat

/-! ### Commands -/

namespace CueParser
variable (p : CueParser)

def setErr : CueParser := { p with err := true }

/-- Change the last track, if there is one. -/
def onLast (f : CueTrackProto → CueTrackProto) : CueParser :=
  match p.tracks.getLast? with
  | some t => { p with tracks := p.tracks.dropLast ++ [f t] }
  | none => p

/-- `CUE_PARSE_STR`: a field of the last track, or of the sheet in front of the first one.
The first text stays. -/
def parseField (get : CueMeta → Option Text) (set : CueMeta → Option Text → CueMeta) : CueParser :=
  let (token, src) := cueExtractToken p.src
  let write (m : CueMeta) : CueMeta := set m ((get m).or (some token))
  let p := { p with src := src }
  if p.tracks = [] then { p with info := write p.info }
  else p.onLast fun t => { t with info := write t.info }

def parsePerformer : CueParser := p.parseField (·.performer) fun m v => { m with performer := v }
def parseSongwriter : CueParser := p.parseField (·.songwriter) fun m v => { m with songwriter := v }
def parseTitle : CueParser := p.parseField (·.title) fun m v => { m with title := v }
def parseGenre : CueParser := p.parseField (·.genre) fun m v => { m with genre := v }
def parseDate : CueParser := p.parseField (·.date) fun m v => { m with date := v }
def parseComment : CueParser := p.parseField (·.comment) fun m v => { m with comment := v }
def parseCompilation : CueParser :=
  p.parseField (·.compilation) fun m v => { m with compilation := v }
def parseDiscnumber : CueParser := p.parseField (·.discnumber) fun m v => { m with discnumber := v }

def parseFile : CueParser :=
  let (token, src) := cueExtractToken p.src
  { p with src := src, file := p.file.or (some token) }

def parseTrack : CueParser :=
  let (token, src) := cueExtractToken p.src
  let p := { p with src := src }
  match cueParseInt token with
  | none => p.setErr
  | some d => { p with tracks := p.tracks ++ [⟨d, -1, -1, -1, -1, CueMeta.empty⟩] }

def parseIndex : CueParser :=
  let (token, src) := cueExtractToken p.src
  let p := { p with src := src }
  match cueParseInt token with
  | none => p.setErr
  | some d =>
    if d > 1 then p
    else
      let (token, src) := cueExtractToken p.src
      let p := { p with src := src }
      match cueParseTime token with
      | none => p.setErr
      | some offset =>
        p.onLast fun t =>
          if d = 0 then { t with index0 := toTime offset } else { t with index1 := toTime offset }

def parseGap (post : Bool) : CueParser :=
  let (token, src) := cueExtractToken p.src
  let p := { p with src := src }
  match cueParseTime token with
  | none => p.setErr
  | some gap =>
    p.onLast fun t => if post then { t with postgap := toTime gap } else { t with pregap := toTime gap }

def parsePregap : CueParser := p.parseGap false
def parsePostgap : CueParser := p.parseGap true

def parseCmd (cmds : List (Text × (CueParser → CueParser))) : CueParser :=
  let (token, src) := cueExtractToken p.src
  let p := { p with src := src }
  match cmds.find? fun cmd => cueStrEq token cmd.1 with
  | some (_, parser) => parser p
  | none => p

def parseRem : CueParser :=
  p.parseCmd [(ascii "DATE", parseDate), (ascii "GENRE", parseGenre),
    (ascii "COMMENT", parseComment), (ascii "COMPILATION", parseCompilation),
    (ascii "DISCNUMBER", parseDiscnumber)]

end CueParser

open CueParser in
/-- The commands that a line starts with. -/
def lineCmds : List (Text × (CueParser → CueParser)) :=
  [(ascii "FILE", parseFile), (ascii "PERFORMER", parsePerformer),
    (ascii "SONGWRITER", parseSongwriter), (ascii "TITLE", parseTitle),
    (ascii "TRACK", parseTrack), (ascii "INDEX", parseIndex), (ascii "REM", parseRem),
    (ascii "PREGAP", parsePregap), (ascii "POSTGAP", parsePostgap)]

def CueParser.parseLine (p : CueParser) : CueParser :=
  let p := p.parseCmd lineCmds
  { p with src := cueSkipLine p.src }

/-- The lines of a sheet; each round leaves less of the text. -/
def CueParser.parseLines : Nat → CueParser → CueParser
  | 0, p => p
  | fuel + 1, p => if p.src ≠ [] ∧ p.err = false then parseLines fuel p.parseLine else p

/-! ### The sheet -/

/-- Each number follows the one before, except behind one that is taken for -1. -/
def inOrder : Int → List CueTrackProto → Bool
  | _, [] => true
  | last, t :: rest =>
    if last ≠ -1 ∧ t.nr ≠ UInt32.ofInt (last + 1) then false else inOrder (toTime t.nr) rest

/-- The indices that a track lacks are computed from the other and the gap. -/
def fillIndices (t : CueTrackProto) : CueTrackProto :=
  let pregap := if t.pregap ≠ -1 then t.pregap else 0
  if t.index0 = -1 ∨ t.index1 = -1 then
    if t.index1 ≠ -1 then { t with index0 := toInt (t.index1 - pregap) }
    else { t with index1 := toInt (t.index0 + pregap) }
  else t

def postgapOf (t : CueTrackProto) : Int := if t.postgap ≠ -1 then t.postgap else 0

def fillTracks : Int → List CueTrackProto → Option (List CueTrackProto)
  | _, [] => some []
  | last, t :: rest =>
    if t.index0 = -1 ∧ t.index1 = -1 then none
    else if last ≠ -1 ∧ (fillIndices t).index0 < last then none
    else (fillTracks (toInt ((fillIndices t).index1 + postgapOf t)) rest).map (fillIndices t :: ·)

/-- The file and the tracks of a sheet that is accepted. -/
def cuePostProcess (p : CueParser) : Option (Text × List CueTrackProto) :=
  match p.file with
  | none => none
  | some file =>
    if p.tracks = [] then none
    else if inOrder (-1) p.tracks then (fillTracks (-1) p.tracks).map (file, ·) else none

/-- The length is missing for the last track. -/
structure CueTrack where
  offset : Int
  length : Option Int
  info : CueMeta
deriving DecidableEq

structure CueSheet where
  file : Text
  tracks : List CueTrack
  trackBase : UInt64
  info : CueMeta
deriving DecidableEq

def CueSheet.numTracks (s : CueSheet) : UInt64 := UInt64.ofNat s.tracks.length

def sheetTracks : List CueTrackProto → List CueTrack
  | [] => []
  | [t] => [⟨t.index1, none, t.info⟩]
  | t :: next :: rest =>
    ⟨t.index1, some (toInt (toInt (next.index1 - t.index1) - postgapOf t)), t.info⟩ ::
      sheetTracks (next :: rest)

/-- The number of the last track, in 32 bits, is where the base comes from. -/
def cueParserToSheet (p : CueParser) (file : Text) (tracks : List CueTrackProto) : CueSheet where
  file := file
  tracks := sheetTracks tracks
  trackBase := ((tracks.getLast?.map (·.nr)).getD 0 + 1).toUInt64 - UInt64.ofNat tracks.length
  info := p.info

def cueParse (src : Text) : Option CueSheet :=
  let p := CueParser.parseLines src.length ⟨src, false, none, [], CueMeta.empty⟩
  if p.err then none
  else (cuePostProcess p).map fun (file, tracks) => cueParserToSheet p file tracks

/-- The index of the track that is pointed to; it may be one behind the last. -/
def cueGetTrack (s : CueSheet) (n : UInt64) : Option UInt64 :=
  if n < s.trackBase ∨ n - s.trackBase > s.numTracks then none else some (n - s.trackBase)

end GracefulMusic.Cue
