import GracefulMusic.Expr.Eval
import GracefulMusic.Paths

/-! Playlist files (`cmus.c`, `job.c`, `file.c`).

A file is read as the lines that the callback gets; none of the callbacks stops the
reading, as long as the job is not cancelled. Sizes fit into an `int`. -/
namespace GracefulMusic.Pl
open GracefulMusic.Expr (isHttpUrl)

def isCddaUrl (name : Text) : Bool := (ascii "cdda://").isPrefixOf name

def isCueUrl (name : Text) : Bool := (ascii "cue://").isPrefixOf name

/-- `save_playlist_cb` for each track. -/
def savePlaylist (filenames : List Text) : Text := filenames.flatMap (· ++ [ch '\n'])

/-! ### Lines -/

/-- The callback gets a string, which ends before a NUL. -/
def toLine (bytes : Text) : Text := bytes.takeWhile (· ≠ 0)

def stripCr (row : Text) : Text := if row.getLast? = some (ch '\r') then row.dropLast else row

def forEachLineLoop : Nat → Text → List Text
  | 0, _ => []
  | fuel + 1, buf =>
    if buf = [] then []
    else
      let row := buf.takeWhile (· ≠ ch '\n')
      toLine (stripCr row) :: forEachLineLoop fuel (buf.drop (row.length + 1))

def bufferForEachLine (buf : Text) : List Text := forEachLineLoop buf.length buf

/-- The loop over what is in front of `end`, with the byte there. That byte is taken for
a newline. -/
def forEachLineReverseLoop : Nat → Text → List Text
  | 0, _ => []
  | fuel + 1, buf =>
    if buf = [] then []
    else
      let front := buf.dropLast
      let front :=
        if 2 < buf.length ∧ buf.getLast? = some (ch '\n') ∧ front.getLast? = some (ch '\r') then
          front.dropLast
        else front
      toLine (front.rtakeWhile (· ≠ ch '\n')) ::
        forEachLineReverseLoop fuel (front.rdropWhile (· ≠ ch '\n'))

def bufferForEachLineReverse (buf : Text) : List Text := forEachLineReverseLoop buf.length buf

/-! ### Formats -/

def plHandleLine (line : Text) : Option Text :=
  match line.dropWhile isSpace with
  | [] => none
  | c :: _ => if c = ch '#' then none else some line

def plsHandleLine (line : Text) : Option Text :=
  if (line.take 4).map toLower ≠ ascii "file" then none
  else
    match line.dropWhile (· ≠ ch '=') with
    | [] => none
    | _ :: value => some value

/-- The names that the callback gets. -/
def cmusPlaylistForEach (buf : Text) (reverse : Bool) : List Text :=
  let handler := if (buf.take 10).map toLower = ascii "[playlist]" then plsHandleLine
    else plHandleLine
  (if reverse then bufferForEachLineReverse buf else bufferForEachLine buf).filterMap handler

/-- What is asked for by `add_file`. -/
def handleLine (cwd line : Text) : Text :=
  if isHttpUrl line || isCueUrl line then line else pathAbsoluteCwd line cwd

/-- The job for a playlist, which is read backwards for a prepend. -/
def addPl (filename buf : Text) (prepend : Bool) : List Text :=
  (cmusPlaylistForEach buf prepend).map (handleLine (filename ++ ascii "/.."))

/-! ### Names -/

/-- The name of a track. -/
structure TrackName where
  text : Text
  noNul : 0 ∉ text
  held : (NormalPath text ∧ ch '\n' ∉ text ∧ text.getLast? ≠ some (ch '\r')) ∨
    isHttpUrl text = true ∨ isCueUrl text = true ∨ isCddaUrl text = true

/-- The file of a playlist, an absolute path. -/
structure Location where
  filename : Text
  absolute : filename.head? = some slash

end GracefulMusic.Pl
