import GracefulMusic.Library.TreeOrder
import GracefulMusic.Playlist.RoundTrip
import GracefulMusic.Urls.Cdda
import GracefulMusic.Urls.CueTracks

/-! Adding to the play queue (`job.c`, `play_queue.c`).

A job that is not cancelled asks for its files one after the other, and what it finds is
handed over in buffers of 32 tracks. A name gets into the cache only where no cue sheet was
found for it, so the cache is the one that the job starts with. The queue has no sort keys:
it is the list of its tracks. -/
namespace GracefulMusic.Queue
open GracefulMusic.Pl (isCueUrl addPl)
open GracefulMusic.Expr (isHttpUrl)

/-- The file system and the cache. A cue sheet is found for a file with the number of its
tracks, which the loop over them can count; a track is found where it can be read. -/
structure Files (T : Type) where
  cached : Text → Bool
  associatedCue : Text → Option (Text × Int)
  cacheGetTi : Text → Bool → Option T
  counted : ∀ filename cue n, associatedCue filename = some (cue, n) → n < intMax

variable {T : Type} (files : Files T)

/-- What `add_file_cue` calls `add_file` with. -/
def cueUrls (filename : Text) : List Text :=
  match files.associatedCue filename with
  | some (cueFilename, nTracks) => (interval 1 nTracks).map (Cue.constructCueUrl cueFilename)
  | none => []

/-- The tracks that a name stands for: those of its cue sheet, or else the one. The URLs of
a cue sheet have no cue sheet themselves. -/
def addFile (force : Bool) (filename : Text) : List T :=
  if isCueUrl filename = false ∧ (force ∨ files.cached filename = false) ∧
      cueUrls files filename ≠ [] then
    (cueUrls files filename).filterMap (files.cacheGetTi · false)
  else (files.cacheGetTi filename force).toList

/-! ### Directories -/

/-- A name in a directory. -/
abbrev FileName := { name : Text // 0 ∉ name }

/-- A directory has the names that it is read with. -/
inductive Node where
  | file
  | dir (entries : List (FileName × Node))

mutual
/-- No directory has a name twice. -/
def Node.Distinct : Node → Prop
  | .file => True
  | .dir entries => (entries.map (·.1)).Nodup ∧ DistinctBelow entries

def DistinctBelow : List (FileName × Node) → Prop
  | [] => True
  | (_, node) :: entries => node.Distinct ∧ DistinctBelow entries
end

/-- `.nomusic` and `.nomedia`. -/
def isMarker (name : FileName) : Bool :=
  name.val = ascii ".nomusic" || name.val = ascii ".nomedia"

/-- The order of `dir_entry_cmp`, or of `dir_entry_cmp_reverse`. -/
def entryLe (prepend : Bool) (a b : FileName × List Text) : Bool :=
  if prepend then strcmp b.1.val a.1.val ≤ 0 else strcmp a.1.val b.1.val ≤ 0

mutual
/-- `add_dir`: the files below a path, in the order they are asked for. -/
def addNode (prepend : Bool) (path : Text) : Node → List Text
  | .file => [path]
  | .dir entries =>
    if entries.any (isMarker ·.1) then []
    else ((addEntries prepend path entries).mergeSort (entryLe prepend)).flatMap (·.2)

/-- The entries that are not hidden, each with the files below it. -/
def addEntries (prepend : Bool) (path : Text) :
    List (FileName × Node) → List (FileName × List Text)
  | [] => []
  | (name, node) :: entries =>
    if name.val.head? = some (ch '.') then addEntries prepend path entries
    else
      (name, addNode prepend (path ++ slash :: name.val) node) ::
        addEntries prepend path entries
end

/-! ### Jobs -/

/-- What can be added, with the text of a playlist. -/
inductive Request where
  | url (name : Text)
  | cdda (name : Text)
  | pl (name buf : Text)
  | dir (name : Text) (entries : List (FileName × Node)) (distinct : (Node.dir entries).Distinct)
  | file (name : Text) (force : Bool)

/-- The tracks in the order in which `add_ti` gets them, as long as the loop of `add_cdda`
takes no more than the given rounds. -/
def addTracks (rounds : Nat) (prepend : Bool) : Request → Option (List T)
  | .url name => some (addFile files false name)
  | .cdda name => (Cdda.addCdda rounds name).map fun names => names.flatMap (addFile files false)
  | .pl name buf => some ((addPl name buf prepend).flatMap (addFile files false))
  | .dir name entries _ =>
    some ((addNode prepend name (.dir entries)).flatMap (addFile files false))
  | .file name force => some (addFile files force name)

/-- The results that are flushed, and the buffer. -/
def addTi (s : List (List T) × List T) (ti : T) : List (List T) × List T :=
  if s.2.length = 32 then (s.1 ++ [s.2], [ti]) else (s.1, s.2 ++ [ti])

/-- The results of `do_add_job`. -/
def addJob (tracks : List T) : List (List T) :=
  let s := tracks.foldl addTi ([], [])
  if s.2 = [] then s.1 else s.1 ++ [s.2]

def playQueueAppend (queue : List T) (ti : T) : List T := queue ++ [ti]

def playQueuePrepend (queue : List T) (ti : T) : List T := ti :: queue

/-- `job_handle_add_result` for the results in order. -/
def handleResults (add : List T → T → List T) (results : List (List T)) (queue : List T) : List T :=
  results.foldl (fun queue tis => tis.foldl add queue) queue

/-- The queue after a job that is done. -/
def queueAfter (rounds : Nat) (prepend : Bool) (request : Request) (queue : List T) :
    Option (List T) :=
  (addTracks files rounds prepend request).map fun tracks =>
    handleResults (if prepend then playQueuePrepend else playQueueAppend) (addJob tracks) queue

/-- Prepending puts in front what appending to an empty queue gives. -/
def KeepsOrder (request : Request) : Prop :=
  ∀ (rounds : Nat) (old appended prepended : List T),
    queueAfter files rounds false request [] = some appended →
    queueAfter files rounds true request old = some prepended → prepended = appended ++ old

/-! ### Symmetry -/

/-- The tracks are the same backwards, as one track or none are. -/
def Symmetric (tracks : List T) : Prop := tracks.reverse = tracks

/-- The handler for the lines of a playlist, which depends on the beginning of its text. -/
def handlerOf (buf : Text) : Text → Option Text :=
  if (buf.take 10).map toLower = ascii "[playlist]" then Pl.plsHandleLine else Pl.plHandleLine

/-- The tracks that a line of a playlist stands for. -/
def lineTracks (filename : Text) (handler : Text → Option Text) (line : Text) : List T :=
  (handler (Pl.toLine line)).toList.flatMap fun name =>
    addFile files false (Pl.handleLine (filename ++ ascii "/..") name)

/-- The lines of a buffer, and what comes after the last newline. -/
structure Lines (buf : Text) (rows : List Text) (last : Text) : Prop where
  joined : buf = Pl.savePlaylist rows ++ last
  rows : ∀ row ∈ rows, ch '\n' ∉ row
  last : ch '\n' ∉ last

/-- Each name that is asked for has tracks that are the same backwards, and where the last
line of a playlist has no newline, its last byte makes no difference. -/
def ReadsBothWays : Request → Prop
  | .url name => Symmetric (addFile files false name)
  | .cdda name => ∀ rounds names, Cdda.addCdda rounds name = some names →
      Symmetric (names.flatMap (addFile files false))
  | .pl name buf => ∀ rows last, Lines buf rows last →
      (∀ row ∈ rows, Symmetric (lineTracks files name (handlerOf buf) (Pl.stripCr row))) ∧
        (lineTracks files name (handlerOf buf) last.dropLast).reverse =
          lineTracks files name (handlerOf buf) (Pl.stripCr last)
  | .dir name entries _ =>
      ∀ path ∈ addNode false name (.dir entries), Symmetric (addFile files false path)
  | .file name force => Symmetric (addFile files force name)

end GracefulMusic.Queue
