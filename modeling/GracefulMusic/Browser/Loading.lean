import GracefulMusic.Playlist.Files
import GracefulMusic.Urls.Strings
import GracefulMusic.Window.Changes

/-! The browser (`browser.c`, `load_dir.c`).

The entries are the rows of the window. The window dangles while it points to entries that
were freed, and what looks at its rows then has no outcome (`none`). The file system stays
the same during one operation. Messages, and what the player does with a file, are left
out. -/
namespace GracefulMusic.Browser

inductive Errno where
  | enoent | enotdir | enametoolong
  | other (code : Nat)
  deriving DecidableEq

inductive FileKind where
  | reg | dir | other
  deriving DecidableEq

abbrev FileName := { name : Text // 0 ∉ name }

/-- How the system calls end. A directory has its names in the order of `readdir`, each with
what it leads to, if that can be found out; an empty file is mapped to nothing. -/
structure FileSystem where
  stat : Text → Except Errno FileKind
  mmapFile : Text → Except Errno Text
  opendir : Text → Except Errno (List (FileName × Option FileKind))
  chdir : Text → Option Errno
  unlink : Text → Option Errno

structure Options where
  showHidden : Bool
  scrollOffset : Nat
  playableExts : List Text

/-! ### Entries -/

inductive EntryType where
  | dir | file | plline
  deriving DecidableEq

structure Entry where
  type : EntryType
  name : Text
  noNul : 0 ∉ name

def parentDir : Entry := ⟨.dir, ascii "../", by decide⟩

def entryCmp (a b : Entry) : Int :=
  if a.type = .dir then
    if b.type = .file then -1
    else if strcmp a.name (ascii "../") = 0 then -1
    else if strcmp b.name (ascii "../") = 0 then 1
    else strcmp a.name b.name
  else if b.type = .dir then 1
  else strcmp a.name b.name

/-- The place of a new entry is looked for from the end of the list. -/
def insertEntry (entries : List Entry) (e : Entry) : List Entry :=
  entries.rdropWhile (fun other => entryCmp e other < 0) ++
    e :: entries.rtakeWhile fun other => entryCmp e other < 0

def playlistExts : List Text := [ascii "m3u", ascii "pl", ascii "pls"]

def getExt (filename : Text) : Option Text :=
  if ch '.' ∈ filename then some (filename.rtakeWhile (· ≠ ch '.')) else none

def strInArray (s : Text) (array : List Text) : Bool := array.any (strcasecmp s · = 0)

def cmusIsPlaylist (filename : Text) : Bool := (getExt filename).any (strInArray · playlistExts)

def cmusIsSupported (o : Options) (filename : Text) : Bool :=
  (getExt filename).any fun ext => strInArray ext o.playableExts || strInArray ext playlistExts

def normalFilter (o : Options) (name : Text) (kind : FileKind) : Bool :=
  if name.head? = some (ch '.') then name = ascii ".."
  else kind = .dir || cmusIsSupported o name

def hiddenFilter (name : Text) : Bool := name ≠ ascii "."

/-- `dir_read`: names that are too long, or lead nowhere, are passed over. -/
def dirRead (dirname : Text) (names : List (FileName × Option FileKind)) :
    List (FileName × FileKind) :=
  names.filterMap fun (name, kind) =>
    if dirname.length + 1 + name.val.length + 2 ≥ 1024 then none
    else kind.map fun kind => (name, kind)

theorem slash_notMem {name : Text} (h : 0 ∉ name) : 0 ∉ name ++ [slash] := by
  intro hmem
  rcases List.mem_append.mp hmem with hname | hslash
  · exact h hname
  · exact absurd (List.mem_singleton.mp hslash) (by decide)

/-- The entry for a name in a directory, if it is shown. -/
def dirEntry (o : Options) (dirname : Text) (name : FileName) (kind : FileKind) : Option Entry :=
  if ¬ (if o.showHidden then hiddenFilter name.val else normalFilter o name.val kind) then none
  else if dirname = [slash] ∧ name.val = ascii ".." then none
  else if kind = .dir then some ⟨.dir, name.val ++ [slash], slash_notMem name.2⟩
  else some ⟨.file, name.val, name.2⟩

def dirEntries (o : Options) (dirname : Text) (names : List (FileName × Option FileKind)) :
    List Entry :=
  ((dirRead dirname names).filterMap fun (name, kind) => dirEntry o dirname name kind).foldl
    insertEntry []

theorem toLine_noNul (s : Text) : 0 ∉ Pl.toLine s := by
  intro h
  exact absurd (List.mem_takeWhile_imp h) (by decide)

/-- An empty playlist is not even given a parent directory. -/
def plEntries (buf : Text) : List Entry :=
  if buf = [] then []
  else parentDir :: (Pl.cmusPlaylistForEach buf false).map fun line =>
    ⟨.plline, Pl.toLine line, toLine_noNul line⟩

/-! ### Loading -/

/-- `browser_head` and `browser_win`, and `browser_dir`. -/
structure Browser where
  window : Window Entry
  dangling : Bool
  browserDir : Text

variable (fs : FileSystem) (o : Options)

def dirOpen (name : Text) : Except Errno (List (FileName × Option FileKind)) :=
  if 1022 ≤ name.length then .error .enametoolong else fs.opendir name

/-- The new list, where the old one is freed. -/
def listing (name : Text) : Except Errno (List Entry) :=
  match fs.stat name with
  | .error e => .error e
  | .ok kind =>
    if kind = .reg ∧ cmusIsPlaylist name then (fs.mmapFile name).map plEntries
    else if kind = .dir then (dirOpen fs name).map (dirEntries o name)
    else .error .enotdir

/-- The window is left pointing to the old entries, or to the head of the list. -/
def replaceList (s : Browser) (entries : List Entry) : Browser where
  window := {s.window with rows := entries, top := entries.length, sel := entries.length}
  dangling := s.dangling || !s.window.rows.isEmpty
  browserDir := s.browserDir

/-- Changing into the directory comes last. -/
def doBrowserLoad (s : Browser) (name : Text) : Browser × Option Errno :=
  match listing fs o name with
  | .error e => (s, some e)
  | .ok entries =>
    (replaceList s entries, if fs.stat name = .ok .dir then fs.chdir name else none)

def browserLoad (s : Browser) (name : Text) : Option (Browser × Option Errno) :=
  match doBrowserLoad fs o s name with
  | (s, some e) => some (s, some e)
  | (s, none) => (s.window.setContents s.window.rows).map fun window => (⟨window, false, name⟩, none)

/-- `browser_init`: of the loads only the list is left. -/
def browserInit (cwd : Option Text) (s : Browser) : Option Browser :=
  let dir := cwd.getD [slash]
  let load := doBrowserLoad fs o s dir
  let loaded := if load.2 = none then load.1 else (doBrowserLoad fs o load.1 [slash]).1
  (loaded.window.setContents loaded.window.rows).map fun window =>
    ⟨window, false, if load.2 = none then dir else [slash]⟩

/-! ### Operations -/

/-- The directory above, and what is behind its last slash. -/
def above (dir : Text) : Option (Text × Text) :=
  (splitSlash dir).map fun (front, behind) => (if front = [] then [slash] else front, behind)

/-- The first row that meets a condition is selected, if there is one. -/
def selectRow (s : Browser) (p : Entry → Bool) : Option Browser :=
  match s.window.rows.findIdx? p with
  | none => some s
  | some i => (s.window.setSel o.scrollOffset i).map fun window => {s with window}

def isOldPosition (pos : Text) (e : Entry) : Bool :=
  pos.isPrefixOf e.name && ((e.name.drop pos.length).head?.all (· = slash))

/-- With the error of the last load. Each directory is shorter than the one below it. -/
def browserUpLoop : Nat → Browser → Option Errno → Option (Browser × Option Errno)
  | 0, _, _ => none
  | fuel + 1, s, error =>
    if s.browserDir = [slash] then some (s, error)
    else
      match above s.browserDir with
      | none => none
      | some (new, pos) =>
        match browserLoad fs o s new with
        | none => none
        | some (s, some e) =>
          if e = .enoent then browserUpLoop fuel {s with browserDir := new} (some e)
          else some (s, some e)
        | some (s, none) => (selectRow o s (isOldPosition pos)).map fun s => (s, none)

def browserUp (s : Browser) : Option (Browser × Option Errno) :=
  browserUpLoop fs o (s.browserDir.length + 1) s none

def fullname (path name : Text) : Text :=
  (if path.getLast? = some slash then path.dropLast else path) ++ slash :: name

def stripSlash (path : Text) : Text := if path.getLast? = some slash then path.dropLast else path

def browserCd (s : Browser) (dir : Text) : Option (Browser × Option Errno) :=
  if dir = ascii "../" then browserUp fs o s
  else browserLoad fs o s (stripSlash (fullname s.browserDir dir))

def selected (s : Browser) : Option (Option Entry) :=
  if s.dangling then none else some s.window.rows[s.window.sel]?

def enterEntry (s : Browser) (e : Entry) : Option (Browser × Option Errno) :=
  if e.name = [] then some (s, none)
  else
    match e.type with
    | .dir => browserCd fs o s e.name
    | .plline => some (s, none)
    | .file =>
      let filename := fullname s.browserDir e.name
      if cmusIsPlaylist filename then browserLoad fs o s filename else some (s, none)

def deleteEntry (s : Browser) (e : Entry) : Option Browser :=
  if e.name ≠ [] ∧ e.type = .file ∧ fs.unlink (fullname s.browserDir e.name) = none then
    (s.window.rowVanishes s.window.sel).map fun window =>
      {s with window := window.remove s.window.sel}
  else some s

def browserReload (s : Browser) : Option (Browser × Option Errno) :=
  (selected s).bind fun sel =>
    match browserLoad fs o s s.browserDir with
    | none => none
    | some (s, some e) => some (s, some e)
    | some (s, none) =>
      match sel with
      | none => some (s, none)
      | some e => (selectRow o s (strcmp ·.name e.name = 0)).map fun s => (s, none)

abbrev AbsolutePath := { path : Text // path.head? = some slash }

inductive Op where
  | enter
  | up
  /-- `browser_chdir`, for the command `cd`. -/
  | chdir (dir : AbsolutePath)
  | reload
  /-- With the answer to the query. -/
  | delete (answer : Bool)
  /-- What else is done with the window. -/
  | moved (nrRows top sel : Nat)

structure Input where
  fs : FileSystem
  options : Options
  op : Op

/-- The error is that of the last load of the operation, if that failed. -/
def operate (s : Browser) (i : Input) : Option (Browser × Option Errno) :=
  match i.op with
  | .enter => (selected s).bind fun sel =>
    match sel with
    | none => some (s, none)
    | some e => enterEntry i.fs i.options s e
  | .up => browserUp i.fs i.options s
  | .chdir dir => browserLoad i.fs i.options s dir.val
  | .reload => browserReload i.fs i.options s
  | .delete answer => (selected s).bind fun sel =>
    match sel with
    | none => some (s, none)
    | some e =>
      if answer then (deleteEntry i.fs s e).map fun s => (s, none) else some (s, none)
  | .moved nrRows top sel => some ({s with window := {s.window with nrRows, top, sel}}, none)

def step (s : Browser) (i : Input) : Option Browser := (operate s i).map (·.1)

end GracefulMusic.Browser
