import GracefulMusic.Paths

/-! Commands that come over the network (`command_mode.c`, `pl.c`, `cmus.c`, `options.c`).

What a command does is the list of its effects on files and programs. Most handlers have
none: they change what is played, shown or looked for, or read files. Those of the unsafe
commands other than `save` are not modelled; what they do counts as one effect. What is
written when the program ends, and what is typed into the command line (`push`), are no
effects of a command. -/
namespace GracefulMusic.Commands

inductive Effect where
  /-- `open` with `O_CREAT | O_TRUNC`. -/
  | create (path : Text)
  | rename (old new : Text)
  /-- A program to be started at each change of the status. -/
  | store (program : Text)
  /-- Whatever an unsafe command does. -/
  | unsafeCommand
  /-- Data for the client. -/
  | reply

inductive View where
  | tree | sorted | playlist | queue | browser | filters | help
  deriving DecidableEq

structure State where
  curView : View
  /-- Whether `get_client_fd` has a client. -/
  client : Bool
  cwd : Text
  homeDir : Text
  /-- `get_home_dir`, for a user or for the own one. -/
  getHomeDir : Option Text → Option Text
  /-- `access` with `F_OK`. -/
  exist : Text → Bool
  /-- The answer to a query at the terminal. -/
  answer : Bool
  playlistDir : Text
  visible : Text
  playlists : List Text
  libFilename : Option Text
  libExtFilename : Option Text
  queueFilename : Option Text
  queueExtFilename : Option Text
  libHasJob : Bool
  queueHasJob : Bool

/-! ### Flags -/

def skipSpaces (str : Text) : Text := str.dropWhile (· = ch ' ')

/-- A flag is a byte between a dash and a space or the end; `--` is none. -/
def isFlag (str : Text) : Bool :=
  match str with
  | d :: c :: rest =>
    d = ch '-' && c ≠ ch '-' && rest.head?.all (· = ch ' ')
  | _ => false

/-- `parse_one_flag`: `none` is an invalid flag, and there may be none. -/
def parseOneFlag (flags : Text) (str : Option Text) : Option (Option UInt8 × Option Text) :=
  let rest (s : Text) : Option Text := if skipSpaces s = [] then none else some (skipSpaces s)
  match str with
  | none => some (none, none)
  | some str =>
    if isFlag str then
      match str with
      | _ :: c :: str => if c ∈ flags then some (some c, rest str) else none
      | _ => none
    else if str.take 2 = ascii "--" ∧ (str.drop 2).head?.all (· = ch ' ') then
      some (none, rest (str.drop 2))
    else some (none, rest str)

def isStdoutLoop : Nat → Text → Bool
  | 0, _ => false
  | fuel + 1, str =>
    if str = [ch '-'] then true
    else if isFlag str then isStdoutLoop fuel (skipSpaces (str.drop 2))
    else false

/-- Each round leaves less of the string. -/
def isStdoutFilename (arg : Option Text) : Bool := arg.any fun str => isStdoutLoop str.length str

/-! ### Handlers -/

variable (s : State)

def expandFilename (name : Text) : Text :=
  if name.head? = some (ch '~') then
    let user := (name.drop 1).takeWhile (· ≠ slash)
    let behind := (name.drop 1).dropWhile (· ≠ slash)
    if behind ≠ [] then
      match s.getHomeDir (if user = [] then none else some user) with
      | some home => home ++ behind
      | none => name
    else if user = [] then s.homeDir
    else (s.getHomeDir (some user)).getD name
  else name

/-- `do_cmus_save` -/
def cmusSave (filename : Text) : List Effect :=
  if filename = ascii "-" then (if s.client then [.reply] else []) else [.create filename]

def doSave (arg dest : Option Text) : List Effect :=
  match arg with
  | some arg => cmusSave s arg
  | none =>
    match dest with
    | some filename => cmusSave s filename
    | none => []

def plNameToPlFile (name : Text) : Text := s.playlistDir ++ slash :: name

def plExportSelectedPl (path : Text) : List Effect :=
  let tmp := expandFilename s path
  if s.exist tmp = false ∨ s.answer then cmusSave s tmp else []

def plSaveAll : List Effect := s.playlists.flatMap fun name => cmusSave s (plNameToPlFile s name)

def viewSave (view : View) (arg : Option Text) (toStdout extended : Bool) : List Effect :=
  let arg := arg.map fun arg =>
    if toStdout then arg else pathAbsoluteCwd (expandFilename s arg) s.cwd
  match view with
  | .tree | .sorted =>
    if s.libHasJob then []
    else doSave s arg (if extended then s.libExtFilename else s.libFilename)
  | .playlist =>
    match arg with
    | some arg => plExportSelectedPl s arg
    | none => plSaveAll s
  | .queue =>
    if s.queueHasJob then []
    else doSave s arg (if extended then s.queueExtFilename else s.queueFilename)
  | _ => []

def flagToView (flag : Option UInt8) : View :=
  if flag = some (ch 'l') ∨ flag = some (ch 'L') then .tree
  else if flag = some (ch 'p') then .playlist
  else if flag = some (ch 'q') ∨ flag = some (ch 'Q') then .queue
  else s.curView

/-- The flags of `save`, up to what is left: the last one but `e`, and whether there was
an `e`. -/
def saveFlags : Nat → Option UInt8 → Bool → Option Text →
    Option (Option UInt8 × Bool × Option Text)
  | 0, _, _, _ => none
  | fuel + 1, flag, extended, arg =>
    match parseOneFlag (ascii "eLlpq") arg with
    | none => none
    | some (none, arg) => some (flag, extended, arg)
    | some (some f, arg) =>
      if f = ch 'e' then saveFlags fuel flag true arg else saveFlags fuel (some f) extended arg

def cmdSave (arg : Option Text) : List Effect :=
  let toStdout := isStdoutFilename arg
  match saveFlags ((arg.getD []).length + 1) none false arg with
  | none => []
  | some (flag, extended, arg) => viewSave s (flagToView s flag) arg toStdout extended

def cmdPlExport (arg : Text) : List Effect :=
  if s.curView = .playlist then plExportSelectedPl s arg else []

def plCheckNewPlName (name : Text) : Bool := slash ∉ name && name ∉ s.playlists

def cmdPlRename (arg : Text) : List Effect :=
  if s.curView = .playlist ∧ s.visible ≠ arg ∧ plCheckNewPlName s arg then
    [.rename (plNameToPlFile s s.visible) (plNameToPlFile s arg)]
  else []

/-- The option and the value, where there is one. -/
def optionValue (arg : Text) : Option (Text × Text) :=
  match arg.dropWhile (· ≠ ch '=') with
  | [] => none
  | _ :: value => some (arg.takeWhile (· ≠ ch '='), value)

/-- No other option is the name of a program. -/
def cmdSet (arg : Text) : List Effect :=
  match optionValue arg with
  | some (name, value) =>
    if name = ascii "status_display_program" ∧ value ≠ [] then [.store (expandFilename s value)]
    else []
  | none => []

inductive Handler where
  | save | plExport | plRename | set | unmodelled | harmless
  deriving DecidableEq

/-- A handler that takes an argument is given one. -/
def Handler.run : Handler → Option Text → List Effect
  | .save, arg => cmdSave s arg
  | .plExport, arg => cmdPlExport s (arg.getD [])
  | .plRename, arg => cmdPlRename s (arg.getD [])
  | .set, arg => cmdSet s (arg.getD [])
  | .unmodelled, _ => [.unsafeCommand]
  | .harmless, _ => []

/-! ### Commands -/

structure Command where
  name : Text
  func : Handler
  minArgs : Int
  maxArgs : Int
  isUnsafe : Bool
  deriving DecidableEq

def commands : List Command := [
  ⟨ascii "add", .harmless, 1, 1, false⟩,
  ⟨ascii "bind", .unmodelled, 1, 1, true⟩,
  ⟨ascii "browser-up", .harmless, 0, 0, false⟩,
  ⟨ascii "cd", .harmless, 0, 1, false⟩,
  ⟨ascii "clear", .harmless, 0, 1, false⟩,
  ⟨ascii "colorscheme", .harmless, 1, 1, false⟩,
  ⟨ascii "echo", .harmless, 1, -1, false⟩,
  ⟨ascii "factivate", .harmless, 0, 1, false⟩,
  ⟨ascii "filter", .harmless, 0, 1, false⟩,
  ⟨ascii "fset", .harmless, 1, 1, false⟩,
  ⟨ascii "help", .harmless, 0, 0, false⟩,
  ⟨ascii "invert", .harmless, 0, 0, false⟩,
  ⟨ascii "live-filter", .harmless, 0, 1, false⟩,
  ⟨ascii "load", .harmless, 1, 1, false⟩,
  ⟨ascii "lqueue", .harmless, 0, 1, false⟩,
  ⟨ascii "mark", .harmless, 0, 1, false⟩,
  ⟨ascii "mute", .harmless, 0, 0, false⟩,
  ⟨ascii "player-next", .harmless, 0, 0, false⟩,
  ⟨ascii "player-next-album", .harmless, 0, 0, false⟩,
  ⟨ascii "player-pause", .harmless, 0, 0, false⟩,
  ⟨ascii "player-pause-playback", .harmless, 0, 0, false⟩,
  ⟨ascii "player-play", .harmless, 0, 1, false⟩,
  ⟨ascii "player-prev", .harmless, 0, 0, false⟩,
  ⟨ascii "player-prev-album", .harmless, 0, 0, false⟩,
  ⟨ascii "player-stop", .harmless, 0, 0, false⟩,
  ⟨ascii "prev-view", .harmless, 0, 0, false⟩,
  ⟨ascii "left-view", .harmless, 0, 0, false⟩,
  ⟨ascii "right-view", .harmless, 0, 0, false⟩,
  ⟨ascii "pl-create", .harmless, 1, -1, false⟩,
  ⟨ascii "pl-export", .plExport, 1, -1, false⟩,
  ⟨ascii "pl-import", .harmless, 0, -1, false⟩,
  ⟨ascii "pl-rename", .plRename, 1, -1, false⟩,
  ⟨ascii "push", .harmless, 0, -1, false⟩,
  ⟨ascii "pwd", .harmless, 0, 0, false⟩,
  ⟨ascii "raise-vte", .harmless, 0, 0, false⟩,
  ⟨ascii "rand", .harmless, 0, 0, false⟩,
  ⟨ascii "quit", .harmless, 0, 1, false⟩,
  ⟨ascii "refresh", .harmless, 0, 0, false⟩,
  ⟨ascii "reshuffle", .harmless, 0, 0, false⟩,
  ⟨ascii "run", .unmodelled, 1, -1, true⟩,
  ⟨ascii "save", .save, 0, 1, true⟩,
  ⟨ascii "search-b-start", .harmless, 0, 0, false⟩,
  ⟨ascii "search-next", .harmless, 0, 0, false⟩,
  ⟨ascii "search-prev", .harmless, 0, 0, false⟩,
  ⟨ascii "search-start", .harmless, 0, 0, false⟩,
  ⟨ascii "seek", .harmless, 1, 1, false⟩,
  ⟨ascii "set", .set, 1, 1, false⟩,
  ⟨ascii "shell", .unmodelled, 1, -1, true⟩,
  ⟨ascii "showbind", .harmless, 1, 1, false⟩,
  ⟨ascii "shuffle", .harmless, 0, 0, false⟩,
  ⟨ascii "source", .unmodelled, 1, 1, true⟩,
  ⟨ascii "toggle", .harmless, 1, 1, false⟩,
  ⟨ascii "tqueue", .harmless, 0, 1, false⟩,
  ⟨ascii "unbind", .harmless, 1, 1, false⟩,
  ⟨ascii "unmark", .harmless, 0, 0, false⟩,
  ⟨ascii "update-cache", .harmless, 0, 1, false⟩,
  ⟨ascii "version", .harmless, 0, 0, false⟩,
  ⟨ascii "view", .harmless, 1, 1, false⟩,
  ⟨ascii "vol", .harmless, 1, 2, false⟩,
  ⟨ascii "w", .save, 0, 1, true⟩,
  ⟨ascii "win-activate", .harmless, 0, 0, false⟩,
  ⟨ascii "win-add-l", .harmless, 0, 1, false⟩,
  ⟨ascii "win-add-p", .harmless, 0, 1, false⟩,
  ⟨ascii "win-add-Q", .harmless, 0, 1, false⟩,
  ⟨ascii "win-add-q", .harmless, 0, 1, false⟩,
  ⟨ascii "win-bottom", .harmless, 0, 0, false⟩,
  ⟨ascii "win-down", .harmless, 0, 1, false⟩,
  ⟨ascii "win-half-page-down", .harmless, 0, 0, false⟩,
  ⟨ascii "win-half-page-up", .harmless, 0, 0, false⟩,
  ⟨ascii "win-mv-after", .harmless, 0, 0, false⟩,
  ⟨ascii "win-mv-before", .harmless, 0, 0, false⟩,
  ⟨ascii "win-next", .harmless, 0, 0, false⟩,
  ⟨ascii "win-page-bottom", .harmless, 0, 0, false⟩,
  ⟨ascii "win-page-down", .harmless, 0, 0, false⟩,
  ⟨ascii "win-page-middle", .harmless, 0, 0, false⟩,
  ⟨ascii "win-page-top", .harmless, 0, 0, false⟩,
  ⟨ascii "win-page-up", .harmless, 0, 0, false⟩,
  ⟨ascii "win-remove", .unmodelled, 0, 0, true⟩,
  ⟨ascii "win-scroll-down", .harmless, 0, 0, false⟩,
  ⟨ascii "win-scroll-up", .harmless, 0, 0, false⟩,
  ⟨ascii "win-sel-cur", .harmless, 0, 0, false⟩,
  ⟨ascii "win-toggle", .harmless, 0, 0, false⟩,
  ⟨ascii "win-top", .harmless, 0, 0, false⟩,
  ⟨ascii "win-up", .harmless, 0, 1, false⟩,
  ⟨ascii "win-update", .harmless, 0, 0, false⟩,
  ⟨ascii "win-update-cache", .harmless, 0, 1, false⟩,
  ⟨ascii "wq", .harmless, 0, 1, false⟩]

inductive Refusal where
  | unknown | ambiguous | notEnough | tooMany | unsafeOverNet
  deriving DecidableEq

/-- An abbreviation stands for the first command, unless it stands for the next one too. -/
def findCommand (cmd : Text) : List Command → Except Refusal Command
  | [] => .error .unknown
  | c :: rest =>
    if cmd.isPrefixOf c.name then
      if c.name.length ≠ cmd.length ∧ rest.head?.any (cmd.isPrefixOf ·.name) then
        .error .ambiguous
      else .ok c
    else findCommand cmd rest

variable (onlySafe : Bool)

/-- The checks for the command that was found, with the flag `run_only_safe_commands`. -/
def runFound (c : Command) (arg : Option Text) : Except Refusal (List Effect) :=
  if c.minArgs > 0 ∧ arg = none then .error .notEnough
  else if c.maxArgs = 0 ∧ arg ≠ none then .error .tooMany
  else if onlySafe ∧ c.isUnsafe ∧ (c.func ≠ .save ∨ isStdoutFilename arg = false) then
    .error .unsafeOverNet
  else .ok (c.func.run s arg)

def runParsedCommand (cmd : Text) (arg : Option Text) : Except Refusal (List Effect) :=
  match findCommand cmd commands with
  | .error e => .error e
  | .ok c => runFound s onlySafe c arg

end GracefulMusic.Commands
