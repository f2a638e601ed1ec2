import GracefulMusic.Commands.Table
import GracefulMusic.Filters.CheckLeaves

/-! Key bindings, filters and the file they are saved to (`keys.c`, `filters.c`, `options.c`).

`options_exit` writes a command for each binding and filter, and the next start runs them.
Commands are lines, so no text here has a newline in it; the `set` lines are left out, and
so are the help entries of the bindings and what an activation does to the library. A key
is known by its name, and the rows of the filter window by their position. -/
namespace GracefulMusic.Autosave
open Expr (Env exprParse)
open Filters Commands

/-! ### Keys -/

inductive Context where
  | browser | common | filters | library | playlist | queue | settings
  deriving DecidableEq

def contexts : List Context :=
  [.browser, .common, .filters, .library, .playlist, .queue, .settings]

/-- `key_context_names`. -/
def Context.name : Context → Text
  | .browser => ascii "browser"
  | .common => ascii "common"
  | .filters => ascii "filters"
  | .library => ascii "library"
  | .playlist => ascii "playlist"
  | .queue => ascii "queue"
  | .settings => ascii "settings"

/-- The names of `key_table`. -/
def keyNames : List String := [
  "!", "\"", "#", "$", "%", "&", "'", "(", ")", "*", "+", ",", "-", ".", "/", "0", "1", "2", "3",
  "4", "5", "6", "7", "8", "9", ":", ";", "<", "=", ">", "?", "@", "A", "B", "C", "D", "E", "F",
  "F1", "F10", "F11", "F12", "F2", "F3", "F4", "F5", "F6", "F7", "F8", "F9", "G", "H", "I", "J",
  "K", "KP_center", "KP_lower_left", "KP_lower_right", "KP_upper_left", "KP_upper_right", "L",
  "M", "M-!", "M-\"", "M-#", "M-$", "M-%", "M-&", "M-'", "M-(", "M-)", "M-*", "M-+", "M-,",
  "M--", "M-.", "M-/", "M-0", "M-1", "M-2", "M-3", "M-4", "M-5", "M-6", "M-7", "M-8", "M-9",
  "M-:", "M-;", "M-<", "M-=", "M->", "M-?", "M-@", "M-A", "M-B", "M-C", "M-D", "M-E", "M-F",
  "M-G", "M-H", "M-I", "M-J", "M-K", "M-L", "M-M", "M-N", "M-O", "M-P", "M-Q", "M-R", "M-S",
  "M-T", "M-U", "M-V", "M-W", "M-X", "M-Y", "M-Z", "M-[", "M-\\", "M-]", "M-^", "M-^?", "M-^@",
  "M-^A", "M-^B", "M-^C", "M-^D", "M-^E", "M-^F", "M-^G", "M-^H", "M-^I", "M-^J", "M-^K", "M-^L",
  "M-^M", "M-^N", "M-^O", "M-^P", "M-^Q", "M-^R", "M-^S", "M-^T", "M-^U", "M-^V", "M-^W", "M-^X",
  "M-^Y", "M-^Z", "M-^[", "M-^\\", "M-^]", "M-^^", "M-^_", "M-_", "M-`", "M-a", "M-b", "M-c",
  "M-d", "M-e", "M-f", "M-g", "M-h", "M-i", "M-j", "M-k", "M-l", "M-m", "M-n", "M-o", "M-p",
  "M-q", "M-r", "M-s", "M-space", "M-t", "M-u", "M-v", "M-w", "M-x", "M-y", "M-z", "M-\x7b",
  "M-|", "M-\x7d", "M-~", "N", "O", "P", "Q", "R", "S", "S-begin", "S-cancel", "S-command",
  "S-copy", "S-create", "S-del_line", "S-delete", "S-eol", "S-exit", "S-find", "S-help",
  "S-home", "S-insert", "S-left", "S-message", "S-move", "S-next", "S-options", "S-previous",
  "S-print", "S-redo", "S-replace", "S-resume", "S-right", "S-save", "S-suspend", "S-undo", "T",
  "U", "V", "W", "X", "Y", "Z", "[", "\\", "]", "^", "^A", "^B", "^C", "^D", "^E", "^F", "^G",
  "^H", "^K", "^L", "^M", "^N", "^O", "^P", "^Q", "^R", "^S", "^T", "^U", "^V", "^W", "^X", "^Y",
  "^Z", "^\\", "^]", "^^", "^_", "_", "`", "a", "b", "back_tab", "backspace", "begin", "c",
  "cancel", "clear", "clear_all_tabs", "clear_tab", "close", "command", "copy", "create", "d",
  "del_line", "delete", "down", "e", "eic", "end", "enter", "eol", "eos", "exit", "f", "find",
  "g", "h", "help", "home", "i", "ins_line", "insert", "j", "k", "l", "left", "lower_left", "m",
  "mark", "message", "move", "n", "next", "o", "open", "options", "p", "page_down", "page_up",
  "previous", "print", "q", "r", "redo", "reference", "refresh", "replace", "restart", "resume",
  "right", "s", "save", "scroll_b", "scroll_f", "select", "send", "set_tab", "space", "suspend",
  "t", "tab", "u", "undo", "up", "v", "w", "x", "y", "z", "\x7b", "|", "\x7d", "~", "mlb_click",
  "mlb_click_selected", "mlb_click_bar", "mlb_click_title", "mrb_click", "mrb_click_selected",
  "mrb_click_bar", "mrb_click_title", "mouse_scroll_up", "mouse_scroll_up_bar",
  "mouse_scroll_up_title", "mouse_scroll_down", "mouse_scroll_down_bar",
  "mouse_scroll_down_title"]

def keyTable : List Text := keyNames.map ascii

structure Binding where
  key : Text
  cmd : Text
  deriving DecidableEq

/-- `key_bindings`, each list sorted by key, and `filters_head`. -/
structure Settings where
  keyBindings : Context → List Binding
  filters : List FilterEntry

def Settings.empty : Settings := ⟨fun _ => [], []⟩

def findContext (name : Text) : Option Context := contexts.find? fun c => c.name = name

def findKey (name : Text) : Option Text := keyTable.find? fun k => k = name

namespace Settings

def setBindings (s : Settings) (c : Context) (bindings : List Binding) : Settings :=
  {s with keyBindings := Function.update s.keyBindings c bindings}

def keyUnbind (s : Settings) (context key : Text) : Settings :=
  match findContext context, findKey key with
  | some c, some k => s.setBindings c ((s.keyBindings c).eraseP fun b => b.key = k)
  | _, _ => s

/-- Insert keeping sorted by key. -/
def insertBinding (b : Binding) : List Binding → List Binding
  | [] => [b]
  | ptr :: rest =>
    if strcmp b.key ptr.key < 0 then b :: ptr :: rest else ptr :: insertBinding b rest

def keyBind (s : Settings) (context key cmd : Text) (force : Bool) : Settings :=
  match findContext context, findKey key with
  | some c, some k =>
    let bound := (s.keyBindings c).any fun b => b.key = k
    if bound && !force then s
    else
      let s := if bound then s.keyUnbind context key else s
      let cmd := if cmd.head? = some (ch ':') then cmd.tail else cmd
      s.setBindings c (insertBinding ⟨k, cmd⟩ (s.keyBindings c))
  | _, _ => s

/-! ### Commands on keys -/

/-- The loop of `parse_flags`: the last flag counts, `none` is an invalid one. -/
def parseFlagsLoop (flags : Text) : Nat → Option UInt8 → Text → Option (Option UInt8 × Text)
  | 0, flag, str => some (flag, str)
  | fuel + 1, flag, str =>
    if isFlag str then
      match str with
      | _ :: c :: str =>
        if c ∈ flags then parseFlagsLoop flags fuel (some c) (skipSpaces str) else none
      | _ => none
    else if str.take 2 = ascii "--" ∧ (str.drop 2).head?.all (· = ch ' ') then
      some (flag, str.drop 2)
    else some (flag, str)

def parseFlags (flags : Text) (arg : Option Text) : Option (Option UInt8 × Option Text) :=
  match arg with
  | none => some (none, none)
  | some str => (parseFlagsLoop flags str.length none str).map fun r =>
    (r.1, if skipSpaces r.2 = [] then none else some (skipSpaces r.2))

/-- The word before the first space, and what follows the spaces. -/
def cutWord (str : Text) : Option (Text × Text) :=
  if ch ' ' ∈ str then
    some (str.takeWhile (· ≠ ch ' '), skipSpaces (str.dropWhile (· ≠ ch ' ')))
  else none

def cmdBind (s : Settings) (arg : Option Text) : Settings :=
  match parseFlags (ascii "f") arg with
  | none => s
  | some (flag, arg) =>
    match arg.bind cutWord with
    | none => s
    | some (context, rest) =>
      match cutWord rest with
      | none => s
      | some (key, func) =>
        if func = [] then s else s.keyBind context key func (flag = some (ch 'f'))

def stripTrailingSpaces (str : Text) : Text := str.rdropWhile (· = ch ' ')

def cmdUnbind (s : Settings) (arg : Option Text) : Settings :=
  match parseFlags (ascii "f") arg with
  | none => s
  | some (_, arg) =>
    match arg.bind cutWord with
    | none => s
    | some (context, key) =>
      if key = [] then s else s.keyUnbind context (stripTrailingSpaces key)

/-! ### Filters -/

def validateFilterName (name : Text) : Bool :=
  name ≠ [] && name.all fun c => isAlpha c || isDigit c || c = ch '_' || c = ch '-'

/-- Add or replace a filter. One that is replaced stays selected, and is not active. -/
def setEntry (new : FilterEntry) : List FilterEntry → List FilterEntry
  | [] => [new]
  | e :: rest =>
    if strcmp new.name e.name < 0 then new :: e :: rest
    else if strcmp new.name e.name = 0 then {new with selStat := e.selStat} :: rest
    else e :: setEntry new rest

variable (env : Env)

def filtersSetFilter (s : Settings) (keyval : Text) : Settings :=
  if ch '=' ∈ keyval then
    let key := keyval.takeWhile (· ≠ ch '=')
    let val := (keyval.dropWhile (· ≠ ch '=')).tail
    if validateFilterName key then
      match exprParse env val with
      | .error _ => s
      | .ok _ => {s with filters := setEntry { name := key, filter := val } s.filters}
    else s
  else s

/-- `filters_activate`; what it passes to `lib_set_filter` is in `filtersActivate`. -/
def activate (s : Settings) (winActivate : Bool) : Settings :=
  if (s.filters.all fun f => f.actStat = f.selStat) && !winActivate then s
  else
    match filtersActivate env s.filters with
    | some (.ok _) => {s with filters := s.filters.map fun f => {f with actStat := f.selStat}}
    | _ => s

/-- `for_each_name`, with what the callback changes; `none` is its `-1`. -/
def forEachName {σ : Type} (cb : Text → Stat → σ → Option σ) : Nat → Text → σ → Option σ
  | 0, _, st => some st
  | fuel + 1, str, st =>
    let str := skipSpaces str
    let selStat := if str.head? = some (ch '!') then Stat.no else .yes
    let str := if str.head? = some (ch '!') then str.tail else str
    let name := str.takeWhile (· ≠ ch ' ')
    if name = [] then some st
    else if 64 ≤ name.length then none -- filter name too long
    else (cb name selStat st).bind fun st => forEachName cb fuel (str.drop name.length) st

def ensureFilterName (filters : List FilterEntry) (name : Text) (_ : Stat) (_ : Unit) :
    Option Unit :=
  if (findFilter filters name).isSome then some () else none

/-- Writes to the filter that `find_filter` finds. -/
def select (name : Text) (selStat : Stat) : List FilterEntry → List FilterEntry
  | [] => []
  | e :: rest =>
    if e.name = name then {e with selStat} :: rest else e :: select name selStat rest

def selectFilter (name : Text) (selStat : Stat) (filters : List FilterEntry) :
    Option (List FilterEntry) :=
  some (select name selStat filters)

def filtersActivateNames (s : Settings) (str : Option Text) : Settings :=
  -- mark all filters unselected
  let unselected := s.filters.map fun f => {f with selStat := .ignore}
  match str with
  | none => activate env {s with filters := unselected} false
  | some str =>
    -- first validate all filter names
    match forEachName (ensureFilterName s.filters) (str.length + 1) str () with
    | none => s
    | some () =>
      match forEachName selectFilter (str.length + 1) str unselected with
      | none => s
      | some filters => activate env {s with filters} false

def nextStat : Stat → Stat
  | .ignore => .yes
  | .yes => .no
  | .no => .ignore

def filtersToggleFilter (s : Settings) (row : Nat) : Settings :=
  {s with filters := s.filters.modify row fun f => {f with selStat := nextStat f.selStat}}

/-- `filters_delete_filter`, when the question is answered with yes. -/
def filtersDeleteFilter (s : Settings) (row : Nat) : Settings :=
  {s with filters := s.filters.eraseIdx row}

/-! ### The file -/

/-- `parse_command`. -/
def parseCommand (buf : Text) : Option (Text × Option Text) :=
  let buf := skipSpaces buf
  let cmd := buf.takeWhile (· ≠ ch ' ')
  let arg := skipSpaces (buf.dropWhile (· ≠ ch ' '))
  if buf.head? = some (ch '#') ∨ cmd = [] then none
  else some (cmd, if arg = [] then none else some arg)

/-- The commands that `options_exit` writes; what the others do is left out. -/
def runFunc (s : Settings) (name : Text) (arg : Option Text) : Settings :=
  if name = ascii "bind" then s.cmdBind arg
  else if name = ascii "unbind" then s.cmdUnbind arg
  else if name = ascii "fset" then filtersSetFilter env s (arg.getD [])
  else if name = ascii "factivate" then filtersActivateNames env s arg
  else s

def runCommand (s : Settings) (buf : Text) : Settings :=
  match parseCommand buf with
  | none => s
  | some (cmd, arg) =>
    match findCommand cmd commands with
    | .error _ => s
    | .ok c =>
      if c.minArgs > 0 ∧ arg = none then s
      else if c.maxArgs = 0 ∧ arg ≠ none then s
      else runFunc env s c.name arg

def bindLine (c : Context) (b : Binding) : Text :=
  ascii "bind " ++ c.name ++ ch ' ' :: b.key ++ ch ' ' :: b.cmd

def fsetLine (f : FilterEntry) : Text := ascii "fset " ++ f.name ++ ch '=' :: f.filter

def factivateName (f : FilterEntry) : Text :=
  match f.actStat with
  | .yes => ch ' ' :: f.name
  | .no => ascii " !" ++ f.name
  | .ignore => []

def factivateLine (filters : List FilterEntry) : Text :=
  ascii "factivate" ++ filters.flatMap factivateName

def optionsExit (s : Settings) : List Text :=
  (contexts.flatMap fun c => (s.keyBindings c).map (bindLine c)) ++ s.filters.map fsetLine ++
    [factivateLine s.filters]

/-- The settings of the next start. -/
def restored (s : Settings) : Settings := s.optionsExit.foldl (runCommand env) empty

end Settings

/-! ### Runs -/

inductive Op where
  | bind (arg : Option Text)
  | unbind (arg : Option Text)
  | fset (keyval : Text)
  | factivate (names : Option Text)
  | toggleFilter (row : Nat)
  | deleteFilter (row : Nat)
  | activate

/-- An operation that fails reports it and goes on. -/
def Settings.step (env : Env) (s : Settings) : Op → Settings
  | .bind arg => s.cmdBind arg
  | .unbind arg => s.cmdUnbind arg
  | .fset keyval => s.filtersSetFilter env keyval
  | .factivate names => s.filtersActivateNames env names
  | .toggleFilter row => s.filtersToggleFilter row
  | .deleteFilter row => s.filtersDeleteFilter row
  | .activate => s.activate env true

end GracefulMusic.Autosave
