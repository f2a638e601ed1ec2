import Mathlib.Algebra.Order.BigOperators.Group.List
import Mathlib.Algebra.Order.Group.Nat
import GracefulMusic.CommandLine.History
import GracefulMusic.Foundation.Runs

/-! The histories of the command mode and of the search mode (`command_mode.c`,
`search_mode.c`, `server.c`).

What the keys make of the line that is edited is given with the event, as is what a command
makes of it. Each mode browses its own history and resets the search there after most keys,
but not after a click into the window, and the server adds to the history of searches
whatever the user does. -/
namespace GracefulMusic.CommandLine

inductive InputMode where
  | normal | command | search
  deriving DecidableEq

inductive SearchDirection where
  | forward | backward
  deriving DecidableEq

/-- A history, and `history_search_text` of its mode. -/
structure Browsed (P : Type) where
  history : History P
  historySearchText : Option Text

structure Ui (P : Type) where
  cmd : Browsed P
  search : Browsed P
  cmdline : Text
  inputMode : InputMode
  searchDirection : SearchDirection

/-- What a key that is not listed below leaves. -/
structure Edited where
  cmdline : Text
  inputMode : InputMode
  searchDirection : SearchDirection

inductive Key where
  | dc | backspace | left | right | home | endKey | up | down | btab | unknown
  deriving DecidableEq

/-- A button that is pressed in the window or in the command line, or the wheel. -/
inductive Mouse where
  | pressed (inWindow : Bool)
  | wheelUp
  | wheelDown
  | none
  deriving DecidableEq

inductive Event where
  | ch (c : Nat) (edited : Edited)
  | escape (edited : Edited)
  | key (k : Key) (edited : Edited)
  | mouse (m : Mouse)
  /-- `/` or `?` from a client. -/
  | serverSearch (direction : SearchDirection) (text : Text)
  /-- Whatever else sets the line and the mode, such as a command of a client. -/
  | other (edited : Edited)

variable {P : Type} [DecidableEq P] (malloc : Malloc P)

namespace Browsed

def add (b : Browsed P) (line : Text) : Browsed P := {b with history := b.history.addLine malloc line}

omit [DecidableEq P] in
/-- `reset_history_search` -/
def reset (b : Browsed P) : Browsed P := ⟨b.history.resetSearch, none⟩

/-- `KEY_UP`, with the line to be shown. -/
def up (b : Browsed P) (text : Text) : Option (Browsed P × Option Text) :=
  let searched := b.historySearchText.getD text
  (b.history.searchForward searched).map fun (history, found) => (⟨history, some searched⟩, found)

/-- `KEY_DOWN` -/
def down (b : Browsed P) : Option (Browsed P × Option Text) :=
  match b.historySearchText with
  | none => some (b, none)
  | some searched => (b.history.searchBackward searched).map fun (history, found) =>
    (⟨history, some searched⟩, some (found.getD searched))

end Browsed

namespace Ui
variable (s : Ui P)

def edit (edited : Edited) : Ui P :=
  { s with cmdline := edited.cmdline, inputMode := edited.inputMode
           searchDirection := edited.searchDirection }

/-! ### The command mode -/

def commandModeKey (key : Key) (edited : Edited) : Option (Ui P) :=
  match key with
  | .left | .right | .home | .endKey => some s
  | .up => (s.cmd.up s.cmdline).map fun (cmd, found) =>
    {s with cmd, cmdline := found.getD s.cmdline}
  | .down => s.cmd.down.map fun (cmd, found) => {s with cmd, cmdline := found.getD s.cmdline}
  | .dc | .backspace | .btab => some {s.edit edited with cmd := s.cmd.reset}
  | .unknown => some {s with cmd := s.cmd.reset}

/-- With the line that is added where there is one. -/
def commandModeDone (line : Text) : Ui P :=
  if s.cmdline ≠ [] then {s with cmd := s.cmd.add malloc line, cmdline := [], inputMode := .normal}
  else {s with inputMode := .normal}

def commandModeCh (c : Nat) (edited : Edited) : Option (Ui P) :=
  if c = 0x10 then s.commandModeKey .up edited -- ^P
  else if c = 0x0e then s.commandModeKey .down edited -- ^N
  else
    let s :=
      -- ^C, ^G, ESC
      if c = 0x03 ∨ c = 0x07 ∨ c = 0x1b then s.commandModeDone malloc s.cmdline
      else if c = 0x0a then
        -- the line after `run_command`
        {s.commandModeDone malloc edited.cmdline with searchDirection := edited.searchDirection}
      else s.edit edited
    some {s with cmd := s.cmd.reset}

def commandModeEscape (edited : Edited) : Option (Ui P) :=
  some {s.edit edited with cmd := s.cmd.reset}

def commandModeMouse (m : Mouse) : Option (Ui P) :=
  match m with
  | .pressed true => some (s.commandModeDone malloc s.cmdline)
  | .pressed false | .none => some s
  | .wheelUp => s.commandModeKey .up ⟨s.cmdline, s.inputMode, s.searchDirection⟩
  | .wheelDown => s.commandModeKey .down ⟨s.cmdline, s.inputMode, s.searchDirection⟩

/-! ### The search mode -/

def searchCh (direction : SearchDirection) : UInt8 :=
  match direction with
  | .forward => ch '/'
  | .backward => ch '?'

/-- The text that is searched for, and whether the search is restricted. -/
def parseLine : Text × Bool :=
  match s.cmdline with
  | [] => ([], false)
  | c :: text => if c = searchCh s.searchDirection then (text, true) else (c :: text, false)

def updateSearchLine (text : Text) (restricted : Bool) : Ui P :=
  {s with cmdline := if restricted then searchCh s.searchDirection :: text else text}

/-- `search_text`, as far as the history goes. -/
def searchText (text : Text) : Ui P :=
  if text = [] then s else {s with search := s.search.add malloc text}

def searchModeKey (key : Key) (edited : Edited) : Option (Ui P) :=
  match key with
  | .left | .right | .home | .endKey | .btab | .unknown => some s
  | .up =>
    let (text, restricted) := s.parseLine
    (s.search.up text).map fun (search, found) =>
      match found with
      | some text => {s with search}.updateSearchLine text restricted
      | none => {s with search}
  | .down =>
    let (_, restricted) := s.parseLine
    s.search.down.map fun (search, found) =>
      match found with
      | some text => {s with search}.updateSearchLine text restricted
      | none => {s with search}
  | .dc | .backspace => some {s.edit edited with search := s.search.reset}

/-- The line is given up, and added where it has a text. -/
def searchModeCancel : Ui P :=
  let (text, _) := s.parseLine
  if text ≠ [] then {s with search := s.search.add malloc text, cmdline := [], inputMode := .normal}
  else {s with inputMode := .normal}

/-- Control characters that do something to the line. -/
def searchEdits : List Nat := [0x01, 0x02, 0x04, 0x05, 0x06, 0x0b, 0x15, 0x17, 0x08, 127]

def searchModeCh (c : Nat) (edited : Edited) : Option (Ui P) :=
  if c = 0x10 then s.searchModeKey .up edited -- ^P
  else if c = 0x0e then s.searchModeKey .down edited -- ^N
  -- ^C, ^G, ESC
  else if c = 0x03 ∨ c = 0x07 ∨ c = 0x1b then
    let s := s.searchModeCancel malloc
    some {s with search := s.search.reset}
  else if c = 0x0a then
    let s := {s.searchText malloc s.parseLine.1 with cmdline := [], inputMode := .normal}
    some {s with search := s.search.reset}
  else if c ∈ searchEdits ∨ 0x20 ≤ c then some {s.edit edited with search := s.search.reset}
  else some s

def searchModeEscape (edited : Edited) : Option (Ui P) :=
  some {s.edit edited with search := s.search.reset}

def searchModeMouse (m : Mouse) : Option (Ui P) :=
  match m with
  | .pressed true => some (s.searchModeCancel malloc)
  | .pressed false | .none => some s
  | .wheelUp => s.searchModeKey .up ⟨s.cmdline, s.inputMode, s.searchDirection⟩
  | .wheelDown => s.searchModeKey .down ⟨s.cmdline, s.inputMode, s.searchDirection⟩

/-! ### Events -/

/-- `commands_init`, `search_mode_init` -/
def init (memory : P → Text) (commandFile searchFile : List Text) : Ui P where
  cmd := ⟨.load malloc memory commandFile 2000, none⟩
  search := ⟨.load malloc memory searchFile 100, none⟩
  cmdline := []
  inputMode := .normal
  searchDirection := .forward

/-- `none` reads through an entry that was freed. -/
def step (s : Ui P) (event : Event) : Option (Ui P) :=
  match s.inputMode, event with
  | .command, .ch c edited => s.commandModeCh malloc c edited
  | .command, .escape edited => s.commandModeEscape edited
  | .command, .key key edited => s.commandModeKey key edited
  | .command, .mouse m => s.commandModeMouse malloc m
  | .search, .ch c edited => s.searchModeCh malloc c edited
  | .search, .escape edited => s.searchModeEscape edited
  | .search, .key key edited => s.searchModeKey key edited
  | .search, .mouse m => s.searchModeMouse malloc m
  | .normal, .ch _ edited | .normal, .escape edited | .normal, .key _ edited =>
    some (s.edit edited)
  | .normal, .mouse _ => some s
  | _, .serverSearch searchDirection text =>
    some ({s with searchDirection}.searchText malloc text)
  | _, .other edited => some (s.edit edited)

/-! ### What is kept -/

/-- A line that is added without a reset of the search spares the entry at its position. -/
def Spares (event : Event) : Prop :=
  match s.inputMode, event with
  | .command, .mouse (.pressed true) => s.cmdline ≠ [] → s.cmd.history.Outlives s.cmdline
  | .search, .mouse (.pressed true) => s.parseLine.1 ≠ [] → s.search.history.Outlives s.parseLine.1
  | _, .serverSearch _ text => text ≠ [] → s.search.history.Outlives text
  | _, _ => True

end Ui

/-- As many lines as are counted and no more than there may be, each of them once, and a search
position in the list. What is added comes first, and what is lost is identical or the oldest. -/
structure Kept (malloc : Malloc P) (h : History P) : Prop extends h.Listed where
  placed : h.Placed
  adds : ∀ line, (h.addLine malloc line).texts =
    (line :: h.texts.filter (· ≠ line)).take h.maxLines

/-! ### One mode -/

namespace Browsed
variable {malloc} {b : Browsed P} {line : Text}

/-- The list of a history that has room for a line. -/
structure Whole (b : Browsed P) : Prop where
  listed : b.history.Listed
  room : 0 < b.history.maxLines

theorem Whole.kept_iff (h : b.Whole) : Kept malloc b.history ↔ b.history.Placed :=
  ⟨fun hkept => hkept.placed, fun hplaced =>
    ⟨h.listed, hplaced, fun _ => History.texts_addLine _ _ h.listed⟩⟩

theorem Whole.add (h : b.Whole) (line : Text) : (b.add malloc line).Whole := by
  refine ⟨History.addLine_listed h.listed, ?_⟩
  have hmax : (b.history.addLine malloc line).maxLines = b.history.maxLines := by
    rw [History.addLine_eq h.listed]
  exact hmax ▸ h.room

theorem Whole.add_placed_iff (h : b.Whole) (hplaced : b.history.Placed) :
    (b.add malloc line).history.Placed ↔ b.history.Outlives line :=
  History.addLine_placed_iff h.listed hplaced h.room

omit [DecidableEq P] in
theorem Whole.reset (h : b.Whole) : b.reset.Whole ∧ b.reset.history.Placed :=
  ⟨⟨⟨h.listed.entries, h.listed.distinct, h.listed.lines, h.listed.room⟩, h.room⟩, nofun⟩

omit [DecidableEq P] in
theorem Whole.of_searchPos (h : b.Whole) {history : History P} {text : Option Text}
    (heq : history = {b.history with searchPos := history.searchPos}) :
    Whole ⟨history, text⟩ := by
  rw [heq]
  exact ⟨⟨h.listed.entries, h.listed.distinct, h.listed.lines, h.listed.room⟩, h.room⟩

theorem Whole.up (h : b.Whole) (hplaced : b.history.Placed) (text : Text) : ∃ b' found,
    b.up text = some (b', found) ∧ b'.Whole ∧ b'.history.Placed := by
  obtain ⟨history, found, hrun, hplaced', heq⟩ :=
    History.searchForward_spec hplaced (b.historySearchText.getD text)
  exact ⟨_, found, by rw [Browsed.up, hrun, Option.map_some], h.of_searchPos heq, hplaced'⟩

theorem Whole.down (h : b.Whole) (hplaced : b.history.Placed) : ∃ b' found,
    b.down = some (b', found) ∧ b'.Whole ∧ b'.history.Placed := by
  rw [Browsed.down]
  cases b.historySearchText with
  | none => exact ⟨b, none, rfl, h, hplaced⟩
  | some searched =>
    obtain ⟨history, found, hrun, hplaced', heq⟩ := History.searchBackward_spec hplaced searched
    simp only [hrun, Option.map_some]
    exact ⟨_, _, rfl, h.of_searchPos heq, hplaced'⟩

variable (malloc) in
theorem load_whole_iff (memory : P → Text) (file : List Text) {maxLines : Nat} (hmax : 0 < maxLines) :
    Whole ⟨.load malloc memory file maxLines, none⟩ ↔ (file.take maxLines).Nodup := by
  rw [← History.load_listed_iff malloc memory]
  refine ⟨fun h => h.listed, fun h => ⟨h, ?_⟩⟩
  exact (History.load_loaded malloc memory file maxLines).maxLines.symm ▸ hmax

end Browsed

/-! ### Both modes -/

namespace Ui
variable {malloc} {s : Ui P}

structure Whole (s : Ui P) : Prop where
  cmd : s.cmd.Whole
  search : s.search.Whole

structure Placed (s : Ui P) : Prop where
  cmd : s.cmd.history.Placed
  search : s.search.history.Placed

theorem commandModeKey_spec (h : s.Whole) (hplaced : s.Placed) (key : Key) (edited : Edited) :
    ∃ t, s.commandModeKey key edited = some t ∧ t.Whole ∧ t.Placed := by
  cases key with
  | left | right | home | endKey => exact ⟨s, rfl, h, hplaced⟩
  | up =>
    obtain ⟨b, found, hrun, hb, hb'⟩ := h.cmd.up hplaced.cmd s.cmdline
    simp only [commandModeKey, hrun, Option.map_some]
    exact ⟨_, rfl, ⟨hb, h.search⟩, ⟨hb', hplaced.search⟩⟩
  | down =>
    obtain ⟨b, found, hrun, hb, hb'⟩ := h.cmd.down hplaced.cmd
    simp only [commandModeKey, hrun, Option.map_some]
    exact ⟨_, rfl, ⟨hb, h.search⟩, ⟨hb', hplaced.search⟩⟩
  | dc | backspace | btab | unknown =>
    exact ⟨_, rfl, ⟨h.cmd.reset.1, h.search⟩, ⟨h.cmd.reset.2, hplaced.search⟩⟩

theorem searchModeKey_spec (h : s.Whole) (hplaced : s.Placed) (key : Key) (edited : Edited) :
    ∃ t, s.searchModeKey key edited = some t ∧ t.Whole ∧ t.Placed := by
  cases key with
  | left | right | home | endKey | btab | unknown => exact ⟨s, rfl, h, hplaced⟩
  | up =>
    obtain ⟨b, found, hrun, hb, hb'⟩ := h.search.up hplaced.search s.parseLine.1
    simp only [searchModeKey, hrun, Option.map_some]
    cases found with
    | none => exact ⟨_, rfl, ⟨h.cmd, hb⟩, ⟨hplaced.cmd, hb'⟩⟩
    | some text => exact ⟨_, rfl, ⟨h.cmd, hb⟩, ⟨hplaced.cmd, hb'⟩⟩
  | down =>
    obtain ⟨b, found, hrun, hb, hb'⟩ := h.search.down hplaced.search
    simp only [searchModeKey, hrun, Option.map_some]
    cases found with
    | none => exact ⟨_, rfl, ⟨h.cmd, hb⟩, ⟨hplaced.cmd, hb'⟩⟩
    | some text => exact ⟨_, rfl, ⟨h.cmd, hb⟩, ⟨hplaced.cmd, hb'⟩⟩
  | dc | backspace => exact ⟨_, rfl, ⟨h.cmd, h.search.reset.1⟩, ⟨hplaced.cmd, h.search.reset.2⟩⟩

variable (malloc) in
/-- A line is added, or none. -/
theorem commandModeDone_spec (h : s.Whole) (hplaced : s.Placed) (line : Text) :
    (s.commandModeDone malloc line).Whole ∧
      ((s.commandModeDone malloc line).Placed ↔ (s.cmdline ≠ [] → s.cmd.history.Outlives line)) := by
  rw [commandModeDone]
  by_cases hline : s.cmdline ≠ []
  · rw [if_pos hline]
    refine ⟨⟨h.cmd.add line, h.search⟩, fun h' _ => ?_, fun h' => ⟨?_, hplaced.search⟩⟩
    · exact (h.cmd.add_placed_iff hplaced.cmd).mp h'.cmd
    · exact (h.cmd.add_placed_iff hplaced.cmd).mpr (h' hline)
  · rw [if_neg hline]
    exact ⟨⟨h.cmd, h.search⟩, fun _ hne => absurd hne hline, fun _ => ⟨hplaced.cmd, hplaced.search⟩⟩

variable (malloc) in
theorem searchText_spec (h : s.Whole) (hplaced : s.Placed) (text : Text) :
    (s.searchText malloc text).Whole ∧
      ((s.searchText malloc text).Placed ↔ (text ≠ [] → s.search.history.Outlives text)) := by
  rw [searchText]
  by_cases htext : text = []
  · rw [if_pos htext]
    exact ⟨h, fun _ hne => absurd htext hne, fun _ => hplaced⟩
  · rw [if_neg htext]
    refine ⟨⟨h.cmd, h.search.add text⟩, fun h' _ => ?_, fun h' => ⟨hplaced.cmd, ?_⟩⟩
    · exact (h.search.add_placed_iff hplaced.search).mp h'.search
    · exact (h.search.add_placed_iff hplaced.search).mpr (h' htext)

theorem searchModeCancel_spec (h : s.Whole) (hplaced : s.Placed) :
    (s.searchModeCancel malloc).Whole ∧ ((s.searchModeCancel malloc).Placed ↔
      (s.parseLine.1 ≠ [] → s.search.history.Outlives s.parseLine.1)) := by
  have hcancel : s.searchModeCancel malloc =
      if s.parseLine.1 ≠ [] then
        {s.searchText malloc s.parseLine.1 with cmdline := [], inputMode := .normal}
      else {s.searchText malloc s.parseLine.1 with inputMode := .normal} := by
    rw [searchModeCancel, searchText]
    by_cases htext : s.parseLine.1 = []
    · simp [htext]
    · simp [htext]
  obtain ⟨hwhole, hiff⟩ := searchText_spec malloc h hplaced s.parseLine.1
  rw [hcancel, ← hiff]
  split
  · exact ⟨⟨hwhole.cmd, hwhole.search⟩, fun h' => ⟨h'.cmd, h'.search⟩, fun h' => ⟨h'.cmd, h'.search⟩⟩
  · exact ⟨⟨hwhole.cmd, hwhole.search⟩, fun h' => ⟨h'.cmd, h'.search⟩, fun h' => ⟨h'.cmd, h'.search⟩⟩

theorem commandModeCh_spec (h : s.Whole) (hplaced : s.Placed) (c : Nat) (edited : Edited) :
    ∃ t, s.commandModeCh malloc c edited = some t ∧ t.Whole ∧ t.Placed := by
  have hreset : ∀ t : Ui P, t.Whole → t.search = s.search →
      ({t with cmd := t.cmd.reset} : Ui P).Whole ∧ ({t with cmd := t.cmd.reset} : Ui P).Placed :=
    fun t ht hsearch => ⟨⟨ht.cmd.reset.1, ht.search⟩, ⟨ht.cmd.reset.2, hsearch ▸ hplaced.search⟩⟩
  have hdone : ∀ line, (s.commandModeDone malloc line).search = s.search := by
    intro line
    rw [commandModeDone]
    split <;> rfl
  rw [commandModeCh]
  split_ifs
  · exact commandModeKey_spec h hplaced .up edited
  · exact commandModeKey_spec h hplaced .down edited
  · exact ⟨_, rfl, hreset _ (commandModeDone_spec malloc h hplaced _).1 (hdone _)⟩
  · have hwhole := (commandModeDone_spec malloc h hplaced edited.cmdline).1
    exact ⟨_, rfl, hreset {s.commandModeDone malloc edited.cmdline with
      searchDirection := edited.searchDirection} ⟨hwhole.cmd, hwhole.search⟩ (hdone _)⟩
  · exact ⟨_, rfl, hreset (s.edit edited) ⟨h.cmd, h.search⟩ rfl⟩

theorem searchModeCh_spec (h : s.Whole) (hplaced : s.Placed) (c : Nat) (edited : Edited) :
    ∃ t, s.searchModeCh malloc c edited = some t ∧ t.Whole ∧ t.Placed := by
  have hreset : ∀ t : Ui P, t.Whole → t.cmd = s.cmd →
      ({t with search := t.search.reset} : Ui P).Whole ∧
        ({t with search := t.search.reset} : Ui P).Placed :=
    fun t ht hcmd => ⟨⟨ht.cmd, ht.search.reset.1⟩, ⟨hcmd ▸ hplaced.cmd, ht.search.reset.2⟩⟩
  have htext : (s.searchText malloc s.parseLine.1).cmd = s.cmd := by
    rw [searchText]
    split <;> rfl
  have hcancel : (s.searchModeCancel malloc).cmd = s.cmd := by
    simp only [searchModeCancel]
    split <;> rfl
  rw [searchModeCh]
  split_ifs
  · exact searchModeKey_spec h hplaced .up edited
  · exact searchModeKey_spec h hplaced .down edited
  · exact ⟨_, rfl, hreset _ (searchModeCancel_spec h hplaced).1 hcancel⟩
  · have hwhole := (searchText_spec malloc h hplaced s.parseLine.1).1
    exact ⟨_, rfl, hreset {s.searchText malloc s.parseLine.1 with
      cmdline := [], inputMode := .normal} ⟨hwhole.cmd, hwhole.search⟩ htext⟩
  · exact ⟨_, rfl, hreset (s.edit edited) ⟨h.cmd, h.search⟩ rfl⟩
  · exact ⟨s, rfl, h, hplaced⟩

omit [DecidableEq P] in
/-- What keeps the search positions, where nothing has to be spared. -/
theorem of_placed {t : Option (Ui P)} (h : ∃ u, t = some u ∧ u.Whole ∧ u.Placed) :
    ∃ u, t = some u ∧ u.Whole ∧ (u.Placed ↔ True) := by
  obtain ⟨u, hu, hwhole, hplaced⟩ := h
  exact ⟨u, hu, hwhole, iff_true_intro hplaced⟩

theorem commandModeMouse_spec (h : s.Whole) (hplaced : s.Placed) (hmode : s.inputMode = .command)
    (m : Mouse) : ∃ t, s.commandModeMouse malloc m = some t ∧ t.Whole ∧
      (t.Placed ↔ s.Spares (.mouse m)) := by
  simp only [Spares, hmode]
  cases m with
  | pressed inWindow =>
    cases inWindow with
    | true => exact ⟨_, rfl, commandModeDone_spec malloc h hplaced s.cmdline⟩
    | false => exact of_placed ⟨s, rfl, h, hplaced⟩
  | none => exact of_placed ⟨s, rfl, h, hplaced⟩
  | wheelUp | wheelDown =>
    rw [commandModeMouse]
    exact of_placed (commandModeKey_spec h hplaced _ _)

theorem searchModeMouse_spec (h : s.Whole) (hplaced : s.Placed) (hmode : s.inputMode = .search)
    (m : Mouse) : ∃ t, s.searchModeMouse malloc m = some t ∧ t.Whole ∧
      (t.Placed ↔ s.Spares (.mouse m)) := by
  simp only [Spares, hmode]
  cases m with
  | pressed inWindow =>
    cases inWindow with
    | true => exact ⟨_, rfl, searchModeCancel_spec h hplaced⟩
    | false => exact of_placed ⟨s, rfl, h, hplaced⟩
  | none => exact of_placed ⟨s, rfl, h, hplaced⟩
  | wheelUp | wheelDown =>
    rw [searchModeMouse]
    exact of_placed (searchModeKey_spec h hplaced _ _)

theorem serverSearch_spec (h : s.Whole) (hplaced : s.Placed) (direction : SearchDirection)
    (text : Text) : ∃ t, step malloc s (.serverSearch direction text) = some t ∧ t.Whole ∧
      (t.Placed ↔ s.Spares (.serverSearch direction text)) := by
  have hspec := searchText_spec malloc (s := {s with searchDirection := direction})
    ⟨h.cmd, h.search⟩ ⟨hplaced.cmd, hplaced.search⟩ text
  cases hmode : s.inputMode <;> simp only [step, Spares, hmode] <;> exact ⟨_, rfl, hmode ▸ hspec⟩

/-- A step keeps the lists, and the search positions if and only if it spares them. -/
theorem step_spec (h : s.Whole) (hplaced : s.Placed) (event : Event) :
    ∃ t, step malloc s event = some t ∧ t.Whole ∧ (t.Placed ↔ s.Spares event) := by
  have hedit : ∀ edited : Edited, (s.edit edited).Whole ∧ (s.edit edited).Placed :=
    fun edited => ⟨⟨h.cmd, h.search⟩, ⟨hplaced.cmd, hplaced.search⟩⟩
  cases hmode : s.inputMode with
  | normal =>
    cases event with
    | ch _ edited | escape edited | key _ edited | other edited =>
      simp only [step, Spares, hmode]
      exact of_placed ⟨_, rfl, hedit edited⟩
    | mouse m =>
      simp only [step, Spares, hmode]
      exact of_placed ⟨s, rfl, h, hplaced⟩
    | serverSearch direction text => exact serverSearch_spec h hplaced direction text
  | command =>
    cases event with
    | ch c edited =>
      simp only [step, Spares, hmode]
      exact of_placed (commandModeCh_spec h hplaced c edited)
    | escape edited =>
      simp only [step, Spares, hmode]
      exact of_placed ⟨_, rfl, ⟨h.cmd.reset.1, h.search⟩, ⟨h.cmd.reset.2, hplaced.search⟩⟩
    | key k edited =>
      simp only [step, Spares, hmode]
      exact of_placed (commandModeKey_spec h hplaced k edited)
    | other edited =>
      simp only [step, Spares, hmode]
      exact of_placed ⟨_, rfl, hedit edited⟩
    | serverSearch direction text => exact serverSearch_spec h hplaced direction text
    | mouse m =>
      simp only [step, hmode]
      exact commandModeMouse_spec h hplaced hmode m
  | search =>
    cases event with
    | ch c edited =>
      simp only [step, Spares, hmode]
      exact of_placed (searchModeCh_spec h hplaced c edited)
    | escape edited =>
      simp only [step, Spares, hmode]
      exact of_placed ⟨_, rfl, ⟨h.cmd, h.search.reset.1⟩, ⟨hplaced.cmd, h.search.reset.2⟩⟩
    | key k edited =>
      simp only [step, Spares, hmode]
      exact of_placed (searchModeKey_spec h hplaced k edited)
    | other edited =>
      simp only [step, Spares, hmode]
      exact of_placed ⟨_, rfl, hedit edited⟩
    | serverSearch direction text => exact serverSearch_spec h hplaced direction text
    | mouse m =>
      simp only [step, hmode]
      exact searchModeMouse_spec h hplaced hmode m

/-! ### Runs -/

theorem init_whole {memory : P → Text} {commandFile searchFile : List Text}
    (hcmd : (init malloc memory commandFile searchFile).cmd.history.Listed)
    (hsearch : (init malloc memory commandFile searchFile).search.history.Listed) :
    (init malloc memory commandFile searchFile).Whole := by
  have hroom : ∀ file maxLines, 0 < maxLines → 0 < (History.load malloc memory file maxLines).maxLines :=
    fun file maxLines hmax =>
      (History.load_loaded malloc memory file maxLines).maxLines.symm ▸ hmax
  exact ⟨⟨hcmd, hroom commandFile 2000 (by decide)⟩, ⟨hsearch, hroom searchFile 100 (by decide)⟩⟩

variable (malloc) in
theorem whole_init_iff (memory : P → Text) (commandFile searchFile : List Text) :
    (init malloc memory commandFile searchFile).Whole ↔
      (commandFile.take 2000).Nodup ∧ (searchFile.take 100).Nodup := by
  rw [← Browsed.load_whole_iff malloc memory commandFile (by decide),
    ← Browsed.load_whole_iff malloc memory searchFile (by decide)]
  exact ⟨fun h => ⟨h.cmd, h.search⟩, fun h => ⟨h.1, h.2⟩⟩

variable (malloc) in
theorem init_placed (memory : P → Text) (commandFile searchFile : List Text) :
    (init malloc memory commandFile searchFile).Placed := by
  have hplaced : ∀ file maxLines, (History.load malloc memory file maxLines).Placed :=
    fun file maxLines pos hpos => by
      simp [(History.load_loaded malloc memory file maxLines).searchPos] at hpos
  exact ⟨hplaced _ _, hplaced _ _⟩

/-- Both histories are kept, and no freed entry is read through, in the runs that begin with
files without repeated lines and in which whatever is added without a reset spares the entry
at the search position. -/
theorem histories_kept_iff (malloc : Malloc P) (memory : P → Text)
    (commandFile searchFile : List Text) (events : List Event) :
    Runs.Always (step malloc) (fun s => Kept malloc s.cmd.history ∧ Kept malloc s.search.history)
        (init malloc memory commandFile searchFile) events ↔
      (commandFile.take 2000).Nodup ∧ (searchFile.take 100).Nodup ∧
        Runs.Along (step malloc) Spares (init malloc memory commandFile searchFile) events := by
  have hkept : ∀ s : Ui P, s.Whole →
      (Kept malloc s.cmd.history ∧ Kept malloc s.search.history ↔ s.Placed) := fun s hs => by
    rw [hs.cmd.kept_iff, hs.search.kept_iff]
    exact ⟨fun h => ⟨h.1, h.2⟩, fun h => ⟨h.cmd, h.search⟩⟩
  have hstep : ∀ (s : Ui P) event, s.Whole →
      Kept malloc s.cmd.history ∧ Kept malloc s.search.history → True →
        ∃ t, step malloc s event = some t ∧ t.Whole ∧
          (Kept malloc t.cmd.history ∧ Kept malloc t.search.history ↔ s.Spares event) := by
    intro s event hs hgood _
    obtain ⟨t, hrun, ht, hiff⟩ := step_spec hs ((hkept s hs).mp hgood) event
    exact ⟨t, hrun, ht, (hkept t ht).trans hiff⟩
  rw [← and_assoc, ← whole_init_iff malloc memory]
  have hplaced := init_placed malloc memory commandFile searchFile
  have hiff := fun hwhole : (init malloc memory commandFile searchFile).Whole =>
    Runs.always_iff_along hstep _ events hwhole ((hkept _ hwhole).mpr hplaced)
      (Runs.along_true _ events)
  constructor
  · intro h
    have hwhole := init_whole h.head.1.toListed h.head.2.toListed
    exact ⟨hwhole, (hiff hwhole).mp h⟩
  · intro h
    exact (hiff h.1).mpr h.2

/-- Numbers for pointers. -/
def countingMalloc : Malloc Nat where
  new l := l.sum + 1
  fresh _ h := absurd (List.le_sum_of_mem h) (Nat.not_succ_le_self _)

/-- The line in the command mode, and nothing in it. -/
def entered : Event := .other ⟨[], .command, .forward⟩

/-- A line of the history is shown, and a click into the window adds it: the entry it was found
in is freed, and it is read through when the next line is looked for. -/
theorem freed_while_browsing :
    let start := init countingMalloc (fun _ => []) [ascii "set a", ascii "set b"] []
    let click := [entered, .key .up ⟨[], .command, .forward⟩, .mouse (.pressed true)]
    (Runs.run (step countingMalloc) start click).map (fun s => decide s.cmd.history.Placed) =
        some false ∧
      (Runs.run (step countingMalloc) start
        (click ++ [entered, .key .up ⟨[], .command, .forward⟩])).isNone := by
  decide +kernel

end Ui
end GracefulMusic.CommandLine
