import GracefulMusic.Autosave.Bindings
import GracefulMusic.Playlist.RoundTrip
import GracefulMusic.Urls.Strings

/-! The resume file (`options.c`, `misc.c`).

What was played and shown is written when the program ends, a line for each, and the next start
reads it. Newlines and backslashes of a string are escaped. -/
namespace GracefulMusic.ResumeFile
open Autosave Commands
open Autosave.Settings (parseCommand)
open Pl (bufferForEachLine forEachLineLoop forEachLineLoop_append stripCr toLine
  toLine_of_notMem)

/-! ### The escape code -/

/-- What is done in a static buffer of a size; `none` where something is written behind its end,
or an index does not fit into an `int`. -/
abbrev Static (α : Type) := StateT Nat Option α

/-- The size is a multiple of 16 (`& ~(16 - 1)`). -/
def grow (need : Nat) : Static Unit :=
  modify fun alloc => if need > alloc then (need + 16) / 16 * 16 else alloc

/-- `buf[d++]` -/
def put (buf : Text) (c : UInt8) : Static Text := do
  let alloc ← get
  if buf.length < alloc ∧ (buf.length : Int) < intMax then pure (buf ++ [c]) else failure

/-- `buf[d] = 0` -/
def terminate (buf : Text) : Static Text := do
  let alloc ← get
  if buf.length < alloc then pure buf else failure

def escapeLoop : Text → Text → Static Text
  | [], buf => terminate buf
  | c :: str, buf =>
    if c = ch '\\' then do
      let buf ← put buf (ch '\\')
      let buf ← put buf (ch '\\')
      escapeLoop str buf
    else if c = ch '\n' then do
      let buf ← put buf (ch '\\')
      let buf ← put buf (ch 'n')
      escapeLoop str buf
    else do
      let buf ← put buf c
      escapeLoop str buf

def escape (str : Text) : Static Text := do
  grow (str.length * 2 + 1)
  escapeLoop str []

def unescapeLoop : Text → Bool → Text → Static Text
  | [], _, buf => terminate buf
  | c :: str, doEscape, buf =>
    if !doEscape && c = ch '\\' then unescapeLoop str true buf
    else do
      let buf ← put buf (if doEscape && c = ch 'n' then ch '\n' else c)
      unescapeLoop str false buf

def unescape (str : Text) : Static Text := do
  grow (str.length + 1)
  if intMax < str.length then failure else unescapeLoop str false []

/-! ### The file -/

def playerStatusNames : List String := ["stopped", "playing", "paused"]

def viewNames : List String :=
  ["tree", "sorted", "playlist", "queue", "browser", "filters", "settings"]

/-- `NR_PLAYER_STATUS` -/
def nrPlayerStatus : Int := 3

/-- `NR_VIEWS` -/
def nrViews : Int := 7

abbrev Str := {str : Text // 0 ∉ str}

/-- What the program holds when it ends. -/
structure Program where
  status : Fin playerStatusNames.length
  /-- The file name and the position of what is played. -/
  track : Option (Str × Int)
  /-- The file name of `lib_cur_track`, or of the stored track. -/
  libTrack : Option Str
  curView : Fin viewNames.length
  liveFilter : Option Str
  browserDir : Str
  markedPl : Str

/-- `fprintf` of a word and its argument. -/
def printLine (key arg : Text) : Text := key ++ ch ' ' :: (arg ++ [ch '\n'])

def stringLine (key : Text) : Option Str → Static Text
  | none => pure []
  | some str => return printLine key (← escape str)

def trackLines : Option (Str × Int) → Static Text
  | none => pure []
  | some (filename, pos) => do
    let file := printLine (ascii "file") (← escape filename)
    return file ++ printLine (ascii "position") (printInt pos)

/-- The text that `resume_exit` writes. -/
def resumeExit (p : Program) : Static Text := do
  let track ← trackLines p.track
  let libTrack ← stringLine (ascii "lib_file") p.libTrack
  let liveFilter ← stringLine (ascii "live-filter") p.liveFilter
  let browserDir ← stringLine (ascii "browser-dir") (some p.browserDir)
  let markedPl ← stringLine (ascii "marked-pl") (some p.markedPl)
  let status := printLine (ascii "status") (ascii (playerStatusNames.get p.status))
  let view := printLine (ascii "view") (ascii (viewNames.get p.curView))
  return status ++ track ++ libTrack ++ view ++ liveFilter ++ browserDir ++ markedPl

/-- `struct resume` -/
structure Resume where
  status : Int := 0
  filename : Option Text := none
  position : Int := 0
  libFilename : Option Text := none
  view : Int := -1
  liveFilter : Option Text := none
  browserDir : Option Text := none
  markedPl : Option Text := none

/-- The value, unless there is an error. -/
def parseEnum (buf : Text) (minval maxval : Int) (names : List String) : Option Int :=
  let (tmp, isInt) := strToInt buf
  if isInt then if tmp < minval ∨ tmp > maxval then none else some tmp
  else (names.findIdx? fun name => strcasecmp buf (ascii name) = 0).map fun i => i + minval

def handleResumeLine (resume : Resume) (line : Text) : Static Resume :=
  match parseCommand line with
  | some (cmd, some arg) =>
    if cmd = ascii "status" then
      return {resume with
        status := (parseEnum arg 0 nrPlayerStatus playerStatusNames).getD resume.status}
    else if cmd = ascii "file" then return {resume with filename := ← unescape arg}
    else if cmd = ascii "position" then return {resume with position := (strToInt arg).1}
    else if cmd = ascii "lib_file" then return {resume with libFilename := ← unescape arg}
    else if cmd = ascii "view" then
      return {resume with view := (parseEnum arg 0 nrViews viewNames).getD resume.view}
    else if cmd = ascii "live-filter" then return {resume with liveFilter := ← unescape arg}
    else if cmd = ascii "browser-dir" then return {resume with browserDir := ← unescape arg}
    else if cmd = ascii "marked-pl" then return {resume with markedPl := ← unescape arg}
    else pure resume
  | _ => pure resume

/-- What `resume_load` has read. The size of the file is passed on as an `int`. -/
def resumeLoad (text : Text) : Static Resume :=
  (bufferForEachLine (text.take (toInt text.length).toNat)).foldlM handleResumeLine {}

/-! ### What the escape code does -/

def escapeByte (c : UInt8) : Text :=
  if c = ch '\\' then [ch '\\', ch '\\'] else if c = ch '\n' then [ch '\\', ch 'n'] else [c]

def escaped (str : Text) : Text := str.flatMap escapeByte

def unescapedFrom : Bool → Text → Text
  | _, [] => []
  | doEscape, c :: str =>
    if !doEscape && c = ch '\\' then unescapedFrom true str
    else (if doEscape && c = ch 'n' then ch '\n' else c) :: unescapedFrom false str

def unescaped (str : Text) : Text := unescapedFrom false str

/-- A byte is read back, whatever follows it. -/
theorem unescaped_escapeByte (c : UInt8) (rest : Text) :
    unescaped (escapeByte c ++ rest) = c :: unescaped rest := by
  unfold escapeByte
  split
  · rename_i hc
    subst hc
    rfl
  split
  · rename_i hc
    subst hc
    rfl
  · rename_i hslash _
    simp [unescaped, unescapedFrom, hslash]

theorem escaped_cons (c : UInt8) (str : Text) : escaped (c :: str) = escapeByte c ++ escaped str :=
  List.flatMap_cons

theorem unescaped_escaped (str : Text) : unescaped (escaped str) = str := by
  induction str with
  | nil => rfl
  | cons c str ih => rw [escaped_cons, unescaped_escapeByte, ih]

theorem escapeByte_length (c : UInt8) : 1 ≤ (escapeByte c).length ∧ (escapeByte c).length ≤ 2 := by
  unfold escapeByte
  split
  · exact ⟨by decide, Nat.le_refl 2⟩
  split
  · exact ⟨by decide, Nat.le_refl 2⟩
  · exact ⟨Nat.le_refl 1, Nat.le_succ 1⟩

theorem escaped_length (str : Text) : (escaped str).length ≤ str.length * 2 := by
  induction str with
  | nil => exact Nat.le_refl _
  | cons c str ih =>
    have hc := (escapeByte_length c).2
    rw [escaped_cons, List.length_append, List.length_cons]
    omega

/-! ### Static buffers -/

/-- The result of what is done in a buffer, of whatever size it was: defined under a condition. -/
def Runs {α : Type} (x : Static α) (a : α) (P : Prop) : Prop :=
  ∀ alloc, (P → ∃ alloc', x.run alloc = some (a, alloc')) ∧ (¬ P → x.run alloc = none)

theorem Runs.pure {α : Type} (a : α) : Runs (pure a) a True :=
  fun alloc => ⟨fun _ => ⟨alloc, rfl⟩, fun h => absurd trivial h⟩

theorem Runs.bind {α β : Type} {x : Static α} {f : α → Static β} {a : α} {b : β} {P Q : Prop}
    (hx : Runs x a P) (hf : Runs (f a) b Q) : Runs (x >>= f) b (P ∧ Q) := by
  intro alloc
  obtain ⟨hdefined, hundefined⟩ := hx alloc
  rw [StateT.run_bind]
  by_cases hP : P
  · obtain ⟨alloc', hrun⟩ := hdefined hP
    obtain ⟨hdefined', hundefined'⟩ := hf alloc'
    rw [hrun]
    exact ⟨fun h => hdefined' h.2, fun h => hundefined' fun hQ => h ⟨hP, hQ⟩⟩
  · rw [hundefined hP]
    exact ⟨fun h => absurd h.1 hP, fun _ => rfl⟩

theorem Runs.congr {α : Type} {x : Static α} {a : α} {P Q : Prop} (h : Runs x a P) (hPQ : P ↔ Q) :
    Runs x a Q := by
  rwa [← propext hPQ]

theorem Runs.result {α : Type} {x : Static α} {a b : α} {P : Prop} {alloc alloc' : Nat}
    (h : Runs x a P) (hrun : x.run alloc = some (b, alloc')) : P ∧ a = b := by
  obtain ⟨hdefined, hundefined⟩ := h alloc
  by_cases hP : P
  · obtain ⟨size, hrun'⟩ := hdefined hP
    rw [hrun'] at hrun
    exact ⟨hP, (Prod.mk.inj (Option.some.inj hrun)).1⟩
  · rw [hundefined hP] at hrun
    cases hrun

theorem grow_run (need alloc : Nat) :
    ∃ alloc', (grow need).run alloc = some ((), alloc') ∧ need ≤ alloc' := by
  refine ⟨_, rfl, ?_⟩
  dsimp only
  split <;> omega

theorem put_run {alloc : Nat} {buf : Text} (c : UInt8) (h : buf.length < alloc) :
    (put buf c).run alloc =
      if (buf.length : Int) < intMax then some (buf ++ [c], alloc) else none := by
  by_cases hint : (buf.length : Int) < intMax
  · simp [put, h, hint]
  · simp [put, hint]

/-- Several bytes. -/
def puts (buf : Text) : Text → Static Text
  | [] => pure buf
  | c :: cs => do
    let buf ← put buf c
    puts buf cs

theorem puts_run {alloc : Nat} {buf : Text} (cs : Text) (hroom : buf.length + cs.length ≤ alloc)
    (hbuf : (buf.length : Int) ≤ intMax) :
    (puts buf cs).run alloc =
      if ((buf.length + cs.length : Nat) : Int) ≤ intMax then some (buf ++ cs, alloc)
      else none := by
  induction cs generalizing buf with
  | nil =>
    rw [List.append_nil, List.length_nil, Nat.add_zero, if_pos hbuf]
    rfl
  | cons c cs ih =>
    rw [List.length_cons] at hroom ⊢
    rw [puts, StateT.run_bind, put_run c (by omega)]
    by_cases hint : (buf.length : Int) < intMax
    · have hlength : (buf ++ [c]).length = buf.length + 1 := List.length_append
      have hrest := ih (show (buf ++ [c]).length + cs.length ≤ alloc by omega) (by omega)
      rw [hlength, List.append_assoc, List.singleton_append] at hrest
      rw [if_pos hint, Option.bind_eq_bind, Option.bind_some, hrest, Nat.add_assoc,
        Nat.add_comm 1]
    · rw [if_neg hint, if_neg (by omega)]
      rfl

theorem terminate_run {alloc : Nat} {buf : Text} (h : buf.length < alloc) :
    (terminate buf).run alloc = some (buf, alloc) := by
  simp [terminate, h]

theorem escapeLoop_cons (c : UInt8) (str buf : Text) :
    escapeLoop (c :: str) buf = (do
      let buf ← puts buf (escapeByte c)
      escapeLoop str buf) := by
  rw [escapeLoop, escapeByte]
  split
  · simp only [puts, bind_assoc, pure_bind]
  split
  · simp only [puts, bind_assoc, pure_bind]
  · simp only [puts, bind_assoc, pure_bind]

theorem escapeLoop_run {alloc : Nat} (str : Text) {buf : Text}
    (hroom : buf.length + (escaped str).length < alloc) (hbuf : (buf.length : Int) ≤ intMax) :
    (escapeLoop str buf).run alloc =
      if ((buf.length + (escaped str).length : Nat) : Int) ≤ intMax then
        some (buf ++ escaped str, alloc)
      else none := by
  induction str generalizing buf with
  | nil =>
    rw [escaped, List.flatMap_nil, List.length_nil, Nat.add_zero] at hroom ⊢
    rw [escapeLoop, terminate_run hroom, List.append_nil, if_pos hbuf]
  | cons c str ih =>
    rw [escaped_cons, List.length_append] at hroom ⊢
    rw [escapeLoop_cons, StateT.run_bind, puts_run _ (by omega) hbuf]
    by_cases hint : ((buf.length + (escapeByte c).length : Nat) : Int) ≤ intMax
    · have hlength : (buf ++ escapeByte c).length = buf.length + (escapeByte c).length :=
        List.length_append
      have hrest := ih (show (buf ++ escapeByte c).length + (escaped str).length < alloc by omega)
        (by omega)
      rw [hlength, List.append_assoc] at hrest
      rw [if_pos hint, Option.bind_eq_bind, Option.bind_some, hrest, Nat.add_assoc]
    · rw [if_neg hint, if_neg (by omega)]
      rfl

/-- **Escaping** stays inside of the buffer. -/
theorem escape_runs (str : Text) :
    Runs (escape str) (escaped str) (((escaped str).length : Int) ≤ intMax) := by
  intro alloc
  have hlength := escaped_length str
  obtain ⟨alloc', hgrow, hroom⟩ := grow_run (str.length * 2 + 1) alloc
  have hloop := @escapeLoop_run alloc' str [] (by rw [List.length_nil]; omega) (by decide)
  rw [List.length_nil, Nat.zero_add, List.nil_append] at hloop
  rw [escape, StateT.run_bind, hgrow, Option.bind_eq_bind, Option.bind_some, hloop]
  exact ⟨fun h => ⟨alloc', if_pos h⟩, fun h => if_neg h⟩

theorem unescapeLoop_run {alloc : Nat} (str : Text) (doEscape : Bool) {buf : Text}
    (hroom : buf.length + str.length < alloc)
    (hint : ((buf.length + str.length : Nat) : Int) ≤ intMax) :
    (unescapeLoop str doEscape buf).run alloc =
      some (buf ++ unescapedFrom doEscape str, alloc) := by
  induction str generalizing doEscape buf with
  | nil =>
    rw [unescapedFrom, List.append_nil]
    exact terminate_run hroom
  | cons c str ih =>
    rw [List.length_cons] at hroom hint
    rw [unescapeLoop, unescapedFrom]
    split
    · exact ih true (by omega) (by omega)
    · generalize (if (doEscape && c = ch 'n') = true then ch '\n' else c) = d
      have hrest := @ih false (buf ++ [d])
        (by rw [List.length_append, List.length_singleton]; omega)
        (by rw [List.length_append, List.length_singleton]; omega)
      rw [List.append_assoc, List.singleton_append] at hrest
      rw [StateT.run_bind, put_run d (by omega), if_pos (by omega), Option.bind_eq_bind,
        Option.bind_some, hrest]

/-- **Unescaping** stays inside of the buffer, also where the last byte is a lone backslash. -/
theorem unescape_runs (str : Text) :
    Runs (unescape str) (unescaped str) ((str.length : Int) ≤ intMax) := by
  intro alloc
  obtain ⟨alloc', hgrow, hroom⟩ := grow_run (str.length + 1) alloc
  rw [unescape, StateT.run_bind, hgrow, Option.bind_eq_bind, Option.bind_some]
  constructor
  · intro hint
    refine ⟨alloc', ?_⟩
    rw [if_neg (Int.not_lt.mpr hint)]
    exact @unescapeLoop_run alloc' str false [] (by rw [List.length_nil]; omega)
      (by rw [List.length_nil]; omega)
  · intro hint
    rw [if_pos (Int.not_le.mp hint)]
    rfl

/-! ### Lines -/

/-- The lines that hold a string. -/
inductive StringKey where
  | file | libFile | liveFilter | browserDir | markedPl
  deriving DecidableEq

def StringKey.word : StringKey → Text
  | .file => ascii "file"
  | .libFile => ascii "lib_file"
  | .liveFilter => ascii "live-filter"
  | .browserDir => ascii "browser-dir"
  | .markedPl => ascii "marked-pl"

def Program.string (p : Program) : StringKey → Option Text
  | .file => p.track.map fun t => t.1.val
  | .libFile => p.libTrack.map Subtype.val
  | .liveFilter => p.liveFilter.map Subtype.val
  | .browserDir => some p.browserDir
  | .markedPl => some p.markedPl

def Resume.string (r : Resume) : StringKey → Option Text
  | .file => r.filename
  | .libFile => r.libFilename
  | .liveFilter => r.liveFilter
  | .browserDir => r.browserDir
  | .markedPl => r.markedPl

/-- A line of the file. -/
inductive Entry where
  | status (i : Fin playerStatusNames.length)
  | position (pos : Int)
  | view (i : Fin viewNames.length)
  | string (key : StringKey) (str : Str)

def Entry.word : Entry → Text
  | .status _ => ascii "status"
  | .position _ => ascii "position"
  | .view _ => ascii "view"
  | .string key _ => key.word

def Entry.arg : Entry → Text
  | .status i => ascii (playerStatusNames.get i)
  | .position pos => printInt pos
  | .view i => ascii (viewNames.get i)
  | .string _ str => escaped str

def Entry.text (e : Entry) : Text := printLine e.word e.arg

def trackEntries : Option (Str × Int) → List Entry
  | none => []
  | some (filename, pos) => [.string .file filename, .position pos]

def stringEntry (key : StringKey) (str : Option Str) : List Entry := (str.map (.string key)).toList

def entries (p : Program) : List Entry :=
  .status p.status :: trackEntries p.track ++ stringEntry .libFile p.libTrack ++
    .view p.curView :: stringEntry .liveFilter p.liveFilter ++
    [.string .browserDir p.browserDir, .string .markedPl p.markedPl]

/-- What the file holds. -/
def content (p : Program) : Text := (entries p).flatMap Entry.text

/-- The escaped strings fit into the buffer. -/
def Escapable (p : Program) : Prop :=
  ∀ key, ∀ str ∈ p.string key, ((escaped str).length : Int) ≤ intMax

theorem stringLine_runs (key : StringKey) (str : Option Str) :
    Runs (stringLine key.word str) ((stringEntry key str).flatMap Entry.text)
      (∀ s ∈ str, ((escaped s).length : Int) ≤ intMax) := by
  cases str with
  | none => exact (Runs.pure _).congr (iff_of_true trivial nofun)
  | some str =>
    have hrun : Runs (stringLine key.word (some str)) (printLine key.word (escaped str))
        (((escaped str).length : Int) ≤ intMax ∧ True) :=
      (escape_runs str).bind (Runs.pure _)
    have htext : (stringEntry key (some str)).flatMap Entry.text =
        printLine key.word (escaped str) := List.append_nil _
    rw [htext]
    exact hrun.congr (by simp)

theorem trackLines_runs (track : Option (Str × Int)) :
    Runs (trackLines track) ((trackEntries track).flatMap Entry.text)
      (∀ t ∈ track, ((escaped t.1).length : Int) ≤ intMax) := by
  cases track with
  | none => exact (Runs.pure _).congr (iff_of_true trivial nofun)
  | some t =>
    obtain ⟨filename, pos⟩ := t
    have hrun : Runs (trackLines (some (filename, pos)))
        (printLine (ascii "file") (escaped filename) ++ printLine (ascii "position") (printInt pos))
        (((escaped filename).length : Int) ≤ intMax ∧ True) :=
      (escape_runs filename).bind (Runs.pure _)
    have htext : (trackEntries (some (filename, pos))).flatMap Entry.text =
        printLine (ascii "file") (escaped filename) ++
          printLine (ascii "position") (printInt pos) := by
      simp [trackEntries, Entry.text, Entry.word, Entry.arg, StringKey.word]
    rw [htext]
    exact hrun.congr (by simp)

theorem forall_stringKey {P : StringKey → Prop} : (∀ key, P key) ↔
    P .file ∧ P .libFile ∧ P .liveFilter ∧ P .browserDir ∧ P .markedPl := by
  constructor
  · exact fun h => ⟨h _, h _, h _, h _, h _⟩
  · rintro ⟨hfile, hlib, hfilter, hdir, hmarked⟩ key
    cases key <;> assumption

theorem resumeExit_runs (p : Program) : Runs (resumeExit p) (content p) (Escapable p) := by
  have hrun := (trackLines_runs p.track).bind (f := fun track => do
      let libTrack ← stringLine (ascii "lib_file") p.libTrack
      let liveFilter ← stringLine (ascii "live-filter") p.liveFilter
      let browserDir ← stringLine (ascii "browser-dir") (some p.browserDir)
      let markedPl ← stringLine (ascii "marked-pl") (some p.markedPl)
      let status := printLine (ascii "status") (ascii (playerStatusNames.get p.status))
      let view := printLine (ascii "view") (ascii (viewNames.get p.curView))
      return status ++ track ++ libTrack ++ view ++ liveFilter ++ browserDir ++ markedPl)
    ((stringLine_runs .libFile p.libTrack).bind ((stringLine_runs .liveFilter p.liveFilter).bind
      ((stringLine_runs .browserDir (some p.browserDir)).bind
        ((stringLine_runs .markedPl (some p.markedPl)).bind (Runs.pure _)))))
  have hcontent : content p = printLine (ascii "status") (ascii (playerStatusNames.get p.status)) ++
      (trackEntries p.track).flatMap Entry.text ++
      (stringEntry .libFile p.libTrack).flatMap Entry.text ++
      printLine (ascii "view") (ascii (viewNames.get p.curView)) ++
      (stringEntry .liveFilter p.liveFilter).flatMap Entry.text ++
      (stringEntry .browserDir (some p.browserDir)).flatMap Entry.text ++
      (stringEntry .markedPl (some p.markedPl)).flatMap Entry.text := by
    simp [content, entries, stringEntry, Entry.text, Entry.word, Entry.arg]
  rw [hcontent]
  refine hrun.congr ?_
  rw [Escapable, forall_stringKey]
  simp only [Program.string, Option.mem_def, Option.map_eq_some_iff, forall_exists_index, and_imp,
    forall_apply_eq_imp_iff₂, Option.some.injEq, forall_eq', and_true]

/-! ### Reading a line -/

theorem stripCr_printed (word arg : Text) :
    stripCr (word ++ ch ' ' :: arg) = word ++ ch ' ' :: stripCr arg := by
  rcases List.eq_nil_or_concat arg with rfl | ⟨arg, c, rfl⟩
  · rw [stripCr, List.getLast?_concat, if_neg (by decide)]
    rfl
  · have hrow : word ++ ch ' ' :: (arg.concat c) = (word ++ ch ' ' :: arg) ++ [c] := by simp
    rw [hrow, List.concat_eq_append, stripCr, stripCr, List.getLast?_concat, List.getLast?_concat,
      List.dropLast_concat, List.dropLast_concat]
    split <;> simp

/-- What is read of an argument. -/
def readArg (arg : Text) : Option Text :=
  if skipSpaces (stripCr arg) = [] then none else some (unescaped (skipSpaces (stripCr arg)))

theorem skipSpaces_escaped (str : Text) : skipSpaces (escaped str) = escaped (skipSpaces str) := by
  induction str with
  | nil => rfl
  | cons c str ih =>
    by_cases hc : c = ch ' '
    · subst hc
      have hbyte : escapeByte (ch ' ') = [ch ' '] := by decide
      rw [escaped_cons, hbyte, List.singleton_append, skipSpaces_space, skipSpaces_space, ih]
    · have hhead : (escaped (c :: str)).head? ≠ some (ch ' ') := by
        rw [escaped_cons, escapeByte]
        split
        · exact fun h => absurd (Option.some.inj h) (by decide)
        split
        · exact fun h => absurd (Option.some.inj h) (by decide)
        · simpa using hc
      rw [skipSpaces_of_head hhead, skipSpaces_of_head (by simpa using hc)]

theorem escaped_concat (str : Text) (c : UInt8) :
    escaped (str ++ [c]) = escaped str ++ escapeByte c := by
  rw [escaped, List.flatMap_append, List.flatMap_singleton, escaped]

theorem stripCr_concat (str : Text) (c : UInt8) :
    stripCr (str ++ [c]) = if c = ch '\r' then str else str ++ [c] := by
  rw [stripCr, List.getLast?_concat, List.dropLast_concat]
  simp only [Option.some.injEq]

theorem stripCr_escaped (str : Text) : stripCr (escaped str) = escaped (stripCr str) := by
  rcases List.eq_nil_or_concat str with rfl | ⟨str, c, rfl⟩
  · rfl
  · rw [List.concat_eq_append, stripCr_concat, escaped_concat, escapeByte]
    split
    · rename_i hslash
      rw [List.append_cons, stripCr_concat, if_neg (by decide), hslash, if_neg (by decide),
        escaped_concat, ← List.append_cons]
      rfl
    split
    · rename_i hnewline
      rw [List.append_cons, stripCr_concat, if_neg (by decide), hnewline, if_neg (by decide),
        escaped_concat, ← List.append_cons]
      rfl
    · rename_i hslash hnewline
      rw [stripCr_concat]
      split
      · rfl
      · rw [escaped_concat, escapeByte, if_neg hslash, if_neg hnewline]

/-- The string that is read of what is written of another one. -/
theorem readArg_escaped (str : Text) : readArg (escaped str) =
    if skipSpaces (stripCr str) = [] then none else some (skipSpaces (stripCr str)) := by
  have hnil : escaped (skipSpaces (stripCr str)) = [] ↔ skipSpaces (stripCr str) = [] := by
    cases skipSpaces (stripCr str) with
    | nil => exact iff_of_true rfl rfl
    | cons c rest =>
      have hbyte : escapeByte c ≠ [] :=
        List.ne_nil_of_length_pos (escapeByte_length c).1
      rw [escaped_cons]
      exact iff_of_false (List.append_ne_nil_of_left_ne_nil hbyte _) (List.cons_ne_nil _ _)
  rw [readArg, stripCr_escaped, skipSpaces_escaped, unescaped_escaped]
  simp only [hnil]

/-- A string that neither the lines nor the words take anything of. -/
def Kept (str : Text) : Prop :=
  str ≠ [] ∧ str.head? ≠ some (ch ' ') ∧ str.getLast? ≠ some (ch '\r')

theorem stripCr_length (str : Text) : (stripCr str).length ≤ str.length := by
  rw [stripCr]
  split
  · exact (List.dropLast_sublist str).length_le
  · exact Nat.le_refl _

theorem readArg_eq_iff (str : Text) : readArg (escaped str) = some str ↔ Kept str := by
  rw [readArg_escaped]
  constructor
  · intro h
    split at h
    · cases h
    · rename_i hne
      have heq := Option.some.inj h
      refine ⟨heq ▸ hne, heq ▸ skipSpaces_head _, fun hlast => ?_⟩
      have hstrip : (stripCr str).length = str.length - 1 := by
        rw [stripCr, if_pos hlast, List.length_dropLast]
      have hskip := skipSpaces_length (stripCr str)
      have hpos := List.length_pos_of_ne_nil (heq ▸ hne)
      rw [heq] at hskip
      omega
  · rintro ⟨hne, hhead, hlast⟩
    have hstrip : stripCr str = str := if_neg hlast
    rw [hstrip, skipSpaces_of_head hhead, if_neg hne]

/-! ### The lines of the file -/

/-- What a line changes. -/
def handled (resume : Resume) (line : Text) : Resume :=
  match parseCommand line with
  | some (cmd, some arg) =>
    if cmd = ascii "status" then
      {resume with
        status := (parseEnum arg 0 nrPlayerStatus playerStatusNames).getD resume.status}
    else if cmd = ascii "file" then {resume with filename := some (unescaped arg)}
    else if cmd = ascii "position" then {resume with position := (strToInt arg).1}
    else if cmd = ascii "lib_file" then {resume with libFilename := some (unescaped arg)}
    else if cmd = ascii "view" then
      {resume with view := (parseEnum arg 0 nrViews viewNames).getD resume.view}
    else if cmd = ascii "live-filter" then {resume with liveFilter := some (unescaped arg)}
    else if cmd = ascii "browser-dir" then {resume with browserDir := some (unescaped arg)}
    else if cmd = ascii "marked-pl" then {resume with markedPl := some (unescaped arg)}
    else resume
  | _ => resume

theorem parseCommand_length {line cmd arg : Text} (h : parseCommand line = some (cmd, some arg)) :
    arg.length ≤ line.length := by
  rw [parseCommand] at h
  split at h
  · cases h
  · have harg := (Prod.mk.inj (Option.some.inj h)).2
    split at harg
    · cases harg
    · rw [← Option.some.inj harg]
      have hword := (List.dropWhile_sublist (l := skipSpaces line) (· ≠ ch ' ')).length_le
      have hskip := skipSpaces_length ((skipSpaces line).dropWhile (· ≠ ch ' '))
      exact hskip.trans (hword.trans (skipSpaces_length line))

/-- A line of a file that is not too long is handled, whatever is in it. -/
theorem handleResumeLine_runs (resume : Resume) {line : Text}
    (hline : (line.length : Int) ≤ intMax) :
    Runs (handleResumeLine resume line) (handled resume line) True := by
  have hpure (r : Resume) : Runs (pure r) r True := Runs.pure r
  rw [handleResumeLine, handled]
  split
  · rename_i cmd arg hparse
    have hlength := parseCommand_length hparse
    have hunescape (f : Option Text → Resume) :
        Runs (do return f (some (← unescape arg))) (f (some (unescaped arg))) True :=
      ((unescape_runs arg).bind (f := fun str => pure (f (some str))) (Runs.pure _)).congr
        (iff_of_true ⟨by omega, trivial⟩ trivial)
    split
    · exact hpure _
    split
    · exact hunescape fun str => {resume with filename := str}
    split
    · exact hpure _
    split
    · exact hunescape fun str => {resume with libFilename := str}
    split
    · exact hpure _
    split
    · exact hunescape fun str => {resume with liveFilter := str}
    split
    · exact hunescape fun str => {resume with browserDir := str}
    split
    · exact hunescape fun str => {resume with markedPl := str}
    · exact hpure _
  · exact hpure _

theorem forEachLineLoop_length (fuel : Nat) (buf : Text) :
    ∀ line ∈ forEachLineLoop fuel buf, line.length ≤ buf.length := by
  induction fuel generalizing buf with
  | zero => exact nofun
  | succ fuel ih =>
    intro line hline
    rw [forEachLineLoop] at hline
    split at hline
    · cases hline
    obtain rfl | hline := List.mem_cons.mp hline
    · have htoLine := (List.takeWhile_sublist (l := stripCr (buf.takeWhile (· ≠ ch '\n')))
        (· ≠ 0)).length_le
      have hstrip := stripCr_length (buf.takeWhile (· ≠ ch '\n'))
      exact htoLine.trans (hstrip.trans (List.takeWhile_sublist _).length_le)
    · exact (ih _ line hline).trans (List.drop_sublist _ _).length_le

theorem foldlM_runs {lines : List Text} (hlines : ∀ line ∈ lines, (line.length : Int) ≤ intMax)
    (resume : Resume) :
    Runs (lines.foldlM handleResumeLine resume) (lines.foldl handled resume) True := by
  induction lines generalizing resume with
  | nil => exact Runs.pure resume
  | cons line lines ih =>
    rw [List.foldlM_cons, List.foldl_cons]
    exact ((handleResumeLine_runs resume (hlines line List.mem_cons_self)).bind
      (ih (fun l hl => hlines l (List.mem_cons_of_mem _ hl)) _)).congr
        (iff_of_true ⟨trivial, trivial⟩ trivial)

/-- What is read of a file. -/
def loaded (text : Text) : Resume :=
  (bufferForEachLine (text.take (toInt text.length).toNat)).foldl handled {}

/-- Any file is read. -/
theorem resumeLoad_runs (text : Text) : Runs (resumeLoad text) (loaded text) True := by
  refine foldlM_runs (fun line hline => ?_) {}
  have hlength := forEachLineLoop_length _ _ line hline
  have htake := List.length_take_le (toInt text.length).toNat text
  have hsize := toInt_le text.length
  have hmax : (0 : Int) ≤ intMax := by decide
  omega

/-! ### Entries -/

theorem StringKey.word_inj {key key' : StringKey} : key.word = key'.word ↔ key = key' := by
  revert key key'
  have hall : ∀ key key' : StringKey, key.word = key'.word → key = key' := by
    rintro (_ | _ | _ | _ | _) (_ | _ | _ | _ | _) <;> decide
  exact fun {key key'} => ⟨hall key key', congrArg _⟩

theorem StringKey.word_plain (key : StringKey) :
    (key.word ≠ [] ∧ ch ' ' ∉ key.word ∧ ch '\n' ∉ key.word ∧ 0 ∉ key.word ∧
      key.word.head? ≠ some (ch '#')) ∧
    key.word ≠ ascii "status" ∧ key.word ≠ ascii "position" ∧ key.word ≠ ascii "view" := by
  cases key <;> decide

theorem handled_string {line cmd arg : Text} (hparse : parseCommand line = some (cmd, some arg))
    (resume : Resume) (key : StringKey) : (handled resume line).string key =
      if cmd = key.word then some (unescaped arg) else resume.string key := by
  obtain ⟨-, hstatus, hposition, hview⟩ := key.word_plain
  have hkey (k : StringKey) (h : cmd = k.word) : cmd = key.word ↔ k = key := by
    rw [h, StringKey.word_inj]
  rw [handled, hparse]
  dsimp only
  split
  · rename_i hcmd
    rw [hcmd, if_neg hstatus.symm]
    rfl
  split
  · rename_i hcmd
    simp only [hkey .file hcmd]
    cases key <;> rfl
  split
  · rename_i hcmd
    rw [hcmd, if_neg hposition.symm]
    rfl
  split
  · rename_i hcmd
    simp only [hkey .libFile hcmd]
    cases key <;> rfl
  split
  · rename_i hcmd
    rw [hcmd, if_neg hview.symm]
    rfl
  split
  · rename_i hcmd
    simp only [hkey .liveFilter hcmd]
    cases key <;> rfl
  split
  · rename_i hcmd
    simp only [hkey .browserDir hcmd]
    cases key <;> rfl
  split
  · rename_i hcmd
    simp only [hkey .markedPl hcmd]
    cases key <;> rfl
  · rename_i hfile _ hlib _ hfilter hdir hmarked
    have hother : cmd ≠ key.word := by
      cases key with
      | file => exact hfile
      | libFile => exact hlib
      | liveFilter => exact hfilter
      | browserDir => exact hdir
      | markedPl => exact hmarked
    rw [if_neg hother]

theorem handled_bare {line : Text} (hparse : ∀ cmd arg, parseCommand line ≠ some (cmd, some arg))
    (resume : Resume) : handled resume line = resume := by
  rw [handled]
  split
  · rename_i hsome
    exact absurd hsome (hparse _ _)
  · rfl

/-- Text that is neither cut into lines nor ends early. -/
def Plain (t : Text) : Prop := ch '\n' ∉ t ∧ 0 ∉ t

theorem Plain.append {s t : Text} (hs : Plain s) (ht : Plain t) : Plain (s ++ t) :=
  ⟨List.not_mem_append hs.1 ht.1, List.not_mem_append hs.2 ht.2⟩

theorem escaped_plain {str : Text} (hstr : 0 ∉ str) : Plain (escaped str) := by
  induction str with
  | nil => exact ⟨List.not_mem_nil, List.not_mem_nil⟩
  | cons c str ih =>
    obtain ⟨hzero, hrest⟩ := not_or.mp fun h => hstr (List.mem_cons.mpr h)
    have hbyte : Plain (escapeByte c) := by
      unfold escapeByte Plain
      split
      · decide
      split
      · decide
      · rename_i hnewline
        exact ⟨fun h => hnewline (List.mem_singleton.mp h).symm,
          fun h => hzero (List.mem_singleton.mp h)⟩
    rw [escaped_cons]
    exact hbyte.append (ih hrest)

theorem printInt_plain (x : Int) : Plain (printInt x) := by
  have hdecimal (n : Nat) : Plain (decimal n) :=
    ⟨fun h => absurd (decimal_digits h) (by decide), fun h => absurd (decimal_digits h) (by decide)⟩
  have hsign : Plain [ch '-'] := by
    unfold Plain
    decide
  rw [printInt]
  split
  · exact hsign.append (hdecimal _)
  · exact hdecimal _

theorem Entry.arg_plain (e : Entry) : Plain e.arg := by
  cases e with
  | status i =>
    have hall : ∀ i : Fin playerStatusNames.length,
        ch '\n' ∉ ascii (playerStatusNames.get i) ∧ 0 ∉ ascii (playerStatusNames.get i) := by
      decide
    exact hall i
  | position pos => exact printInt_plain pos
  | view i =>
    have hall : ∀ i : Fin viewNames.length,
        ch '\n' ∉ ascii (viewNames.get i) ∧ 0 ∉ ascii (viewNames.get i) := by
      decide
    exact hall i
  | string key str => exact escaped_plain str.2

theorem Entry.word_plain (e : Entry) :
    e.word ≠ [] ∧ ch ' ' ∉ e.word ∧ ch '\n' ∉ e.word ∧ 0 ∉ e.word ∧
      e.word.head? ≠ some (ch '#') := by
  cases e with
  | status i =>
    rw [Entry.word]
    decide
  | position pos =>
    rw [Entry.word]
    decide
  | view i =>
    rw [Entry.word]
    decide
  | string key str => exact key.word_plain.1

/-- The line without its newline. -/
def Entry.row (e : Entry) : Text := e.word ++ ch ' ' :: e.arg

theorem Entry.text_eq (e : Entry) (rest : Text) : e.text ++ rest = e.row ++ ch '\n' :: rest := by
  simp [Entry.text, Entry.row, printLine]

theorem Entry.row_plain (e : Entry) : Plain e.row := by
  obtain ⟨-, -, hnewline, hzero, -⟩ := e.word_plain
  have hword : Plain e.word := ⟨hnewline, hzero⟩
  have hspace : Plain [ch ' '] := by
    unfold Plain
    decide
  exact hword.append (hspace.append e.arg_plain)

/-- The key of a line that holds a string. -/
def Entry.key : Entry → Option StringKey
  | .string key _ => some key
  | _ => none

theorem Entry.word_eq_iff (e : Entry) (key : StringKey) : e.word = key.word ↔ e.key = some key := by
  obtain ⟨-, hstatus, hposition, hview⟩ := key.word_plain
  cases e with
  | status i => exact iff_of_false hstatus.symm nofun
  | position pos => exact iff_of_false hposition.symm nofun
  | view i => exact iff_of_false hview.symm nofun
  | string key' str => exact StringKey.word_inj.trans (Option.some_inj (a := key') (b := key)).symm

theorem handled_row (e : Entry) (resume : Resume) (key : StringKey) :
    (handled resume (stripCr e.row)).string key =
      if e.key = some key then (readArg e.arg).or (resume.string key) else resume.string key := by
  obtain ⟨hne, hspace, -, -, hhash⟩ := e.word_plain
  have hparse : parseCommand (stripCr e.row) = some (e.word,
      if skipSpaces (stripCr e.arg) = [] then none else some (skipSpaces (stripCr e.arg))) := by
    rw [Entry.row, stripCr_printed, parseCommand_word _ hne hspace hhash]
  rw [readArg]
  split at hparse
  · rename_i hempty
    have hbare : ∀ cmd arg, parseCommand (stripCr e.row) ≠ some (cmd, some arg) := by
      rw [hparse]
      exact nofun
    rw [handled_bare hbare, if_pos hempty, Option.none_or, ite_self]
  · rename_i harg
    rw [handled_string hparse, if_neg harg, Option.some_or]
    simp only [e.word_eq_iff]

theorem foldl_rows (es : List Entry) (resume : Resume) (key : StringKey) :
    ((es.map fun e => stripCr e.row).foldl handled resume).string key =
      (es.filter fun e => e.key = some key).foldl (fun str e => (readArg e.arg).or str)
        (resume.string key) := by
  induction es generalizing resume with
  | nil => rfl
  | cons e es ih =>
    rw [List.map_cons, List.foldl_cons, ih, handled_row, List.filter_cons]
    by_cases hkey : e.key = some key
    · simp [hkey]
    · simp [hkey]

theorem stringEntry_key (key key' : StringKey) (str : Option Str) :
    (stringEntry key' str).filter (fun e => e.key = some key) =
      if key' = key then stringEntry key' str else [] := by
  cases str with
  | none => exact (ite_self _).symm
  | some str =>
    by_cases h : key' = key
    · simp [stringEntry, Entry.key, h]
    · simp [stringEntry, Entry.key, h]

theorem trackEntries_key (key : StringKey) (track : Option (Str × Int)) :
    (trackEntries track).filter (fun e => e.key = some key) =
      if .file = key then stringEntry .file (track.map Prod.fst) else [] := by
  cases track with
  | none => exact (ite_self _).symm
  | some t =>
    by_cases h : .file = key
    · simp [trackEntries, stringEntry, Entry.key, h]
    · simp [trackEntries, Entry.key, h]

/-- The string of a key, which has no NUL. -/
def Program.str (p : Program) : StringKey → Option Str
  | .file => p.track.map Prod.fst
  | .libFile => p.libTrack
  | .liveFilter => p.liveFilter
  | .browserDir => some p.browserDir
  | .markedPl => some p.markedPl

theorem string_eq (p : Program) (key : StringKey) : p.string key = (p.str key).map Subtype.val := by
  cases key with
  | file => exact (Option.map_map _ _ _).symm
  | libFile => rfl
  | liveFilter => rfl
  | browserDir => rfl
  | markedPl => rfl

theorem entries_eq (p : Program) : entries p =
    [.status p.status] ++ trackEntries p.track ++ stringEntry .libFile p.libTrack ++
      [.view p.curView] ++ stringEntry .liveFilter p.liveFilter ++
      stringEntry .browserDir (some p.browserDir) ++ stringEntry .markedPl (some p.markedPl) := by
  simp [entries, stringEntry]

theorem entries_filter (p : Program) (key : StringKey) :
    (entries p).filter (fun e => e.key = some key) = stringEntry key (p.str key) := by
  have hstatus : [Entry.status p.status].filter (fun e => e.key = some key) = [] := rfl
  have hview : [Entry.view p.curView].filter (fun e => e.key = some key) = [] := rfl
  rw [entries_eq]
  simp only [List.filter_append, stringEntry_key, trackEntries_key, hstatus, hview]
  cases key <;> simp [Program.str]

/-- A string has one line at most. -/
theorem entries_key (p : Program) (key : StringKey) :
    ((entries p).filter fun e => e.key = some key).map Entry.arg =
      ((p.string key).map escaped).toList := by
  rw [entries_filter, string_eq]
  cases p.str key <;> rfl

/-- What is read of all lines. -/
theorem foldl_content (p : Program) (key : StringKey) :
    (((entries p).map fun e => stripCr e.row).foldl handled {}).string key =
      (p.string key).bind fun str => readArg (escaped str) := by
  have hnone : ({} : Resume).string key = none := by
    cases key <;> rfl
  have hmap (es : List Entry) (str : Option Text) :
      es.foldl (fun str e => (readArg e.arg).or str) str =
        (es.map Entry.arg).foldl (fun str arg => (readArg arg).or str) str := by
    rw [List.foldl_map]
  rw [foldl_rows, hmap, entries_key, hnone]
  cases p.string key with
  | none => rfl
  | some str => exact Option.or_none

theorem lines_content (es : List Entry) {fuel : Nat}
    (hfuel : (es.flatMap Entry.text).length ≤ fuel) :
    forEachLineLoop fuel (es.flatMap Entry.text) = es.map fun e => stripCr e.row := by
  induction es generalizing fuel with
  | nil => cases fuel <;> rfl
  | cons e es ih =>
    obtain ⟨hnewline, hzero⟩ := e.row_plain
    rw [List.flatMap_cons, e.text_eq, List.length_append, List.length_cons] at hfuel
    obtain ⟨fuel, rfl⟩ : ∃ k, fuel = k + 1 := ⟨fuel - 1, by omega⟩
    rw [List.flatMap_cons, e.text_eq, forEachLineLoop_append hnewline, ih (by omega), List.map_cons,
      toLine_of_notMem fun h => hzero (Pl.stripCr_subset _ _ h)]

/-- A file whose size is an `int`. -/
theorem loaded_content {p : Program} (hsize : ((content p).length : Int) ≤ intMax)
    (key : StringKey) :
    (loaded (content p)).string key = (p.string key).bind fun str => readArg (escaped str) := by
  have htake : (content p).take (toInt (content p).length).toNat = content p := by
    rw [toInt_of_le (by omega) hsize, Int.toNat_natCast, List.take_length]
  rw [loaded, htake, bufferForEachLine, content, lines_content (entries p) (Nat.le_refl _)]
  exact foldl_content p key

/-! ### A file that is too long -/

theorem toLine_front (row : Text) : toLine (stripCr row) <+: row := by
  refine (List.takeWhile_prefix _).trans ?_
  rw [stripCr]
  split
  · exact List.dropLast_prefix row
  · exact List.prefix_rfl

/-- A text without a newline is one line. -/
theorem lines_row {row : Text} (hrow : ch '\n' ∉ row) (fuel : Nat) :
    ∀ line ∈ forEachLineLoop fuel row, line <+: row := by
  intro line hline
  cases fuel with
  | zero => cases hline
  | succ fuel =>
    have htake : row.takeWhile (· ≠ ch '\n') = row :=
      List.takeWhile_eq_self_iff.mpr fun c hc => decide_eq_true fun h => hrow (h ▸ hc)
    have hdrop : row.drop (row.length + 1) = [] := List.drop_eq_nil_of_le (Nat.le_succ _)
    rw [forEachLineLoop] at hline
    split at hline
    · cases hline
    dsimp only at hline
    rw [htake, hdrop] at hline
    obtain rfl | hline := List.mem_cons.mp hline
    · exact toLine_front row
    · cases fuel <;> cases hline

/-- The lines of a front of the file are fronts of its lines. -/
theorem lines_front (es : List Entry) {front : Text} (hfront : front <+: es.flatMap Entry.text)
    (fuel : Nat) : ∀ line ∈ forEachLineLoop fuel front, ∃ e ∈ es, line <+: e.row := by
  induction es generalizing front fuel with
  | nil =>
    intro line hline
    rw [List.prefix_nil.mp hfront] at hline
    cases fuel <;> cases hline
  | cons e es ih =>
    intro line hline
    obtain ⟨hnewline, -⟩ := e.row_plain
    rw [List.flatMap_cons, e.text_eq] at hfront
    have hshort (hrow : front <+: e.row) : ∃ e' ∈ e :: es, line <+: e'.row := by
      have hfree : ch '\n' ∉ front := fun h => hnewline (hrow.subset h)
      exact ⟨e, List.mem_cons_self, (lines_row hfree fuel line hline).trans hrow⟩
    obtain hrow | ⟨rest, rfl⟩ := List.prefix_or_prefix_of_prefix hfront (List.prefix_append e.row _)
    · exact hshort hrow
    cases rest with
    | nil => exact hshort (by simp)
    | cons c rest =>
      obtain ⟨rfl, hrest⟩ :=
        List.cons_prefix_cons.mp ((List.prefix_append_right_inj e.row).mp hfront)
      cases fuel with
      | zero => cases hline
      | succ fuel =>
        rw [forEachLineLoop_append hnewline] at hline
        obtain rfl | hline := List.mem_cons.mp hline
        · exact ⟨e, List.mem_cons_self, (toLine_front e.row)⟩
        · obtain ⟨e', he', hprefix⟩ := ih hrest fuel line hline
          exact ⟨e', List.mem_cons_of_mem _ he', hprefix⟩

/-- A front of a line is not taken for a line with another word. -/
theorem parseCommand_front (e : Entry) {line cmd arg : Text} (hline : line <+: e.row)
    (hparse : parseCommand line = some (cmd, some arg)) : cmd = e.word := by
  obtain ⟨hne, hspace, -, -, hhash⟩ := e.word_plain
  have hword (hshort : line <+: e.word) : cmd = e.word := by
    have hfree : ch ' ' ∉ line := fun h => hspace (hshort.subset h)
    have hpos : ∀ c ∈ line, decide (c ≠ ch ' ') = true :=
      fun c hc => decide_eq_true fun h => hfree (h ▸ hc)
    have hdrop : line.dropWhile (· ≠ ch ' ') = [] := List.dropWhile_eq_nil_iff.mpr hpos
    rw [parseCommand, skipSpaces_of_head (head_ne_space hfree), hdrop] at hparse
    split at hparse
    · cases hparse
    · cases hparse
  obtain hshort | ⟨rest, rfl⟩ := List.prefix_or_prefix_of_prefix hline (List.prefix_append e.word _)
  · exact hword hshort
  cases rest with
  | nil => exact hword (by simp)
  | cons c rest =>
    obtain ⟨rfl, -⟩ := List.cons_prefix_cons.mp ((List.prefix_append_right_inj e.word).mp hline)
    rw [parseCommand_word rest hne hspace hhash] at hparse
    exact (Prod.mk.inj (Option.some.inj hparse)).1.symm

/-- The line of the marked playlist is the last one. -/
theorem content_last (p : Program) : ∃ es : List Entry, (∀ e ∈ es, e.key ≠ some .markedPl) ∧
    content p = es.flatMap Entry.text ++ (Entry.string .markedPl p.markedPl).text := by
  refine ⟨.status p.status :: trackEntries p.track ++ stringEntry .libFile p.libTrack ++
    .view p.curView :: stringEntry .liveFilter p.liveFilter ++ [.string .browserDir p.browserDir],
    ?_, by simp [content, entries]⟩
  obtain ⟨status, track, libTrack, view, liveFilter, browserDir, markedPl⟩ := p
  cases track <;> cases libTrack <;> cases liveFilter <;>
    simp [trackEntries, stringEntry, Entry.key]

theorem toInt_tooLong {n : Nat} (h : intMax < n) : toInt n + 2 ^ 32 ≤ n := by
  unfold intMax at h
  rw [toInt, Int.bmod]
  split <;> omega

/-- Where the size of the file is no `int`, the last line is not read. -/
theorem loaded_tooLong {p : Program} (hescape : Escapable p)
    (hsize : intMax < ((content p).length : Int)) :
    (loaded (content p)).string .markedPl = none := by
  obtain ⟨es, hkey, hcontent⟩ := content_last p
  have hmarked : ((escaped p.markedPl).length : Int) ≤ intMax := hescape .markedPl _ rfl
  have hlast : (Entry.string .markedPl p.markedPl).text.length =
      (escaped p.markedPl).length + 11 := by
    have hword : (ascii "marked-pl").length = 9 := by decide
    simp only [Entry.text, printLine, Entry.word, Entry.arg, StringKey.word, List.length_append,
      List.length_cons, List.length_nil, hword]
    omega
  have hlength : (content p).length =
      (es.flatMap Entry.text).length + (Entry.string .markedPl p.markedPl).text.length := by
    rw [hcontent, List.length_append]
  have htake : (toInt (content p).length).toNat ≤ (es.flatMap Entry.text).length := by
    have hover := toInt_tooLong hsize
    unfold intMax at hmarked
    omega
  have hfront : (content p).take (toInt (content p).length).toNat <+: es.flatMap Entry.text := by
    rw [hcontent, List.take_append_of_le_length (hcontent ▸ htake)]
    exact List.take_prefix _ _
  have hlines := lines_front es hfront
    ((content p).take (toInt (content p).length).toNat).length
  rw [loaded, bufferForEachLine]
  generalize forEachLineLoop _ _ = lines at hlines ⊢
  have hkeep (resume : Resume) :
      (lines.foldl handled resume).string .markedPl = resume.string .markedPl := by
    induction lines generalizing resume with
    | nil => rfl
    | cons line lines ih =>
      obtain ⟨e, he, hprefix⟩ := hlines line List.mem_cons_self
      rw [List.foldl_cons, ih fun l hl => hlines l (List.mem_cons_of_mem _ hl)]
      by_cases hparse : ∃ cmd arg, parseCommand line = some (cmd, some arg)
      · obtain ⟨cmd, arg, hparse⟩ := hparse
        have hother : cmd ≠ StringKey.markedPl.word := by
          rw [parseCommand_front e hprefix hparse]
          exact fun h => hkey e he ((e.word_eq_iff _).mp h)
        rw [handled_string hparse, if_neg hother]
      · rw [handled_bare fun cmd arg h => hparse ⟨cmd, arg, h⟩]
  exact hkeep {}

/-! ### The round trip -/

/-- The strings are given back, whatever the sizes of the buffers were. -/
def Resumes (p : Program) : Prop :=
  ∀ alloc alloc', ∃ text size r size', (resumeExit p).run alloc = some (text, size) ∧
    (resumeLoad text).run alloc' = some (r, size') ∧ ∀ key, r.string key = p.string key

theorem resumes_iff_loaded (p : Program) : Resumes p ↔
    Escapable p ∧ ∀ key, (loaded (content p)).string key = p.string key := by
  constructor
  · intro h
    obtain ⟨text, size, r, size', hexit, hload, hstring⟩ := h 0 0
    obtain ⟨hescape, rfl⟩ := (resumeExit_runs p).result hexit
    obtain ⟨-, rfl⟩ := (resumeLoad_runs (content p)).result hload
    exact ⟨hescape, hstring⟩
  · rintro ⟨hescape, hstring⟩ alloc alloc'
    obtain ⟨size, hexit⟩ := (resumeExit_runs p alloc).1 hescape
    obtain ⟨size', hload⟩ := (resumeLoad_runs (content p) alloc').1 trivial
    exact ⟨content p, size, loaded (content p), size', hexit, hload, hstring⟩

/-- The file holds each escaped string. -/
theorem escapable_content {p : Program} (hsize : ((content p).length : Int) ≤ intMax) :
    Escapable p := by
  intro key str hstr
  have harg : escaped str ∈ ((entries p).filter fun e => e.key = some key).map Entry.arg := by
    rw [entries_key, hstr]
    exact List.mem_singleton_self _
  obtain ⟨e, he, harg⟩ := List.mem_map.mp harg
  obtain ⟨front, rest, hentries⟩ := List.append_of_mem (List.mem_of_mem_filter he)
  have hlength : (escaped str).length ≤ (content p).length := by
    rw [content, hentries, List.flatMap_append, List.flatMap_cons, Entry.text, printLine, harg]
    simp only [List.length_append, List.length_cons]
    omega
  omega

/-- The bytes that a string takes in the file. -/
def escapedSize (str : Text) : Nat := str.length + str.countP fun c => c = ch '\\' ∨ c = ch '\n'

theorem length_escaped (str : Text) : (escaped str).length = escapedSize str := by
  induction str with
  | nil => rfl
  | cons c str ih =>
    have hbyte : (escapeByte c).length = if c = ch '\\' ∨ c = ch '\n' then 2 else 1 := by
      unfold escapeByte
      split
      · rename_i hc
        rw [if_pos (.inl hc)]
        rfl
      split
      · rename_i hc
        rw [if_pos (.inr hc)]
        rfl
      · rename_i hslash hnewline
        rw [if_neg (not_or.mpr ⟨hslash, hnewline⟩)]
        rfl
    rw [escaped_cons, List.length_append, ih, hbyte, escapedSize, escapedSize, List.countP_cons,
      List.length_cons]
    simp only [decide_eq_true_eq]
    split <;> omega

/-- The bytes of a line. -/
def Entry.size (e : Entry) : Nat :=
  e.word.length + 2 + match e with
    | .status i => (ascii (playerStatusNames.get i)).length
    | .position pos => (printInt pos).length
    | .view i => (ascii (viewNames.get i)).length
    | .string _ str => escapedSize str

/-- The bytes of the file. -/
def fileSize (p : Program) : Nat := ((entries p).map Entry.size).sum

theorem length_content (p : Program) : (content p).length = fileSize p := by
  have hentry (e : Entry) : e.text.length = e.size := by
    have hline : e.text.length = e.word.length + 2 + e.arg.length := by
      simp only [Entry.text, printLine, List.length_append, List.length_cons, List.length_nil]
      omega
    rw [hline]
    cases e with
    | status i => rfl
    | position pos => rfl
    | view i => rfl
    | string key str => rw [Entry.arg, length_escaped, Entry.size]
  rw [content, List.length_flatMap, fileSize]
  simp only [hentry]

/-- The string is given back, whatever the sizes of the buffers were. -/
def GivesBack (str : Text) : Prop :=
  ∀ alloc alloc', ∃ text size size',
    (escape str).run alloc = some (text, size) ∧ (unescape text).run alloc' = some (str, size')

/-- Nothing is written behind the end of the buffer. -/
def StaysInside (str : Text) : Prop := ∀ alloc, ((unescape str).run alloc).isSome

theorem givesBack_iff (str : Text) : GivesBack str ↔ (escapedSize str : Int) ≤ intMax := by
  rw [← length_escaped]
  constructor
  · intro h
    obtain ⟨text, size, size', hescape, -⟩ := h 0 0
    exact ((escape_runs str).result hescape).1
  · intro hint alloc alloc'
    obtain ⟨size, hescape⟩ := (escape_runs str alloc).1 hint
    obtain ⟨size', hunescape⟩ := (unescape_runs (escaped str) alloc').1 hint
    rw [unescaped_escaped] at hunescape
    exact ⟨escaped str, size, size', hescape, hunescape⟩

theorem staysInside_iff (str : Text) : StaysInside str ↔ (str.length : Int) ≤ intMax := by
  constructor
  · intro h
    obtain ⟨r, hrun⟩ := Option.isSome_iff_exists.mp (h 0)
    exact ((unescape_runs str).result hrun).1
  · intro hint alloc
    obtain ⟨size, hrun⟩ := (unescape_runs str alloc).1 hint
    rw [hrun]
    rfl

theorem bind_readArg_iff (str : Option Text) :
    (str.bind fun s => readArg (escaped s)) = str ↔ ∀ s ∈ str, Kept s := by
  cases str with
  | none => exact iff_of_true rfl nofun
  | some s => simpa using readArg_eq_iff s

/-- **The resume file** gives back the strings that are not empty, that do not begin with
a space and that do not end with a carriage return. -/
theorem resumes_iff (p : Program) (str : Text) :
    (GivesBack str ↔ (escapedSize str : Int) ≤ intMax) ∧
    (StaysInside str ↔ (str.length : Int) ≤ intMax) ∧
    (Resumes p ↔ (fileSize p : Int) ≤ intMax ∧ ∀ key, ∀ str ∈ p.string key, Kept str) := by
  refine ⟨givesBack_iff str, staysInside_iff str, ?_⟩
  rw [resumes_iff_loaded, ← length_content]
  constructor
  · rintro ⟨hescape, hstring⟩
    have hsize : ((content p).length : Int) ≤ intMax := by
      by_contra hlong
      have hmarked := hstring .markedPl
      rw [loaded_tooLong hescape (Int.not_le.mp hlong)] at hmarked
      cases hmarked
    refine ⟨hsize, fun key => (bind_readArg_iff _).mp ?_⟩
    rw [← loaded_content hsize, hstring]
  · rintro ⟨hsize, hkept⟩
    refine ⟨escapable_content hsize, fun key => ?_⟩
    rw [loaded_content hsize]
    exact (bind_readArg_iff _).mpr (hkept key)

/-- Nothing was played, and a playlist is marked. -/
def marking (name : Str) : Program where
  status := ⟨0, by decide⟩
  track := none
  libTrack := none
  curView := ⟨0, by decide⟩
  liveFilter := none
  browserDir := ⟨ascii "/", by decide⟩
  markedPl := name

/-- The space in front of a name and the carriage return behind it are lost. -/
theorem resumes_trimmed :
    ¬ Resumes (marking ⟨ascii " mix", by decide⟩) ∧ ¬ Resumes (marking ⟨ascii "mix\r", by decide⟩) ∧
      ((resumeExit (marking ⟨ascii " mix", by decide⟩)).run 0 >>= fun written =>
        (resumeLoad written.1).run 0).bind (·.1.markedPl) = some (ascii "mix") := by
  refine ⟨fun h => ?_, fun h => ?_, ?_⟩
  · have hmarked := ((resumes_iff_loaded _).mp h).2 .markedPl
    rw [loaded_content (by decide)] at hmarked
    exact absurd hmarked (by decide)
  · have hmarked := ((resumes_iff_loaded _).mp h).2 .markedPl
    rw [loaded_content (by decide)] at hmarked
    exact absurd hmarked (by decide)
  · decide +kernel

end GracefulMusic.ResumeFile
