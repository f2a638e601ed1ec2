import GracefulMusic.Commands.Arguments
import GracefulMusic.TrackInfo

/-! Running a program on the selected tracks (`command_mode.c`).

The tracks are collected one by one, as the walk over the selection comes to them. The
array of tracks is exactly as large as its elements need, so its terminator has a cell
only where the array is not full. -/
namespace GracefulMusic.Commands
open Memory

/-- What `cmd_run` finds: the selection in the order of the walk, the answer to its query,
and whether the program could be started. -/
structure RunState where
  curView : View
  selection : List TrackInfo
  confirmRun : Bool
  answer : Bool
  spawned : List Text → Bool

/-- What becomes of the selected tracks: given to `cmus_update_tis`, or released one by
one up to the terminator. -/
inductive Tracks where
  | updated (tis : List TrackInfo)
  | released (tis : List TrackInfo)
  deriving DecidableEq

inductive RunResult where
  | unsupportedView
  | parseError (message : Option Text)
  | noFiles
  | ran (argv : Block (Option Text)) (program : Option (List Text)) (tracks : Tracks)

def addTi (sel : Growing (Option TrackInfo)) (ti : TrackInfo) : Option (Growing (Option TrackInfo)) :=
  sel.push 8 0 (some ti)

/-- `for (i = start; i < stop; i++) argv[argc++] = src[i]`. -/
def copyArgs (src : Nat → Option (Option Text)) (start stop : Nat) (argv : Block (Option Text) × Nat) :
    Option (Block (Option Text) × Nat) :=
  (List.range' start (stop - start)).foldlM (fun argv i =>
    (src i).bind fun arg => (argv.1.write argv.2 arg).map fun block => (block, argv.2 + 1)) argv

/-- `sel.tis[i]->filename`. -/
def fileOf (tis : Block (Option TrackInfo)) (i : Nat) : Option (Option Text) :=
  (tis.read i).bind fun ti => ti.map fun ti => some ti.filename

def buildArgv (p : Parsed) (tis : Block (Option TrackInfo)) (nr : Nat) :
    Option (Block (Option Text)) := do
  let argv := (Block.malloc (p.ac + nr + 1), 0)
  let filled ← match p.argsIdx with
    | none => do
      -- add selected files after rest of the args
      let argv ← copyArgs p.av.read 0 p.ac argv
      copyArgs (fileOf tis) 0 nr argv
    | some filesIdx => do
      let argv ← copyArgs p.av.read 0 filesIdx argv
      let argv ← copyArgs (fileOf tis) 0 nr argv
      copyArgs p.av.read filesIdx p.ac argv
  filled.1.write filled.2 none

/-- `cmd_run` behind `parse_cmd`. -/
def runParsed (s : RunState) (p : Parsed) : Option RunResult := do
  let sel ← s.selection.foldlM addTi .empty
  if sel.nr = 0 then some .noFiles
  else do
    let tis ← sel.block.write sel.nr none
    let argv ← buildArgv p tis sel.nr
    let args ← argv.untilNull
    let asks := s.confirmRun && (sel.nr > 1 || args.head? = some (ascii "rm"))
    let run := !asks || s.answer
    if run && s.spawned args && (s.curView = .tree || s.curView = .sorted) then
      some (.ran argv (some args) (.updated (tis.take sel.nr |>.filterMap Option.join)))
    else do
      let released ← tis.untilNull
      some (.ran argv (if run then some args else none) (.released released))

def cmdRun (s : RunState) (arg : Text) : Option RunResult :=
  if s.curView = .browser ∨ s.curView = .filters ∨ s.curView = .help then some .unsupportedView
  else
    (parseCmd arg).bind fun
      | .error message => some (.parseError message)
      | .ok p => runParsed s p

/-! ### Copies -/

/-- What is copied goes behind what is there. -/
theorem copyArgs_spec {src : Nat → Option (Option Text)} {xs : List Text} (start : Nat) {stop : Nat}
    (hsrc : ∀ i, i < xs.length → src (start + i) = some xs[i]?) (hstop : stop = start + xs.length)
    {argv : Block (Option Text)} {l : List Text} (hargv : argv.Starts (l.map some))
    (hroom : l.length + xs.length ≤ argv.length) :
    ∃ argv', copyArgs src start stop (argv, l.length) = some (argv', (l ++ xs).length) ∧
      argv'.Starts ((l ++ xs).map some) ∧ argv'.length = argv.length := by
  unfold copyArgs
  rw [hstop, Nat.add_sub_cancel_left]
  clear hstop
  induction xs generalizing start argv l with
  | nil => exact ⟨argv, by simp, by simpa using hargv, rfl⟩
  | cons x xs ih =>
    rw [List.length_cons] at hroom
    have hx : src start = some (some x) := by simpa using hsrc 0 (by simp)
    obtain ⟨argv₁, hwrite, hstarts, hlength⟩ := hargv.write (by rw [List.length_map]; omega) (some x)
    rw [List.length_map] at hwrite
    rw [show l.map some ++ [some x] = (l ++ [x]).map some by simp] at hstarts
    have hroom₁ : (l ++ [x]).length + xs.length ≤ argv₁.length := by
      rw [hlength, List.length_append, List.length_singleton]
      omega
    obtain ⟨argv', hrun, hstarts', hlength'⟩ := ih (start + 1) (fun i hi => by
      have h := hsrc (i + 1) (by simpa using hi)
      rw [Nat.add_assoc, Nat.add_comm 1 i, h]
      rfl) hstarts hroom₁
    refine ⟨argv', ?_, by rwa [List.append_cons], hlength'.trans hlength⟩
    rw [List.length_cons, List.range'_succ, List.foldlM_cons, List.append_cons, ← hrun]
    simp only [hx, Option.bind_some, hwrite, Option.map_some, Option.bind_eq_bind,
      List.length_append, List.length_singleton]

/-- The command line that is run: the files in place of the placeholder, or last. -/
def expectedArgs (words : List Word) (files : List Text) : List Text :=
  let idx := (words.findIdx? (· = .files)).getD (arguments words).length
  (arguments words).take idx ++ files ++ (arguments words).drop idx

theorem findIdx?_le {words : List Word} {idx : Nat} (h : words.findIdx? (· = .files) = some idx) :
    idx ≤ (arguments words).length := by
  induction words generalizing idx with
  | nil => cases h
  | cons w words ih =>
    rw [List.findIdx?_cons] at h
    cases w with
    | files =>
      cases h
      exact Nat.zero_le _
    | arg a =>
      rw [if_neg (by simp)] at h
      obtain ⟨i, hi, rfl⟩ := Option.map_eq_some_iff.mp h
      exact Nat.succ_le_succ (ih hi)

/-- A part of the arguments, from the array that `parse_cmd` made. -/
theorem read_args {p : Parsed} {words : List Word} (hp : p.Of words) {start : Nat}
    (xs : List Text) (hxs : ∀ i, (arguments words)[start + i]? = xs[i]? ∨ xs.length ≤ i) (i : Nat)
    (hi : i < xs.length) : p.av.read (start + i) = some xs[i]? := by
  have hsome : (arguments words)[start + i]? = xs[i]? := (hxs i).resolve_right (by omega)
  rw [List.getElem?_eq_getElem hi] at hsome ⊢
  have hlt := (List.getElem?_eq_some_iff.mp hsome).1
  rw [hp.av.read (by rw [List.length_append, List.length_map]; omega),
    List.getElem?_append_left (by rwa [List.length_map]), List.getElem?_map, hsome]
  rfl

theorem read_files {tis : Block (Option TrackInfo)} {sel : List TrackInfo}
    (htis : tis.Starts (sel.map some ++ [none])) (i : Nat)
    (hi : i < (sel.map TrackInfo.filename).length) :
    fileOf tis (0 + i) = some (sel.map TrackInfo.filename)[i]? := by
  rw [List.length_map] at hi
  rw [Nat.zero_add, fileOf, htis.read (by rw [List.length_append, List.length_map]; omega),
    List.getElem?_append_left (by rwa [List.length_map]), List.getElem?_map, List.getElem?_map,
    List.getElem?_eq_getElem hi]
  rfl

/-- `argv` has just the cells it needs. -/
theorem buildArgv_spec {p : Parsed} {words : List Word} (hp : p.Of words)
    {tis : Block (Option TrackInfo)} {sel : List TrackInfo}
    (htis : tis.Starts (sel.map some ++ [none])) :
    buildArgv p tis sel.length =
      some (((expectedArgs words (sel.map TrackInfo.filename)).map some ++ [none]).map some) := by
  -- the last cell, and that there is no other
  have hlast : ∀ (argv : Block (Option Text)) (l : List Text), argv.Starts (l.map some) →
      argv.length = l.length + 1 →
      argv.write l.length none = some ((l.map some ++ [none]).map some) := by
    intro argv l hl hlen
    obtain ⟨full, hwrite, hstarts, hfull⟩ := hl.write (by rw [List.length_map]; omega) none
    rw [List.length_map] at hwrite
    rw [hwrite, hstarts.eq (by rw [hfull, hlen, List.length_append, List.length_map]; rfl)]
  have hempty : (Block.malloc (p.ac + sel.length + 1) : Block (Option Text)).Starts
      (([] : List Text).map some) := Block.starts_nil
  have hsize : (Block.malloc (p.ac + sel.length + 1) : Block (Option Text)).length =
      p.ac + sel.length + 1 := List.length_replicate
  unfold buildArgv expectedArgs
  generalize (Block.malloc (p.ac + sel.length + 1) : Block (Option Text)) = argv at hempty hsize
  rw [hp.ac] at hsize ⊢
  cases hidx : p.argsIdx with
  | none =>
    obtain ⟨argv₁, hrun₁, h₁, hlen₁⟩ := copyArgs_spec 0
      (read_args hp (arguments words) fun i => .inl (by rw [Nat.zero_add]))
      (Nat.zero_add _).symm hempty (by simp; omega)
    obtain ⟨argv₂, hrun₂, h₂, hlen₂⟩ := copyArgs_spec 0 (read_files htis)
      (Nat.zero_add _).symm h₁ (by simp; omega)
    rw [← hp.argsIdx, hidx]
    simp only [List.length_nil] at hrun₁
    simp only [List.length_map] at hrun₂
    simp only [hrun₁, Option.bind_eq_bind, Option.bind_some, hrun₂]
    rw [hlast _ _ h₂ (by simp; omega)]
    simp
  | some idx =>
    have hle : idx ≤ (arguments words).length := findIdx?_le (hp.argsIdx.symm.trans hidx)
    obtain ⟨argv₁, hrun₁, h₁, hlen₁⟩ := copyArgs_spec 0
      (read_args hp ((arguments words).take idx) fun i => by
        rw [Nat.zero_add, List.length_take]
        by_cases hi : i < idx
        · exact .inl (List.getElem?_take_of_lt hi).symm
        · exact .inr (by omega)) (show idx = _ by simp [hle]) hempty
        (by simp; omega)
    obtain ⟨argv₂, hrun₂, h₂, hlen₂⟩ := copyArgs_spec 0 (read_files htis)
      (Nat.zero_add _).symm h₁ (by simp; omega)
    obtain ⟨argv₃, hrun₃, h₃, hlen₃⟩ := copyArgs_spec idx
      (read_args hp ((arguments words).drop idx) fun i => .inl (by rw [List.getElem?_drop]))
      (show (arguments words).length = _ by simp; omega) h₂ (by simp; omega)
    rw [← hp.argsIdx, hidx]
    simp only [List.length_nil] at hrun₁
    simp only [List.length_map] at hrun₂
    simp only [hrun₁, Option.bind_eq_bind, Option.bind_some, hrun₂, hrun₃]
    rw [hlast _ _ h₃ (by simp; omega)]
    simp

/-! ### The whole command -/

theorem parseCmd_ok {cmd : Text} {p : Parsed} (h : parseCmd cmd = some (.ok p)) :
    ∃ words, Reads cmd words ∧ p.Of words := by
  have hhas : HasArgument cmd := by
    by_contra hno
    rw [parseCmd_of_not_hasArgument hno] at h
    cases h
  by_cases hcmd : cmd.head? = some (ch ' ')
  · -- without a first argument
    obtain ⟨c, str, rfl⟩ := List.exists_cons_of_ne_nil hhas.1
    obtain rfl : c = ch ' ' := Option.some.inj hcmd
    exfalso
    have hplace : isPlaceholder (ch ' ' :: str) = false := by
      simp [isPlaceholder, ascii, ch]
    have hone : parseOne (ch ' ' :: str) = some (.ok (none, ch ' ' :: str)) := by
      rw [parseOne, parseOneLoop, if_pos rfl]
    rw [parseCmd, parseCmdLoop, if_neg hhas.1, hplace, if_neg Bool.false_ne_true, hone] at h
    cases h
  · obtain ⟨message, herr⟩ | ⟨p', words, hok, hreads, hof⟩ := parseCmd_spec hcmd hhas
    · rw [h] at herr
      cases herr
    · obtain rfl : p = p' := Except.ok.inj (Option.some.inj (h.symm.trans hok))
      exact ⟨words, hreads, hof⟩

/-- The run stays inside of its arrays: with tracks selected, it ends with the arguments, the
files and the terminator in `argv`, and with just the selected tracks released or given away. -/
def RunsInside (s : RunState) (cmd : Text) : Prop :=
  ∃ result words, cmdRun s cmd = some result ∧ Reads cmd words ∧
    if s.selection = [] then result = .noFiles
    else ∃ program tracks, result =
        .ran (((expectedArgs words (s.selection.map TrackInfo.filename)).map some ++ [none]).map some)
          program tracks ∧
      (tracks = .updated s.selection ∨ tracks = .released s.selection)

/-- The array of the selected tracks. -/
theorem collect_spec (selection : List TrackInfo) : ∃ sel,
    selection.foldlM addTi .empty = some sel ∧ sel.Holds 8 0 (selection.map some) := by
  obtain ⟨sel, hsel, hholds⟩ := Growing.holds_foldlM 0 (show 0 < 8 by decide)
    (selection.map some)
  rw [List.foldlM_map] at hsel
  exact ⟨sel, hsel, hholds⟩

theorem runParsed_spec (s : RunState) {p : Parsed} {words : List Word} (hp : p.Of words)
    (hselection : s.selection ≠ []) (hsize : ∀ k, s.selection.length ≠ 8 * 2 ^ k) :
    ∃ program tracks, runParsed s p = some (.ran
        (((expectedArgs words (s.selection.map TrackInfo.filename)).map some ++ [none]).map some)
        program tracks) ∧
      (tracks = .updated s.selection ∨ tracks = .released s.selection) := by
  obtain ⟨sel, hsel, hholds⟩ := collect_spec s.selection
  have hnr : sel.nr = s.selection.length := hholds.nr.trans (List.length_map _)
  have hroom := hholds.room_iff.mpr ⟨fun h => hselection (List.map_eq_nil_iff.mp h),
    .inr fun k => by rw [List.length_map]; exact hsize k⟩
  obtain ⟨tis, htis, hstarts, -⟩ := hholds.starts.write hroom none
  rw [List.length_map] at htis
  have huntil : Block.untilNull (((expectedArgs words (s.selection.map TrackInfo.filename)).map some ++
      [none]).map some) = some (expectedArgs words (s.selection.map TrackInfo.filename)) :=
    Block.Starts.untilNull (List.prefix_refl _)
  have hupdated : (tis.take s.selection.length).filterMap Option.join = s.selection := by
    obtain ⟨spare, rfl⟩ := hstarts
    rw [List.map_append, List.append_assoc, List.take_left' (by simp), List.map_map,
      List.filterMap_map]
    exact List.filterMap_some
  have hne : s.selection.length ≠ 0 := fun h => hselection (List.length_eq_zero_iff.mp h)
  unfold runParsed
  simp only [hsel, hnr, Option.bind_eq_bind, Option.bind_some, if_neg hne, htis,
    buildArgv_spec hp hstarts, huntil, hstarts.untilNull, hupdated]
  split
  · exact ⟨_, _, rfl, .inl rfl⟩
  · exact ⟨_, _, rfl, .inr rfl⟩

/-- The terminator of the selected tracks has no cell when the array is full. -/
theorem runParsed_full (s : RunState) (p : Parsed) {k : Nat}
    (hsize : s.selection.length = 8 * 2 ^ k) : runParsed s p = none := by
  obtain ⟨sel, hsel, hholds⟩ := collect_spec s.selection
  have hnr : sel.nr = s.selection.length := hholds.nr.trans (List.length_map _)
  have hroom : ¬sel.nr < sel.block.length := by
    rw [hholds.nr, hholds.room_iff, List.length_map]
    rintro ⟨-, h | h⟩
    · exact absurd h (by decide)
    · exact h k hsize
  have hne : s.selection.length ≠ 0 := by
    rw [hsize]
    exact Nat.ne_of_gt (Nat.mul_pos (by decide) (Nat.two_pow_pos k))
  unfold runParsed
  rw [hnr] at hroom
  simp only [hsel, hnr, Option.bind_eq_bind, Option.bind_some, if_neg hne, Block.write,
    if_neg hroom, Option.bind_none]

theorem cmd_run_inside (s : RunState) (cmd : Text) (p : Parsed)
    (hview : ¬(s.curView = .browser ∨ s.curView = .filters ∨ s.curView = .help))
    (hparsed : parseCmd cmd = some (.ok p)) :
    RunsInside s cmd ↔ s.selection = [] ∨ ∀ k, s.selection.length ≠ 8 * 2 ^ k := by
  obtain ⟨words, hreads, hof⟩ := parseCmd_ok hparsed
  have hrun : cmdRun s cmd = runParsed s p := by
    rw [cmdRun, if_neg hview, hparsed]
    rfl
  constructor
  · intro h
    obtain ⟨result, -, hresult, -⟩ := h
    refine or_iff_not_imp_left.mpr fun _ k hk => ?_
    rw [hrun, runParsed_full s p hk] at hresult
    cases hresult
  · intro h
    by_cases hselection : s.selection = []
    · refine ⟨.noFiles, words, ?_, hreads, by rw [if_pos hselection]⟩
      rw [hrun, runParsed, hselection]
      rfl
    · obtain ⟨program, tracks, hresult, htracks⟩ :=
        runParsed_spec s hof hselection (h.resolve_left hselection)
      refine ⟨_, words, hrun.trans hresult, hreads, ?_⟩
      rw [if_neg hselection]
      exact ⟨program, tracks, rfl, htracks⟩

theorem exists_parsed (cmd : Text) (h : ((parseCmd cmd).bind Except.toOption).isSome = true) :
    ∃ p, parseCmd cmd = some (.ok p) := by
  obtain ⟨p, hp⟩ := Option.isSome_iff_exists.mp h
  obtain ⟨outcome, hparse, hok⟩ := Option.bind_eq_some_iff.mp hp
  cases outcome with
  | error message => cases hok
  | ok p => exact ⟨p, hparse⟩

/-- Some tracks in the playlist view. -/
def selected (n : Nat) : RunState where
  curView := .playlist
  selection := List.replicate n { uid := 0, filename := ascii "a" }
  confirmRun := true
  answer := true
  spawned _ := true

theorem selected_length (n : Nat) : (selected n).selection.length = n := List.length_replicate

theorem cmd_run_inside_two : RunsInside (selected 2) (ascii "cp \x7b\x7d /mnt") := by
  obtain ⟨p, hp⟩ := exists_parsed (ascii "cp \x7b\x7d /mnt") (by decide +kernel)
  refine (cmd_run_inside (selected 2) (ascii "cp \x7b\x7d /mnt") p (by decide) hp).mpr
    (.inr fun k hk => ?_)
  rw [selected_length] at hk
  omega

/-- Eight tracks fill the array. -/
theorem cmd_run_eight : (selected 8).curView = .playlist ∧
    (∃ p, parseCmd (ascii "rm") = some (.ok p)) ∧ ¬RunsInside (selected 8) (ascii "rm") := by
  obtain ⟨p, hp⟩ := exists_parsed (ascii "rm") (by decide +kernel)
  refine ⟨rfl, ⟨p, hp⟩, fun h => ?_⟩
  obtain ⟨result, -, hresult, -⟩ := h
  rw [cmdRun, if_neg (by decide), hp, Option.bind_some] at hresult
  exact absurd (hresult.symm.trans (runParsed_full (selected 8) p (k := 0) (selected_length 8)))
    (Option.some_ne_none _)

end GracefulMusic.Commands
