import GracefulMusic.Commands.Arguments
import GracefulMusic.Commands.Table

/-! What a client on the network can do.

`save` reaches the client alone, since the check for its argument agrees with the flags it
reads. Of the handlers that are not marked as unsafe, three go further. -/
namespace GracefulMusic.Commands
variable {s : State}

/-! ### Saving to the client -/

theorem isStdoutLoop_nil (fuel : Nat) : isStdoutLoop fuel [] = false := by
  cases fuel with
  | zero => rfl
  | succ fuel => rfl

theorem parseOneFlag_flag (flags : Text) {str : Text} (hflag : isFlag str = true)
    (hrest : skipSpaces (str.drop 2) ≠ []) :
    parseOneFlag flags (some str) = none ∨
      ∃ c, parseOneFlag flags (some str) = some (some c, some (skipSpaces (str.drop 2))) := by
  cases str with
  | nil => cases hflag
  | cons d str =>
    cases str with
    | nil => cases hflag
    | cons c str =>
      rw [parseOneFlag, if_pos hflag]
      dsimp only
      split
      · right
        refine ⟨c, ?_⟩
        show some (some c, if skipSpaces str = [] then none else some (skipSpaces str)) = _
        rw [if_neg (show skipSpaces str ≠ [] from hrest)]
        rfl
      · exact .inl rfl

/-- Where the check finds a dash at the end, the flags leave the dash. -/
theorem saveFlags_stdout {fuel : Nat} {str : Text} (h : isStdoutLoop fuel str = true)
    {fuel' : Nat} {flag flag' : Option UInt8} {extended extended' : Bool} {arg : Option Text}
    (hflags : saveFlags fuel' flag extended (some str) = some (flag', extended', arg)) :
    arg = some (ascii "-") := by
  induction fuel generalizing str fuel' flag extended with
  | zero => cases h
  | succ fuel ih =>
    cases fuel' with
    | zero => cases hflags
    | succ fuel' =>
      rw [isStdoutLoop] at h
      rw [saveFlags] at hflags
      split at h
      · rename_i hdash
        have hparse : parseOneFlag (ascii "eLlpq") (some [ch '-']) = some (none, some [ch '-']) := by
          decide
        rw [hdash, hparse] at hflags
        obtain ⟨-, hrest⟩ := Prod.mk.inj (Option.some.inj hflags)
        exact (Prod.mk.inj hrest).2.symm
      · split at h
        · rename_i hflag
          have hne : skipSpaces (str.drop 2) ≠ [] := by
            intro hempty
            rw [hempty, isStdoutLoop_nil] at h
            cases h
          rcases parseOneFlag_flag (ascii "eLlpq") hflag hne with hparse | ⟨c, hparse⟩
          · rw [hparse] at hflags
            cases hflags
          · rw [hparse] at hflags
            dsimp only at hflags
            split at hflags
            · exact ih h hflags
            · exact ih h hflags
        · cases h

theorem cmusSave_dash : ∀ e ∈ cmusSave s (ascii "-"), e = .reply := by
  intro e he
  rw [cmusSave, if_pos rfl] at he
  split at he
  · exact List.mem_singleton.mp he
  · cases he

theorem viewSave_dash (view : View) (extended : Bool) :
    ∀ e ∈ viewSave s view (some (ascii "-")) true extended, e = .reply := by
  intro e he
  cases view with
  | tree | sorted =>
    simp only [viewSave, Option.map_some, if_true] at he
    split at he
    · cases he
    · exact cmusSave_dash e he
  | queue =>
    simp only [viewSave, Option.map_some, if_true] at he
    split at he
    · cases he
    · exact cmusSave_dash e he
  | playlist =>
    simp only [viewSave, Option.map_some, if_true, plExportSelectedPl] at he
    have hdash : expandFilename s (ascii "-") = ascii "-" := if_neg (by decide)
    rw [hdash] at he
    split at he
    · exact cmusSave_dash e he
    · cases he
  | browser | filters | help => cases he

theorem cmdSave_stdout {arg : Option Text} (h : isStdoutFilename arg = true) :
    ∀ e ∈ cmdSave s arg, e = .reply := by
  intro e he
  cases arg with
  | none => cases h
  | some str =>
    simp only [cmdSave, h] at he
    split at he
    · cases he
    · rename_i flag extended arg hflags
      rw [saveFlags_stdout h hflags] at he
      exact viewSave_dash _ _ e he

/-! ### The table -/

theorem findCommand_mem {cmd : Text} {table : List Command} {c : Command}
    (h : findCommand cmd table = .ok c) : c ∈ table := by
  induction table with
  | nil => cases h
  | cons d table ih =>
    rw [findCommand] at h
    split at h
    · split at h
      · cases h
      · cases h
        exact List.mem_cons_self
    · exact List.mem_cons_of_mem _ (ih h)

/-- A handler that is not modelled is unsafe, and so is `save`. -/
theorem commands_unsafe : ∀ c ∈ commands, c.func = .unmodelled ∨ c.func = .save →
    c.isUnsafe = true := by
  decide

/-- The others that have effects take an argument. -/
theorem commands_safe : ∀ c ∈ commands, c.func = .plExport ∨ c.func = .plRename ∨ c.func = .set →
    c.isUnsafe = false ∧ c.minArgs > 0 ∧ c.maxArgs ≠ 0 := by
  decide

/-! ### What gets through -/

/-- The selected playlist is written to a file or renamed, or a program is stored. -/
def Exposes (s : State) (func : Handler) (arg : Text) : Prop :=
  match func with
  | .plExport => s.curView = .playlist ∧ expandFilename s arg ≠ ascii "-" ∧
      (s.exist (expandFilename s arg) = false ∨ s.answer = true)
  | .plRename => s.curView = .playlist ∧ s.visible ≠ arg ∧ plCheckNewPlName s arg = true
  | .set => ∃ value, optionValue arg = some (ascii "status_display_program", value) ∧ value ≠ []
  | _ => False

theorem cmdPlExport_iff (arg : Text) :
    (∀ e ∈ cmdPlExport s arg, e = .reply) ↔ ¬ Exposes s .plExport arg := by
  rw [cmdPlExport, Exposes]
  by_cases hview : s.curView = .playlist
  · rw [if_pos hview, plExportSelectedPl]
    by_cases hwrite : s.exist (expandFilename s arg) = false ∨ s.answer = true
    · simp only [if_pos hwrite]
      by_cases hdash : expandFilename s arg = ascii "-"
      · rw [hdash]
        exact iff_of_true cmusSave_dash fun h => h.2.1 rfl
      · rw [cmusSave, if_neg hdash]
        apply iff_of_false
        · intro h
          cases h _ List.mem_cons_self
        · exact fun h => h ⟨hview, hdash, hwrite⟩
    · simp only [if_neg hwrite]
      exact iff_of_true (fun e he => absurd he List.not_mem_nil) fun h => hwrite h.2.2
  · rw [if_neg hview]
    exact iff_of_true (fun e he => absurd he List.not_mem_nil) fun h => hview h.1

theorem cmdPlRename_iff (arg : Text) :
    (∀ e ∈ cmdPlRename s arg, e = .reply) ↔ ¬ Exposes s .plRename arg := by
  rw [cmdPlRename, Exposes]
  split
  · rename_i hrename
    apply iff_of_false
    · intro h
      cases h _ List.mem_cons_self
    · exact fun h => h hrename
  · rename_i hrename
    exact iff_of_true (fun e he => absurd he List.not_mem_nil) hrename

theorem cmdSet_iff (arg : Text) :
    (∀ e ∈ cmdSet s arg, e = .reply) ↔ ¬ Exposes s .set arg := by
  rw [cmdSet, Exposes]
  cases hvalue : optionValue arg with
  | none =>
    apply iff_of_true (fun e he => absurd he List.not_mem_nil)
    intro ⟨value, h, _⟩
    cases h
  | some pair =>
    dsimp only
    split
    · rename_i hname
      apply iff_of_false
      · intro h
        cases h _ List.mem_cons_self
      · intro h
        exact h ⟨pair.2, by rw [← hname.1], hname.2⟩
    · rename_i hname
      apply iff_of_true (fun e he => absurd he List.not_mem_nil)
      intro ⟨value, h, hne⟩
      obtain rfl := Option.some.inj h
      exact hname ⟨rfl, hne⟩

/-- A command that the network may give, with its argument. -/
theorem runFound_iff {c : Command} (hc : c ∈ commands) (arg : Option Text) :
    (∀ effects, runFound s true c arg = .ok effects → ∀ e ∈ effects, e = .reply) ↔
      ∀ text, arg = some text → ¬ Exposes s c.func text := by
  have hexposed (hfunc : c.func = .plExport ∨ c.func = .plRename ∨ c.func = .set)
      (hiff : ∀ text, (∀ e ∈ c.func.run s (some text), e = .reply) ↔ ¬ Exposes s c.func text) :
      (∀ effects, runFound s true c arg = .ok effects → ∀ e ∈ effects, e = .reply) ↔
        ∀ text, arg = some text → ¬ Exposes s c.func text := by
    obtain ⟨hsafe, hmin, hmax⟩ := commands_safe c hc hfunc
    cases arg with
    | none =>
      rw [runFound, if_pos ⟨hmin, rfl⟩]
      apply iff_of_true
      · intro effects h
        cases h
      · intro text h
        cases h
    | some text =>
      have hrun : runFound s true c (some text) = .ok (c.func.run s (some text)) := by
        rw [runFound, if_neg (fun h => absurd h.2 (Option.some_ne_none text)),
          if_neg (fun h => hmax h.1), if_neg (fun h => absurd (hsafe.symm.trans h.2.1) (by decide))]
      rw [hrun]
      constructor
      · intro h text' htext
        obtain rfl := Option.some.inj htext
        exact (hiff text).mp (h _ rfl)
      · intro h effects heffects
        cases heffects
        exact (hiff text).mpr (h text rfl)
  cases hfunc : c.func with
  | plExport =>
    rw [hfunc] at hexposed
    exact hexposed (.inl rfl) cmdPlExport_iff
  | plRename =>
    rw [hfunc] at hexposed
    exact hexposed (.inr (.inl rfl)) cmdPlRename_iff
  | set =>
    rw [hfunc] at hexposed
    exact hexposed (.inr (.inr rfl)) cmdSet_iff
  | harmless =>
    apply iff_of_true
    · intro effects h
      rw [runFound, hfunc] at h
      split_ifs at h
      cases h
      exact fun e he => absurd he List.not_mem_nil
    · exact fun _ _ h => h
  | unmodelled =>
    apply iff_of_true
    · intro effects h
      have hunsafe := commands_unsafe c hc (.inl hfunc)
      rw [runFound, hfunc] at h
      split_ifs at h with hmin hmax hrefused
      exact absurd ⟨rfl, hunsafe, .inl (by decide)⟩ hrefused
    · exact fun _ _ h => h
  | save =>
    apply iff_of_true
    · intro effects h
      have hunsafe := commands_unsafe c hc (.inr hfunc)
      rw [runFound, hfunc] at h
      split_ifs at h with hmin hmax hrefused
      cases h
      have hstdout : isStdoutFilename arg = true := by
        by_contra hno
        exact hrefused ⟨rfl, hunsafe, .inr (Bool.eq_false_of_not_eq_true hno)⟩
      exact cmdSave_stdout hstdout
    · exact fun _ _ h => h

def sampleState : State where
  curView := .playlist
  client := true
  cwd := [slash]
  homeDir := ascii "/home/u"
  getHomeDir _ := none
  exist _ := false
  answer := false
  playlistDir := ascii "/p"
  visible := ascii "default"
  playlists := [ascii "default"]
  libFilename := none
  libExtFilename := none
  queueFilename := none
  queueExtFilename := none
  libHasJob := false
  queueHasJob := false

end GracefulMusic.Commands

/-! The check for `save` over the network and the flags that `save` reads.

`is_stdout_filename` is a copy of the loop of `do_parse_flags`. Where it finds a dash, either
the flags are refused or the same dash is what they leave. -/
namespace GracefulMusic.Commands
variable {s : State}

/-! ### Where effects go -/

inductive Target where
  | connection (fd : Int)
  | file (path : Text)
  | program (name : Text)
  | unknown
  deriving DecidableEq

/-- With `client_fd`, which `do_cmus_save` duplicates. -/
def Effect.targets (clientFd : Int) : Effect → List Target
  | .create path => [.file path]
  | .rename old new => [.file old, .file new]
  | .store program => [.program program]
  | .unsafeCommand => [.unknown]
  | .reply => [.connection clientFd]

/-- `set_client_fd` -/
def State.setClientFd (s : State) (fd : Int) : State := {s with client := fd ≠ -1}

/-- A command of a client: `run_parsed_command` between `set_client_fd(fd)` and
`set_client_fd(-1)`. -/
def runForClient (s : State) (fd : Int) (onlySafe : Bool) (cmd : Text) (arg : Option Text) :
    Except Refusal (List Target) :=
  match runParsedCommand (s.setClientFd fd) onlySafe cmd arg with
  | .error e => .error e
  | .ok effects => .ok (effects.flatMap (Effect.targets fd))

/-- The flags of `save`, from the start. -/
def flagsOf (arg : Option Text) : Option (Option UInt8 × Bool × Option Text) :=
  saveFlags ((arg.getD []).length + 1) none false arg

/-! ### Rounds of both loops -/

/-- What is behind a flag or the last of them. -/
def remaining (str : Text) : Option Text :=
  if skipSpaces str = [] then none else some (skipSpaces str)

theorem isFlag_iff {str : Text} : isFlag str = true ↔ ∃ c rest,
    str = ch '-' :: c :: rest ∧ c ≠ ch '-' ∧ rest.head?.all (· = ch ' ') = true := by
  match str with
  | [] => simp [isFlag]
  | [_] => simp [isFlag]
  | d :: c :: rest =>
    simp only [isFlag, ne_eq, decide_not, Bool.and_eq_true, decide_eq_true_eq,
      Bool.not_eq_true', decide_eq_false_iff_not, List.cons.injEq, and_assoc]
    refine ⟨fun h => ⟨c, rest, h.1, rfl, rfl, h.2⟩, ?_⟩
    rintro ⟨c, rest, hd, rfl, rfl, h⟩
    exact ⟨hd, h⟩

theorem parseOneFlag_isFlag (flags : Text) {d c : UInt8} {str : Text}
    (hflag : isFlag (d :: c :: str) = true) : parseOneFlag flags (some (d :: c :: str)) =
      if c ∈ flags then some (some c, remaining str) else none := by
  rw [parseOneFlag, if_pos hflag]
  rfl

theorem parseOneFlag_operand (flags : Text) {str : Text} (hflag : isFlag str = false) :
    parseOneFlag flags (some str) = some (none,
      if str.take 2 = ascii "--" ∧ (str.drop 2).head?.all (· = ch ' ') then remaining (str.drop 2)
      else remaining str) := by
  unfold parseOneFlag remaining
  simp only [hflag, Bool.false_eq_true, if_false]
  split <;> rfl

section
variable {flag flag' : Option UInt8} {extended extended' : Bool} {operand : Option Text}

theorem saveFlags_none {fuel : Nat}
    (h : saveFlags fuel flag extended none = some (flag', extended', operand)) :
    operand = none := by
  cases fuel with
  | zero => cases h
  | succ fuel =>
    simp only [saveFlags, parseOneFlag, Option.some.injEq, Prod.mk.injEq] at h
    exact h.2.2.symm

/-- A round that reads a flag. -/
theorem saveFlags_isFlag {fuel : Nat} {d c : UInt8} {str : Text}
    (hflag : isFlag (d :: c :: str) = true) :
    saveFlags (fuel + 1) flag extended (some (d :: c :: str)) =
      if c ∈ ascii "eLlpq" then
        if c = ch 'e' then saveFlags fuel flag true (remaining str)
        else saveFlags fuel (some c) extended (remaining str)
      else none := by
  rw [saveFlags, parseOneFlag_isFlag _ hflag]
  by_cases hknown : c ∈ ascii "eLlpq"
  · simp only [if_pos hknown]
  · simp only [if_neg hknown]

/-- The round that ends them. -/
theorem saveFlags_operand {fuel : Nat} {str : Text} (hflag : isFlag str = false) :
    saveFlags (fuel + 1) flag extended (some str) = some (flag, extended,
      if str.take 2 = ascii "--" ∧ (str.drop 2).head?.all (· = ch ' ') then remaining (str.drop 2)
      else remaining str) := by
  rw [saveFlags, parseOneFlag_operand _ hflag]

/-- The loop ends with any fuel beyond the string. -/
theorem saveFlags_fuel {n : Nat} {str : Text} (hstr : str.length < n) :
    ∀ fuel, n ≤ fuel → ∀ flag extended,
      saveFlags fuel flag extended (some str) = saveFlags n flag extended (some str) := by
  induction n generalizing str with
  | zero => cases hstr
  | succ n ih =>
    intro fuel hfuel flag extended
    obtain ⟨fuel, rfl⟩ : ∃ k, fuel = k + 1 := ⟨fuel - 1, by omega⟩
    by_cases hflag : isFlag str = true
    · obtain ⟨c, rest, rfl, -, -⟩ := isFlag_iff.mp hflag
      have hrest : ∀ flag extended, saveFlags fuel flag extended (remaining rest) =
          saveFlags n flag extended (remaining rest) := by
        intro flag extended
        have hlen := skipSpaces_length rest
        simp only [List.length_cons] at hstr
        rw [remaining]
        split
        · obtain ⟨k, rfl⟩ : ∃ k, fuel = k + 1 := ⟨fuel - 1, by omega⟩
          obtain ⟨m, rfl⟩ : ∃ m, n = m + 1 := ⟨n - 1, by omega⟩
          rfl
        · exact ih (by omega) fuel (by omega) flag extended
      simp only [saveFlags_isFlag hflag, hrest]
    · have hflag := Bool.eq_false_of_not_eq_true hflag
      rw [saveFlags_operand hflag, saveFlags_operand hflag]

/-! ### Two dashes -/

theorem dashes_skipSpaces (str : Text) : ascii "--" <:+: str ↔ ascii "--" <:+: skipSpaces str := by
  induction str with
  | nil => rfl
  | cons c str ih =>
    by_cases hc : c = ch ' '
    · subst hc
      have hskip : skipSpaces (ch ' ' :: str) = skipSpaces str := rfl
      have hnot : ¬ ascii "--" <+: ch ' ' :: str := by
        rintro ⟨rest, h⟩
        exact absurd (List.cons.inj h).1 (by decide)
      rw [hskip, ← ih, List.infix_cons_iff]
      simp [hnot]
    · rw [skipSpaces_of_head (by simpa using hc)]

/-- No second dash is next to a flag or in front of what follows it. -/
theorem dashes_flag {c : UInt8} {rest : Text} (hc : c ≠ ch '-') :
    ascii "--" <:+: ch '-' :: c :: rest ↔ ascii "--" <:+: skipSpaces rest := by
  have hdash : ¬ ascii "--" <+: ch '-' :: c :: rest := by
    rintro ⟨tail, h⟩
    exact hc (List.cons.inj (List.cons.inj h).2).1.symm
  have hflag : ¬ ascii "--" <+: c :: rest := by
    rintro ⟨tail, h⟩
    exact hc (List.cons.inj h).1.symm
  rw [List.infix_cons_iff, List.infix_cons_iff, ← dashes_skipSpaces rest]
  simp [hdash, hflag]

/-! ### The check and the flags -/

/-- Where there is no flag, the check is for the dash alone. -/
theorem isStdoutLoop_operand {str : Text} {n : Nat} (hn : str.length ≤ n)
    (hflag : isFlag str = false) : isStdoutLoop n str = true ↔ str = ascii "-" := by
  cases n with
  | zero =>
    obtain rfl := List.length_eq_zero_iff.mp (Nat.le_zero.mp hn)
    decide
  | succ n =>
    simp only [isStdoutLoop, hflag]
    by_cases hdash : str = [ch '-'] <;> simp [hdash, ascii]

/-- Where the flags are read to the end, the check holds for the dash that they leave, unless
`--` or a space stands in front of it. -/
theorem isStdoutLoop_iff {fuel : Nat} {str : Text} {n : Nat} (hn : str.length ≤ n)
    (hflags : saveFlags fuel flag extended (some str) = some (flag', extended', operand)) :
    isStdoutLoop n str = true ↔
      operand = some (ascii "-") ∧ ¬ ascii "--" <:+: str ∧ str.head? ≠ some (ch ' ') := by
  induction fuel generalizing str n flag extended with
  | zero => cases hflags
  | succ fuel ih =>
    by_cases hflag : isFlag str = true
    · obtain ⟨c, rest, rfl, hc, -⟩ := isFlag_iff.mp hflag
      obtain ⟨n, rfl⟩ : ∃ k, n = k + 1 := ⟨n - 1, by simp at hn; omega⟩
      have hround : isStdoutLoop (n + 1) (ch '-' :: c :: rest) =
          isStdoutLoop n (skipSpaces rest) := by
        simp [isStdoutLoop, hflag]
      have hhead : ¬ ch '-' = ch ' ' := by decide
      have hrest : ∃ flag extended,
          saveFlags fuel flag extended (remaining rest) = some (flag', extended', operand) := by
        rw [saveFlags_isFlag hflag] at hflags
        split_ifs at hflags
        · exact ⟨_, _, hflags⟩
        · exact ⟨_, _, hflags⟩
      obtain ⟨flag, extended, hrest⟩ := hrest
      rw [hround, dashes_flag hc]
      by_cases hempty : skipSpaces rest = []
      · rw [remaining, if_pos hempty] at hrest
        simp [hempty, saveFlags_none hrest, isStdoutLoop_nil]
      · rw [remaining, if_neg hempty] at hrest
        have hlen := skipSpaces_length rest
        rw [ih (by simp at hn; omega) hrest]
        simp [skipSpaces_head rest, hhead]
    · have hflag := Bool.eq_false_of_not_eq_true hflag
      rw [saveFlags_operand hflag] at hflags
      obtain ⟨-, -, rfl⟩ := hflags
      rw [isStdoutLoop_operand hn hflag]
      constructor
      · rintro rfl
        decide
      · rintro ⟨hoperand, hdashes, hhead⟩
        have hnot : str.take 2 ≠ ascii "--" := fun h => hdashes (h ▸ (List.take_prefix 2 str).isInfix)
        rw [if_neg (fun h => hnot h.1), remaining, skipSpaces_of_head hhead] at hoperand
        split at hoperand
        · cases hoperand
        · exact Option.some.inj hoperand

end

theorem isStdoutFilename_iff {str : Text} {flag : Option UInt8} {extended : Bool}
    {operand : Option Text} (hflags : flagsOf (some str) = some (flag, extended, operand)) :
    isStdoutFilename (some str) = true ↔
      operand = some (ascii "-") ∧ ¬ ascii "--" <:+: str ∧ str.head? ≠ some (ch ' ') :=
  isStdoutLoop_iff (Nat.le_refl str.length) hflags

/-! ### `save` over the network -/

theorem reply_targets {fd : Int} {effects : List Effect} (h : ∀ e ∈ effects, e = .reply) :
    ∀ t ∈ effects.flatMap (Effect.targets fd), t = .connection fd := by
  intro t ht
  obtain ⟨e, he, ht⟩ := List.mem_flatMap.mp ht
  obtain rfl := h e he
  exact List.mem_singleton.mp ht

/-- With the flag for a client on the network, `save` and `w` run only if the check holds. -/
theorem runFound_save {s : State} {c : Command} {arg : Option Text} {effects : List Effect}
    (hc : c ∈ commands) (hsave : c.func = .save) (h : runFound s true c arg = .ok effects) :
    isStdoutFilename arg = true ∧ effects = cmdSave s arg := by
  have hunsafe := commands_unsafe c hc (.inr hsave)
  rw [runFound, hsave] at h
  split_ifs at h with hmin hmax hrefused
  cases h
  refine ⟨?_, rfl⟩
  by_contra hno
  exact hrefused ⟨rfl, hunsafe, .inr (Bool.eq_false_of_not_eq_true hno)⟩

/-- What the check accepts goes to the connection of the client, also where the network may
run nothing else, and the check agrees with the flags of every argument. -/
theorem save_for_client (s : State) (fd : Int) :
    (∀ arg, isStdoutFilename arg = true →
      ∀ t ∈ (cmdSave (s.setClientFd fd) arg).flatMap (Effect.targets fd), t = .connection fd) ∧
    (∀ cmd arg c targets, findCommand cmd commands = .ok c → c.func = .save →
      runForClient s fd true cmd arg = .ok targets →
        isStdoutFilename arg = true ∧ ∀ t ∈ targets, t = .connection fd) ∧
    (∀ str flag extended operand, flagsOf (some str) = some (flag, extended, operand) →
      (isStdoutFilename (some str) = true ↔
        operand = some (ascii "-") ∧ ¬ ascii "--" <:+: str ∧ str.head? ≠ some (ch ' '))) ∧
    ∀ str fuel, str.length < fuel → saveFlags fuel none false (some str) = flagsOf (some str) := by
  refine ⟨fun arg h => reply_targets (cmdSave_stdout h), ?_, ?_, ?_⟩
  · intro cmd arg c targets hfind hsave h
    rw [runForClient, runParsedCommand, hfind] at h
    cases hrun : runFound (s.setClientFd fd) true c arg with
    | error e =>
      simp only [hrun] at h
      cases h
    | ok effects =>
      obtain ⟨hstdout, rfl⟩ := runFound_save (findCommand_mem hfind) hsave hrun
      simp only [hrun] at h
      cases h
      exact ⟨hstdout, reply_targets (cmdSave_stdout hstdout)⟩
  · intro str flag extended operand hflags
    exact isStdoutFilename_iff hflags
  · intro str fuel hfuel
    exact saveFlags_fuel (Nat.lt_succ_self str.length) fuel hfuel none false

/-- `save -e -l -` writes to the client, and the same operand behind `--` is a file. -/
theorem save_for_client_seven :
    (∀ t ∈ (cmdSave (sampleState.setClientFd 7) (some (ascii "-e -l -"))).flatMap
        (Effect.targets 7), t = .connection 7) ∧
    (cmdSave (sampleState.setClientFd 7) (some (ascii "-e -l -"))).flatMap (Effect.targets 7) =
      [.connection 7] ∧
    (∀ t ∈ [Target.connection 7], t = .connection 7) ∧
    isStdoutFilename (some (ascii "-e -l -- -")) = false ∧
    saveFlags 100 none false (some (ascii "-e -l -")) = flagsOf (some (ascii "-e -l -")) := by
  obtain ⟨haccepted, hclient, hagrees, hends⟩ := save_for_client sampleState 7
  refine ⟨haccepted _ rfl, rfl, ?_, ?_, hends _ 100 (by decide)⟩
  · exact (hclient (ascii "w") (some (ascii "-e -l -")) _ _ rfl rfl rfl).2
  · have hiff := hagrees (ascii "-e -l -- -") (some (ch 'l')) true (some (ascii "-")) rfl
    by_contra h
    exact (hiff.mp (Bool.eq_true_of_not_eq_false h)).2.1 (by decide)

end GracefulMusic.Commands
