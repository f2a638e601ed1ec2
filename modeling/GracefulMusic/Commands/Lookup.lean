import Mathlib.Data.List.Infix
import GracefulMusic.Commands.Table

/-! Names of commands and their abbreviations (`command_mode.c`).

`get_command` looks up the first word of a string, for completion, for key bindings and for
live commands; `run_parsed_command` looks up a word that was parsed off (`findCommand`).
Both take the first command of the table that the word begins, and look only at the next
entry to see whether there is another one. That is right for a word whose commands stand
together. -/
namespace GracefulMusic.Commands

/-- `str` without the spaces in front, up to `len`. -/
def firstWord (str : Text) : Text := (skipSpaces str).takeWhile (· ≠ ch ' ')

def getCommandLoop (word : Text) : List Command → Option Command
  | [] => none
  | c :: rest =>
    if !word.isPrefixOf c.name then getCommandLoop word rest
    else if c.name.length = word.length then some c -- exact
    else if rest.head?.any (word.isPrefixOf ·.name) then none -- ambiguous
    else some c

def getCommand (str : Text) : Option Command := getCommandLoop (firstWord str) commands

/-! ### What a name stands for -/

/-- A command by its name, or the only one whose name begins like this. -/
def Denotes (name : Text) (c : Command) : Prop :=
  c ∈ commands ∧ (c.name = name ∨ ∀ d ∈ commands, name <+: d.name ↔ d = c)

/-- Both lookups find what the word stands for, and nothing else. -/
structure Resolves (str : Text) : Prop where
  getCommand : ∀ c, getCommand str = some c ↔ Denotes (firstWord str) c
  findCommand : ∀ c, findCommand (firstWord str) commands = .ok c ↔ Denotes (firstWord str) c
  same : Commands.getCommand str = (Commands.findCommand (firstWord str) commands).toOption

/-! ### The lookups -/

theorem getCommandLoop_eq (word : Text) (table : List Command) :
    getCommandLoop word table = (findCommand word table).toOption := by
  induction table with
  | nil => rfl
  | cons c rest ih =>
    rw [getCommandLoop, findCommand]
    by_cases hbegins : word.isPrefixOf c.name = true
    · by_cases hexact : c.name.length = word.length
      · simp [hbegins, hexact, Except.toOption]
      · by_cases hnext : rest.head?.any (word.isPrefixOf ·.name) = true
        · simp [hbegins, hexact, hnext, Except.toOption]
        · simp [hbegins, hexact, hnext, Except.toOption]
    · simp [hbegins, ih]

/-- The first command that the word begins, where it is the word or the next one is another
matter. -/
def FirstClear (word : Text) (table : List Command) (c : Command) : Prop :=
  ∃ front rest, table = front ++ c :: rest ∧ (∀ d ∈ front, ¬ word <+: d.name) ∧
    word <+: c.name ∧ (c.name = word ∨ ∀ d ∈ rest.head?, ¬ word <+: d.name)

section
variable {word : Text} {table : List Command} {b c : Command}

theorem firstClear_cons (h : word <+: b.name) : FirstClear word (b :: table) c ↔
    b = c ∧ (b.name = word ∨ ∀ d ∈ table.head?, ¬ word <+: d.name) := by
  constructor
  · rintro ⟨front, rest, hsplit, hfront, -, hclear⟩
    cases front with
    | nil =>
      obtain ⟨rfl, rfl⟩ := List.cons.inj hsplit
      exact ⟨rfl, hclear⟩
    | cons d front =>
      obtain ⟨rfl, -⟩ := List.cons.inj hsplit
      exact absurd h (hfront b List.mem_cons_self)
  · rintro ⟨rfl, hclear⟩
    exact ⟨[], table, rfl, nofun, h, hclear⟩

theorem firstClear_skip (h : ¬ word <+: b.name) :
    FirstClear word (b :: table) c ↔ FirstClear word table c := by
  constructor
  · rintro ⟨front, rest, hsplit, hfront, hbegins, hclear⟩
    cases front with
    | nil =>
      obtain ⟨rfl, -⟩ := List.cons.inj hsplit
      exact absurd hbegins h
    | cons d front =>
      obtain ⟨-, rfl⟩ := List.cons.inj hsplit
      exact ⟨front, rest, rfl, fun e he => hfront e (List.mem_cons_of_mem d he), hbegins, hclear⟩
  · rintro ⟨front, rest, rfl, hfront, hc⟩
    exact ⟨b :: front, rest, rfl, by simpa [h] using hfront, hc⟩

theorem findCommand_ok_iff : findCommand word table = .ok c ↔ FirstClear word table c := by
  induction table with
  | nil =>
    refine iff_of_false nofun fun h => ?_
    obtain ⟨front, rest, hsplit, -⟩ := h
    simp at hsplit
  | cons b table ih =>
    rw [findCommand]
    by_cases hbegins : word <+: b.name
    · have hexact : b.name.length = word.length ↔ b.name = word :=
        ⟨fun h => (hbegins.eq_of_length h.symm).symm, congrArg _⟩
      have hnext : table.head?.any (word.isPrefixOf ·.name) = true ↔
          ∃ d ∈ table.head?, word <+: d.name := by
        simp [Option.any_eq_true]
      rw [firstClear_cons hbegins, if_pos (List.isPrefixOf_iff_prefix.mpr hbegins)]
      by_cases hclear : b.name = word ∨ ∀ d ∈ table.head?, ¬ word <+: d.name
      · rw [if_neg (by rw [ne_eq, hexact, hnext]; grind), Except.ok.injEq]
        exact (and_iff_left hclear).symm
      · rw [if_pos (by rw [ne_eq, hexact, hnext]; grind)]
        exact iff_of_false nofun fun h => hclear h.2
    · rw [firstClear_skip hbegins, ← ih, if_neg (by simpa using hbegins)]

end

/-! ### The order of the table -/

/-- How many bytes two names have in common. -/
def common : Text → Text → Nat
  | a :: s, b :: t => if a = b then common s t + 1 else 0
  | _, _ => 0

theorem le_common {word s t : Text} (hs : word <+: s) (ht : word <+: t) :
    word.length ≤ common s t := by
  induction word generalizing s t with
  | nil => exact Nat.zero_le _
  | cons a word ih =>
    obtain ⟨s, rfl⟩ := hs
    obtain ⟨t, rfl⟩ := ht
    simp only [List.cons_append, common, if_true, List.length_cons]
    exact Nat.succ_le_succ (ih (List.prefix_append word s) (List.prefix_append word t))

theorem prefix_of_le_common {word s t : Text} (hs : word <+: s) (hle : word.length ≤ common s t) :
    word <+: t := by
  induction word generalizing s t with
  | nil => exact List.nil_prefix
  | cons a word ih =>
    obtain ⟨s, rfl⟩ := hs
    cases t with
    | nil => simp [common] at hle
    | cons b t =>
      rw [List.cons_append, common] at hle
      split at hle
      · rename_i hab
        subst hab
        exact (List.prefix_cons_inj a).mpr
          (ih (List.prefix_append word s) (by simpa using hle))
      · simp at hle

/-- Where a command has more in common with one further down than with the next one. -/
def outOfOrder : List Command → List Text
  | c :: next :: rest =>
    (rest.filter fun d => common c.name next.name < common c.name d.name).map
      (fun d => c.name.take (common c.name d.name)) ++ outOfOrder (next :: rest)
  | _ => []

theorem mem_outOfOrder {front rest : List Command} {c next d : Command}
    (hd : d ∈ rest) (hcommon : common c.name next.name < common c.name d.name) :
    c.name.take (common c.name d.name) ∈ outOfOrder (front ++ c :: next :: rest) := by
  induction front with
  | nil =>
    refine List.mem_append_left _ (List.mem_map.mpr ⟨d, ?_, rfl⟩)
    simpa using ⟨hd, hcommon⟩
  | cons b front ih =>
    cases front with
    | nil => exact List.mem_append_right _ ih
    | cons b' front => exact List.mem_append_right _ ih

/-- What could be taken for one command, by the order of the table. -/
def straying : List Text := [ascii "l", ascii "p", ascii "pl", ascii "r"]

theorem commands_outOfOrder : ∀ s ∈ outOfOrder commands, s ∈ straying := by
  decide +kernel

theorem straying_inits : ∀ s ∈ straying, ∀ word ∈ s.inits, word ≠ [] → word ∈ straying := by
  decide

/-- No name stands behind one that it begins. -/
theorem commands_begins : commands.Pairwise fun c d => ¬ d.name <+: c.name := by
  decide +kernel

theorem front_not_begins {front rest : List Command} {c : Command}
    (hsplit : commands = front ++ c :: rest) : ∀ d ∈ front, ¬ c.name <+: d.name := by
  have hbegins := hsplit ▸ commands_begins
  exact fun d hd => (List.pairwise_append.mp hbegins).2.2 d hd c List.mem_cons_self

theorem not_mem_front {front rest : List Command} {c : Command}
    (hsplit : commands = front ++ c :: rest) : c ∉ front :=
  fun hc => front_not_begins hsplit c hc (List.prefix_refl c.name)

theorem not_mem_rest {front rest : List Command} {c : Command}
    (hsplit : commands = front ++ c :: rest) : c ∉ rest := by
  have hbegins := (List.pairwise_append.mp (hsplit ▸ commands_begins)).2.1
  exact fun hc => (List.pairwise_cons.mp hbegins).1 c hc (List.prefix_refl c.name)

/-- A word that has to be told from a command further down. -/
theorem straying_word {word : Text} {front rest : List Command} {c next d : Command}
    (hsplit : commands = front ++ c :: next :: rest) (hc : word <+: c.name)
    (hnext : ¬ word <+: next.name) (hd : d ∈ rest) (hbegins : word <+: d.name) :
    word ∈ straying := by
  have hlong : common c.name next.name < word.length := by
    by_contra hshort
    exact hnext (prefix_of_le_common hc (by omega))
  have hcommon := le_common hc hbegins
  have hmem : c.name.take (common c.name d.name) ∈ outOfOrder commands :=
    hsplit ▸ mem_outOfOrder hd (by omega)
  have hword : word <+: c.name.take (common c.name d.name) :=
    List.prefix_take_iff.mpr ⟨hc, hcommon⟩
  have hnonempty : word ≠ [] := by
    rintro rfl
    exact hnext List.nil_prefix
  exact straying_inits _ (commands_outOfOrder _ hmem) word ((List.mem_inits _ _).mpr hword) hnonempty

/-! ### What the lookups find -/

/-- The command after the first one begins with the word too. -/
theorem straying_ambiguous :
    ∀ word ∈ straying, word ≠ ascii "r" → findCommand word commands = .error .ambiguous := by
  simp only [straying, List.forall_mem_cons]
  refine ⟨fun _ => rfl, fun _ => rfl, fun _ => rfl, fun h => absurd rfl h, ?_⟩
  simp

theorem denotes_of_found {word : Text} {c : Command} (hword : word ≠ ascii "r")
    (hfound : findCommand word commands = .ok c) : Denotes word c := by
  obtain ⟨front, rest, hsplit, hfront, hbegins, hclear⟩ := findCommand_ok_iff.mp hfound
  refine ⟨hsplit ▸ by simp, ?_⟩
  rcases hclear with hname | hnext
  · exact .inl hname
  refine .inr fun d hd => ⟨fun hdbegins => ?_, fun h => h ▸ hbegins⟩
  rw [hsplit, List.mem_append, List.mem_cons] at hd
  rcases hd with hd | hd | hd
  · exact absurd hdbegins (hfront d hd)
  · exact hd
  · cases rest with
    | nil => cases hd
    | cons next rest =>
      have hnext : ¬ word <+: next.name := hnext next rfl
      rcases List.mem_cons.mp hd with rfl | hd
      · exact absurd hdbegins hnext
      · have hstray := straying_word hsplit hbegins hnext hd hdbegins
        rw [straying_ambiguous word hstray hword] at hfound
        cases hfound

theorem found_of_denotes {word : Text} {c : Command} (h : Denotes word c) :
    findCommand word commands = .ok c := by
  obtain ⟨hmem, hname⟩ := h
  obtain ⟨front, rest, hsplit⟩ := List.append_of_mem hmem
  refine findCommand_ok_iff.mpr ⟨front, rest, hsplit, ?_⟩
  rcases hname with rfl | honly
  · exact ⟨front_not_begins hsplit, List.prefix_refl c.name, .inl rfl⟩
  · refine ⟨fun d hd hbegins => ?_, (honly c hmem).mpr rfl, .inr fun d hd hbegins => ?_⟩
    · have hdc := (honly d (hsplit ▸ by simp [hd])).mp hbegins
      exact not_mem_front hsplit (hdc ▸ hd)
    · have hd := List.mem_of_mem_head? hd
      have hdc := (honly d (hsplit ▸ by simp [hd])).mp hbegins
      exact not_mem_rest hsplit (hdc ▸ hd)

theorem getCommand_eq (str : Text) :
    getCommand str = (findCommand (firstWord str) commands).toOption :=
  getCommandLoop_eq (firstWord str) commands

theorem getCommand_some_iff {str : Text} {c : Command} :
    getCommand str = some c ↔ findCommand (firstWord str) commands = .ok c := by
  rw [getCommand_eq]
  cases findCommand (firstWord str) commands <;> simp [Except.toOption]

/-- `{ "right-view", cmd_right_view, 0, 0 }` -/
def rightView : Command := ⟨ascii "right-view", .harmless, 0, 0, false⟩

theorem rightView_found : findCommand (ascii "r") commands = .ok rightView := rfl

theorem rightView_not_denoted : ¬ Denotes (ascii "r") rightView := by
  rintro ⟨-, hname | honly⟩
  · revert hname
    decide
  · have hrefresh := (honly ⟨ascii "refresh", .harmless, 0, 0, false⟩ (by simp [commands])).mp
      (by decide)
    cases hrefresh

/-- The lookups find what every word but `r` stands for: `right-view` is not next to the
other commands that begin with it. -/
theorem resolves_iff (str : Text) : Resolves str ↔ firstWord str ≠ ascii "r" := by
  constructor
  · intro h hword
    exact rightView_not_denoted (hword ▸ (h.findCommand rightView).mp (hword ▸ rightView_found))
  · intro hword
    have hfound : ∀ c, findCommand (firstWord str) commands = .ok c ↔
        Denotes (firstWord str) c := fun c => ⟨denotes_of_found hword, found_of_denotes⟩
    exact ⟨fun c => getCommand_some_iff.trans (hfound c), hfound, getCommand_eq str⟩

/-- `r` is taken for `right-view`, while five other names begin with it. -/
theorem r_taken_for_rightView :
    getCommand (ascii "r") = some rightView ∧
    findCommand (firstWord (ascii "r")) commands = .ok rightView ∧
    ¬ Resolves (ascii "r") :=
  ⟨rfl, rfl, fun h => rightView_not_denoted ((h.findCommand rightView).mp rfl)⟩

end GracefulMusic.Commands
