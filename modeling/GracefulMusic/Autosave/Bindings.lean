import GracefulMusic.Autosave.Settings
import GracefulMusic.Commands.Arguments
import GracefulMusic.Commands.Lookup
import GracefulMusic.Foundation.Sequence
import GracefulMusic.TextOrder

/-! The bindings and the lines they are saved in.

The list of a context is sorted by key, so its lines put it together again in the same
order. What a line brings back is the command without leading spaces and without a colon
in front. -/
namespace GracefulMusic.Autosave
open Expr (Env exprParse)
open Filters Commands Settings

/-! ### Words -/

theorem skipSpaces_space (t : Text) : skipSpaces (ch ' ' :: t) = skipSpaces t :=
  List.dropWhile_cons_of_pos (by simp)

theorem head_append {w : Text} (hw : w ≠ []) (rest : Text) : (w ++ rest).head? = w.head? := by
  cases w with
  | nil => exact absurd rfl hw
  | cons c w => rfl

theorem head_ne_space {w : Text} (hspace : ch ' ' ∉ w) : w.head? ≠ some (ch ' ') :=
  fun h => hspace (List.mem_of_mem_head? h)

/-- A word is cut off at its space. -/
theorem cutWord_word {w : Text} (rest : Text) (hspace : ch ' ' ∉ w) :
    cutWord (w ++ ch ' ' :: rest) = some (w, skipSpaces rest) := by
  rw [cutWord, if_pos (by simp), Sequence.takeWhile_split rest hspace,
    Sequence.dropWhile_split rest hspace, skipSpaces_space]

theorem parseCommand_word {cmd : Text} (rest : Text) (hne : cmd ≠ []) (hspace : ch ' ' ∉ cmd)
    (hhash : cmd.head? ≠ some (ch '#')) :
    parseCommand (cmd ++ ch ' ' :: rest) =
      some (cmd, if skipSpaces rest = [] then none else some (skipSpaces rest)) := by
  have hskip : skipSpaces (cmd ++ ch ' ' :: rest) = cmd ++ ch ' ' :: rest := by
    apply skipSpaces_of_head
    rw [head_append hne]
    exact head_ne_space hspace
  have hstart : ¬ ((cmd ++ ch ' ' :: rest).head? = some (ch '#') ∨ cmd = []) := by
    rw [head_append hne]
    exact not_or.mpr ⟨hhash, hne⟩
  rw [parseCommand]
  simp only [hskip, Sequence.takeWhile_split rest hspace, Sequence.dropWhile_split rest hspace,
    skipSpaces_space]
  rw [if_neg hstart]

/-- An argument that does not begin with a dash has no flags. -/
theorem parseFlags_plain (flags : Text) {str : Text} (h : str.head? ≠ some (ch '-')) :
    parseFlags flags (some str) =
      some (none, if skipSpaces str = [] then none else some (skipSpaces str)) := by
  have hloop : parseFlagsLoop flags str.length none str = some (none, str) := by
    cases str with
    | nil => rfl
    | cons d str =>
      have hd : d ≠ ch '-' := by simpa using h
      have hflag : isFlag (d :: str) = false := by
        cases str with
        | nil => rfl
        | cons c str => simp [isFlag, hd]
      have hdashes : (d :: str).take 2 ≠ ascii "--" := fun heq => hd (List.head_eq_of_cons_eq heq)
      rw [List.length_cons, parseFlagsLoop.eq_def]
      dsimp only
      rw [if_neg (by rw [hflag]; decide), if_neg fun hand => hdashes hand.1]
  rw [parseFlags, hloop]
  rfl

/-! ### Keys and contexts -/

theorem keyTable_plain : ∀ k ∈ keyTable, k ≠ [] ∧ ch ' ' ∉ k ∧ 0 ∉ k := by decide +kernel

theorem findKey_self {k : Text} (hk : k ∈ keyTable) : findKey k = some k := by
  unfold findKey
  cases hfind : keyTable.find? fun a => a = k with
  | none => simpa using List.find?_eq_none.mp hfind k hk
  | some a =>
    have ha : a = k := by simpa using List.find?_some hfind
    rw [ha]

theorem findKey_eq {name k : Text} (h : findKey name = some k) : k ∈ keyTable :=
  List.mem_of_find?_eq_some h

theorem findContext_name (c : Context) : findContext c.name = some c := by cases c <;> decide

theorem Context.name_plain (c : Context) :
    c.name ≠ [] ∧ ch ' ' ∉ c.name ∧ c.name.head? ≠ some (ch '-') := by cases c <;> decide

/-! ### Sorted lists -/

/-- What holds of the list of a context. -/
structure Sorted (l : List Binding) : Prop where
  increasing : l.Pairwise fun a b => strcmp a.key b.key < 0
  known : ∀ b ∈ l, b.key ∈ keyTable

theorem Sorted.sublist {l l' : List Binding} (h : Sorted l) (hsub : l'.Sublist l) : Sorted l' :=
  ⟨h.increasing.sublist hsub, fun b hb => h.known b (hsub.subset hb)⟩

theorem insertBinding_perm (b : Binding) (l : List Binding) :
    (insertBinding b l).Perm (b :: l) := by
  induction l with
  | nil => exact .refl _
  | cons ptr rest ih =>
    rw [insertBinding]
    split
    · exact .refl _
    · exact (ih.cons _).trans (.swap _ _ _)

theorem Sorted.insert {b : Binding} {l : List Binding} (h : Sorted l) (hb : b.key ∈ keyTable)
    (hnew : ∀ a ∈ l, a.key ≠ b.key) : Sorted (insertBinding b l) := by
  refine ⟨?_, fun a ha => ?_⟩
  · induction l with
    | nil => exact List.pairwise_singleton _ _
    | cons ptr rest ih =>
      obtain ⟨hptr, hrest⟩ := List.pairwise_cons.mp h.increasing
      have hknown := h.known ptr (.head _)
      rw [insertBinding]
      split
      · rename_i hlt
        refine List.pairwise_cons.mpr ⟨fun a ha => ?_, h.increasing⟩
        rcases List.mem_cons.mp ha with rfl | ha
        · exact hlt
        · exact strcmp_lt_trans (keyTable_plain _ hb).2.2 (keyTable_plain _ hknown).2.2
            (keyTable_plain _ (h.known a (.tail _ ha))).2.2 hlt (hptr a ha)
      · rename_i hge
        refine List.pairwise_cons.mpr ⟨fun a ha => ?_,
          ih ⟨hrest, fun a ha => h.known a (.tail _ ha)⟩ fun a ha => hnew a (.tail _ ha)⟩
        rcases List.mem_cons.mp ((insertBinding_perm b rest).mem_iff.mp ha) with rfl | ha
        · have hne : strcmp a.key ptr.key ≠ 0 := fun heq => hnew ptr (.head _)
            ((strcmp_eq_zero (keyTable_plain _ hb).2.2 (keyTable_plain _ hknown).2.2).mp heq).symm
          have hswap := strcmp_swap a.key ptr.key
          omega
        · exact hptr a ha
  · rcases List.mem_cons.mp ((insertBinding_perm b l).mem_iff.mp ha) with rfl | ha
    · exact hb
    · exact h.known a ha

/-- A key behind all others goes to the end. -/
theorem insertBinding_last {b : Binding} {l : List Binding}
    (hlast : ∀ a ∈ l, strcmp a.key b.key < 0) : insertBinding b l = l ++ [b] := by
  induction l with
  | nil => rfl
  | cons ptr rest ih =>
    have hswap := strcmp_swap ptr.key b.key
    have hptr := hlast ptr (.head _)
    rw [insertBinding, if_neg (by omega), ih fun a ha => hlast a (.tail _ ha)]
    rfl

/-- A key is bound once, so no binding of it is left. -/
theorem Sorted.unbound {l : List Binding} (h : Sorted l) (k : Text) :
    ∀ a ∈ l.eraseP fun b => b.key = k, a.key ≠ k := by
  induction l with
  | nil =>
    intro a ha
    cases ha
  | cons b rest ih =>
    obtain ⟨hb, hrest⟩ := List.pairwise_cons.mp h.increasing
    intro a ha
    by_cases hk : b.key = k
    · rw [List.eraseP_cons_of_pos (by simpa using hk)] at ha
      intro hak
      have := hb a ha
      rw [hk, hak, strcmp_self] at this
      exact absurd this (Int.lt_irrefl 0)
    · rw [List.eraseP_cons_of_neg (by simpa using hk)] at ha
      rcases List.mem_cons.mp ha with rfl | ha
      · exact hk
      · exact ih ⟨hrest, fun a ha => h.known a (.tail _ ha)⟩ a ha

/-! ### Operations on keys -/

variable {s : Settings}

def Bound (s : Settings) : Prop := ∀ c, Sorted (s.keyBindings c)

theorem setBindings_self (s : Settings) (c : Context) (l : List Binding) :
    (s.setBindings c l).keyBindings c = l := Function.update_self ..

theorem setBindings_of_ne {c c' : Context} (hc : c' ≠ c) (l : List Binding) :
    (s.setBindings c l).keyBindings c' = s.keyBindings c' := Function.update_of_ne hc ..

theorem Bound.setBindings (h : Bound s) {c : Context} {l : List Binding} (hl : Sorted l) :
    Bound (s.setBindings c l) := by
  intro c'
  by_cases hc : c' = c
  · subst hc
    rw [setBindings_self]
    exact hl
  · rw [setBindings_of_ne hc]
    exact h c'

theorem Bound.keyUnbind (h : Bound s) (context key : Text) : Bound (s.keyUnbind context key) := by
  unfold Settings.keyUnbind
  split
  · exact h.setBindings ((h _).sublist List.eraseP_sublist)
  · exact h

theorem Bound.keyBind (h : Bound s) (context key cmd : Text) (force : Bool) :
    Bound (s.keyBind context key cmd force) := by
  unfold Settings.keyBind
  split
  · rename_i c k hc hk
    dsimp only
    split
    · exact h
    · refine Bound.setBindings ?_ (Sorted.insert ?_ (findKey_eq hk) ?_)
      · split
        · exact h.keyUnbind context key
        · exact h
      · split
        · exact h.keyUnbind context key c
        · exact h c
      · split
        · rw [Settings.keyUnbind, hc, hk]
          simp only [setBindings_self]
          exact (h c).unbound k
        · rename_i hbound
          intro a ha hak
          exact hbound (List.any_eq_true.mpr ⟨a, ha, by simpa using hak⟩)
  · exact h

theorem Bound.cmdBind (h : Bound s) (arg : Option Text) : Bound (s.cmdBind arg) := by
  unfold Settings.cmdBind
  split
  · exact h
  split
  · exact h
  split
  · exact h
  split
  · exact h
  · exact Bound.keyBind h _ _ _ _

theorem Bound.cmdUnbind (h : Bound s) (arg : Option Text) : Bound (s.cmdUnbind arg) := by
  unfold Settings.cmdUnbind
  split
  · exact h
  split
  · exact h
  split
  · exact h
  · exact Bound.keyUnbind h _ _

/-! ### Reading back -/

/-- What the line of a binding brings back. -/
def readBack (b : Binding) : Option Binding :=
  let func := skipSpaces b.cmd
  if func = [] then none
  else some ⟨b.key, if func.head? = some (ch ':') then func.tail else func⟩

/-- A command that is read back as it was. -/
def Plain (cmd : Text) : Prop :=
  cmd ≠ [] ∧ cmd.head? ≠ some (ch ' ') ∧ cmd.head? ≠ some (ch ':')

theorem readBack_key {b b' : Binding} (h : readBack b = some b') : b'.key = b.key := by
  unfold readBack at h
  dsimp only at h
  split at h
  · cases h
  · rw [← Option.some.inj h]

theorem readBack_length {b b' : Binding} (h : readBack b = some b') :
    b'.cmd.length ≤ (skipSpaces b.cmd).length := by
  unfold readBack at h
  dsimp only at h
  split at h
  · cases h
  · rw [← Option.some.inj h]
    dsimp only
    split
    · rw [List.length_tail]
      omega
    · exact Nat.le_refl _

theorem readBack_self_iff (b : Binding) : readBack b = some b ↔ Plain b.cmd := by
  obtain ⟨key, cmd⟩ := b
  cases cmd with
  | nil => simp [readBack, Plain, skipSpaces]
  | cons c t =>
    by_cases hspace : c = ch ' '
    · -- the spaces in front are lost
      have hlen : (skipSpaces t).length ≤ t.length := (List.dropWhile_sublist _).length_le
      refine iff_of_false (fun h => ?_) fun h => h.2.1 (congrArg some hspace)
      have hread := readBack_length h
      rw [hspace, skipSpaces_space, List.length_cons] at hread
      omega
    · have hskip : skipSpaces (c :: t) = c :: t := skipSpaces_of_head (by simpa using hspace)
      by_cases hcolon : c = ch ':'
      · subst hcolon
        simp [readBack, Plain, hskip]
      · simp [readBack, Plain, hskip, hspace, hcolon]

/-- A walk that may drop or change what it finds leaves a list as it is only if it leaves each
of its members. -/
theorem filterMap_self_iff {α : Type*} {f : α → Option α} {l : List α} :
    l.filterMap f = l ↔ ∀ a ∈ l, f a = some a := by
  induction l with
  | nil => simp
  | cons a l ih =>
    cases hf : f a with
    | none =>
      refine iff_of_false (fun h => ?_) fun h => ?_
      · have hlen := congrArg List.length h
        have hle := List.length_filterMap_le f l
        rw [List.filterMap_cons_none hf, List.length_cons] at hlen
        omega
      · have ha := h a (.head _)
        rw [hf] at ha
        cases ha
    | some b =>
      rw [List.filterMap_cons_some hf, List.cons.injEq, ih, List.forall_mem_cons, hf,
        Option.some.injEq]

theorem bindLine_words (c : Context) (b : Binding) :
    bindLine c b = ascii "bind" ++ ch ' ' :: (c.name ++ ch ' ' :: (b.key ++ ch ' ' :: b.cmd)) := by
  have hbind : ascii "bind " = ascii "bind" ++ [ch ' '] := by decide
  rw [bindLine, hbind]
  simp

theorem runCommand_bind (env : Env) (s : Settings) {buf arg : Text}
    (h : parseCommand buf = some (ascii "bind", some arg)) :
    runCommand env s buf = s.cmdBind (some arg) := by
  unfold runCommand
  rw [h]
  rfl

theorem keyBind_new {c : Context} {k : Text} (hk : k ∈ keyTable)
    (hnew : ∀ a ∈ s.keyBindings c, a.key ≠ k) (cmd : Text) :
    s.keyBind c.name k cmd false = s.setBindings c (insertBinding
      ⟨k, if cmd.head? = some (ch ':') then cmd.tail else cmd⟩ (s.keyBindings c)) := by
  have hbound : ((s.keyBindings c).any fun b => decide (b.key = k)) = false := by
    rw [List.any_eq_false]
    intro a ha
    simpa using hnew a ha
  rw [Settings.keyBind, findContext_name, findKey_self hk]
  dsimp only
  rw [hbound]
  rfl

theorem runCommand_bindLine (env : Env) {c : Context} {b : Binding} (hb : b.key ∈ keyTable)
    (hnew : ∀ a ∈ s.keyBindings c, a.key ≠ b.key) :
    runCommand env s (bindLine c b) =
      (readBack b).elim s fun b' => s.setBindings c (insertBinding b' (s.keyBindings c)) := by
  obtain ⟨hname, hspace, hdash⟩ := c.name_plain
  obtain ⟨hkey, hkeySpace, -⟩ := keyTable_plain _ hb
  have hargs : skipSpaces (c.name ++ ch ' ' :: (b.key ++ ch ' ' :: b.cmd)) =
      c.name ++ ch ' ' :: (b.key ++ ch ' ' :: b.cmd) := by
    apply skipSpaces_of_head
    rw [head_append hname]
    exact head_ne_space hspace
  have hrest : skipSpaces (b.key ++ ch ' ' :: b.cmd) = b.key ++ ch ' ' :: b.cmd := by
    apply skipSpaces_of_head
    rw [head_append hkey]
    exact head_ne_space hkeySpace
  have hparse : parseCommand (bindLine c b) =
      some (ascii "bind", some (c.name ++ ch ' ' :: (b.key ++ ch ' ' :: b.cmd))) := by
    rw [bindLine_words, parseCommand_word _ (by decide) (by decide) (by decide), hargs,
      if_neg (by simp)]
  have hflags : parseFlags (ascii "f") (some (c.name ++ ch ' ' :: (b.key ++ ch ' ' :: b.cmd))) =
      some (none, some (c.name ++ ch ' ' :: (b.key ++ ch ' ' :: b.cmd))) := by
    rw [parseFlags_plain _ (by rwa [head_append hname]), hargs, if_neg (by simp)]
  rw [runCommand_bind env s hparse, Settings.cmdBind, hflags]
  simp only [Option.bind_some, cutWord_word _ hspace, hrest, cutWord_word _ hkeySpace]
  rw [readBack]
  split
  · rfl
  · exact keyBind_new hb hnew _

theorem setBindings_again (c : Context) (l l' : List Binding) :
    (s.setBindings c l).setBindings c l' = s.setBindings c l' := by
  simp [Settings.setBindings]

theorem setBindings_keyBindings (c : Context) : s.setBindings c (s.keyBindings c) = s := by
  simp [Settings.setBindings]

theorem Sorted.of_keys {l l' : List Binding} (h : Sorted l)
    (hkeys : l'.map Binding.key = l.map Binding.key) : Sorted l' := by
  refine ⟨?_, fun b hb => ?_⟩
  · rw [← List.pairwise_map (f := Binding.key) (R := fun k k' => strcmp k k' < 0), hkeys,
      List.pairwise_map]
    exact h.increasing
  · have hmem : b.key ∈ l.map Binding.key := hkeys ▸ List.mem_map_of_mem hb
    obtain ⟨a, ha, hab⟩ := List.mem_map.mp hmem
    exact hab ▸ h.known a ha

/-- The lines of a context append what is read back, since they come in the order of the keys. -/
theorem foldl_bindLines (env : Env) (c : Context) (l : List Binding)
    (h : Sorted (s.keyBindings c ++ l)) :
    (l.map (bindLine c)).foldl (runCommand env) s =
      s.setBindings c (s.keyBindings c ++ l.filterMap readBack) := by
  induction l generalizing s with
  | nil => rw [List.filterMap_nil, List.append_nil, setBindings_keyBindings, List.map_nil,
      List.foldl_nil]
  | cons b l ih =>
    have hbefore : ∀ a ∈ s.keyBindings c, strcmp a.key b.key < 0 :=
      fun a ha => (List.pairwise_append.mp h.increasing).2.2 a ha b (.head _)
    have hnew : ∀ a ∈ s.keyBindings c, a.key ≠ b.key := by
      intro a ha hab
      have hlt := hbefore a ha
      rw [hab, strcmp_self] at hlt
      exact Int.lt_irrefl 0 hlt
    rw [List.map_cons, List.foldl_cons,
      runCommand_bindLine env (h.known b (List.mem_append_right _ (.head _))) hnew]
    cases hread : readBack b with
    | none =>
      rw [List.filterMap_cons_none hread]
      exact ih (h.sublist ((List.sublist_cons_self b l).append_left _))
    | some b' =>
      have hkey := readBack_key hread
      have hlast : insertBinding b' (s.keyBindings c) = s.keyBindings c ++ [b'] :=
        insertBinding_last fun a ha => hkey ▸ hbefore a ha
      have hsorted : Sorted ((s.keyBindings c ++ [b']) ++ l) := h.of_keys (by simp [hkey])
      rw [Option.elim_some, hlast, ih (by rwa [setBindings_self]), setBindings_self,
        setBindings_again, List.filterMap_cons_some hread, List.append_assoc,
        List.singleton_append]

theorem foldl_contexts (env : Env) {saved : Context → List Binding} (hsaved : ∀ c, Sorted (saved c))
    {cs : List Context} (hcs : cs.Nodup) (hs : ∀ c ∈ cs, s.keyBindings c = []) :
    (cs.flatMap fun c => (saved c).map (bindLine c)).foldl (runCommand env) s =
      ⟨fun c => if c ∈ cs then (saved c).filterMap readBack else s.keyBindings c, s.filters⟩ := by
  induction cs generalizing s with
  | nil => simp
  | cons c cs ih =>
    obtain ⟨hc, hcs⟩ := List.nodup_cons.mp hcs
    have hnone := hs c (.head _)
    have hrest : ∀ c' ∈ cs,
        (s.setBindings c ((saved c).filterMap readBack)).keyBindings c' = [] := by
      intro c' hc'
      have hne : c' ≠ c := fun heq => hc (heq ▸ hc')
      rw [setBindings_of_ne hne]
      exact hs c' (.tail _ hc')
    rw [List.flatMap_cons, List.foldl_append,
      foldl_bindLines env c _ (by rw [hnone]; exact hsaved c), hnone, List.nil_append, ih hcs hrest]
    congr 1
    funext c'
    by_cases heq : c' = c
    · subst heq
      rw [if_neg hc, setBindings_self, if_pos List.mem_cons_self]
    · rw [setBindings_of_ne heq]
      simp only [List.mem_cons, heq, false_or]

/-! ### How often a command is bound -/

/-- `key_bindings`, and `bc` of the commands. -/
structure Keys where
  keyBindings : Context → List Binding
  bc : Command → Int

inductive KeyOp where
  | bind (context key cmd : Text) (force : Bool)
  | unbind (context key : Text) (force : Bool)

namespace Keys

def init : Keys := ⟨fun _ => [], fun _ => 0⟩

/-- The count of the command that a string stands for goes up or down. -/
def count (keys : Keys) (cmd : Text) (n : Int) : Keys :=
  match getCommand cmd with
  | none => keys
  | some command => {keys with bc := Function.update keys.bc command (keys.bc command + n)}

def setBindings (keys : Keys) (c : Context) (bindings : List Binding) : Keys :=
  {keys with keyBindings := Function.update keys.keyBindings c bindings}

/-- `key_unbind` with its result. -/
def keyUnbind (keys : Keys) (context key : Text) (force : Bool) : Keys × Int :=
  match findContext context, findKey key with
  | some c, some k =>
    match (keys.keyBindings c).find? fun b => b.key = k with
    | some b =>
      ((keys.setBindings c ((keys.keyBindings c).eraseP fun b => b.key = k)).count b.cmd (-1), 0)
    | none => (keys, if force then 0 else -1)
  | _, _ => (keys, -1)

/-- `key_bind` with its result. -/
def keyBind (keys : Keys) (context key cmd : Text) (force : Bool) : Keys × Int :=
  match findContext context, findKey key with
  | some c, some k =>
    -- check if already bound
    let bound := (keys.keyBindings c).any fun b => b.key = k
    if bound && !force then (keys, -1)
    else
      let keys := if bound then (keys.keyUnbind context key false).1 else keys
      let cmd := if cmd.head? = some (ch ':') then cmd.tail else cmd
      ((keys.setBindings c (insertBinding ⟨k, cmd⟩ (keys.keyBindings c))).count cmd 1, 0)
  | _, _ => (keys, -1)

def step (keys : Keys) : KeyOp → Keys
  | .bind context key cmd force => (keys.keyBind context key cmd force).1
  | .unbind context key force => (keys.keyUnbind context key force).1

/-- How many bindings in all contexts stand for a command. -/
def bindings (keys : Keys) (command : Command) : Nat :=
  (contexts.map fun c =>
    (keys.keyBindings c).countP fun b => getCommand b.cmd = some command).sum

/-- What holds of bindings and counts. -/
structure Counted (keys : Keys) : Prop where
  sorted : ∀ c, Sorted (keys.keyBindings c)
  bc : ∀ command, keys.bc command = keys.bindings command

variable {keys : Keys}

@[simp] theorem count_keyBindings (cmd : Text) (n : Int) :
    (keys.count cmd n).keyBindings = keys.keyBindings := by
  rw [count]
  cases getCommand cmd <;> rfl

theorem count_bc (cmd : Text) (n : Int) (command : Command) :
    (keys.count cmd n).bc command =
      keys.bc command + if getCommand cmd = some command then n else 0 := by
  rw [count]
  cases hcmd : getCommand cmd with
  | none => simp
  | some d =>
    by_cases hd : d = command
    · subst hd
      simp
    · simp [hd, Ne.symm hd]

/-- Only one context has another number of bindings. -/
theorem bindings_setBindings (c : Context) (l : List Binding) (command : Command) :
    (keys.setBindings c l).bindings command +
        (keys.keyBindings c).countP (fun b => getCommand b.cmd = some command) =
      keys.bindings command + l.countP fun b => getCommand b.cmd = some command := by
  cases c <;>
    simp only [bindings, setBindings, contexts, List.map_cons, List.map_nil, List.sum_cons,
      List.sum_nil, Function.update_self, ne_eq, reduceCtorEq, not_false_eq_true,
      Function.update_of_ne] <;> omega

/-- The count stays right where the list gains, or loses, as many bindings. -/
theorem count_setBindings {command : Command} (h : keys.bc command = keys.bindings command)
    (c : Context) (l : List Binding) (cmd : Text) (n : Int)
    (hl : (l.countP (fun b => getCommand b.cmd = some command) : Int) =
      (keys.keyBindings c).countP (fun b => getCommand b.cmd = some command) +
        if getCommand cmd = some command then n else 0) :
    ((keys.setBindings c l).count cmd n).bc command =
      ((keys.setBindings c l).count cmd n).bindings command := by
  have hset := @bindings_setBindings keys c l command
  have hkept : ((keys.setBindings c l).count cmd n).bindings command =
      (keys.setBindings c l).bindings command := by
    rw [bindings, count_keyBindings, bindings]
  have hbc : (keys.setBindings c l).bc command = keys.bc command := rfl
  rw [count_bc, hkept, hbc, h]
  generalize (if getCommand cmd = some command then n else 0) = change at hl ⊢
  omega

/-- The binding that is found is the one that is taken out. -/
theorem find_eraseP_perm {p : Binding → Bool} {b : Binding} {l : List Binding}
    (h : l.find? p = some b) : l.Perm (b :: l.eraseP p) := by
  induction l with
  | nil => cases h
  | cons a l ih =>
    by_cases ha : p a = true
    · rw [List.find?_cons_of_pos ha] at h
      obtain rfl := Option.some.inj h
      rw [List.eraseP_cons_of_pos ha]
    · rw [List.find?_cons_of_neg ha] at h
      rw [List.eraseP_cons_of_neg ha]
      exact ((ih h).cons a).trans (.swap _ _ _)

/-- The bindings without the counts. -/
theorem keyUnbind_bindings (context key : Text) (force : Bool) (filters : List FilterEntry) :
    (keys.keyUnbind context key force).1.keyBindings =
      (Settings.keyUnbind ⟨keys.keyBindings, filters⟩ context key).keyBindings := by
  rw [keyUnbind, Settings.keyUnbind]
  cases findContext context with
  | none => rfl
  | some c =>
    cases findKey key with
    | none => rfl
    | some k =>
      dsimp only
      cases hfind : (keys.keyBindings c).find? fun b => b.key = k with
      | some b => exact count_keyBindings _ _
      | none =>
        have hnone : ∀ b ∈ keys.keyBindings c, ¬ decide (b.key = k) = true :=
          List.find?_eq_none.mp hfind
        rw [List.eraseP_of_forall_not hnone]
        exact (Function.update_eq_self c keys.keyBindings).symm

theorem keyBind_bindings (context key cmd : Text) (force : Bool) (filters : List FilterEntry) :
    (keys.keyBind context key cmd force).1.keyBindings =
      (Settings.keyBind ⟨keys.keyBindings, filters⟩ context key cmd force).keyBindings := by
  rw [keyBind, Settings.keyBind]
  cases findContext context with
  | none => rfl
  | some c =>
    cases findKey key with
    | none => rfl
    | some k =>
      dsimp only
      split
      · rfl
      · have hunbind := @keyUnbind_bindings keys context key false filters
        rw [count_keyBindings, setBindings, Settings.setBindings]
        split
        · rw [hunbind]
        · rfl

namespace Counted

theorem init : Counted init :=
  ⟨fun _ => ⟨List.Pairwise.nil, nofun⟩, fun _ => rfl⟩

theorem keyUnbind (h : Counted keys) (context key : Text) (force : Bool) :
    Counted (keys.keyUnbind context key force).1 := by
  refine ⟨fun c => ?_, fun command => ?_⟩
  · rw [keyUnbind_bindings context key force []]
    exact Bound.keyUnbind (s := ⟨keys.keyBindings, []⟩) h.sorted context key c
  · rw [Keys.keyUnbind]
    split
    · rename_i c k _ _
      split
      · rename_i b hfind
        have hperm := (find_eraseP_perm hfind).countP_eq
          fun b => decide (getCommand b.cmd = some command)
        refine count_setBindings (h.bc command) c _ b.cmd (-1) ?_
        rw [List.countP_cons] at hperm
        simp only [decide_eq_true_eq] at hperm
        rw [hperm]
        split <;> omega
      · exact h.bc command
    · exact h.bc command

theorem keyBind (h : Counted keys) (context key cmd : Text) (force : Bool) :
    Counted (keys.keyBind context key cmd force).1 := by
  refine ⟨fun c => ?_, fun command => ?_⟩
  · rw [keyBind_bindings context key cmd force []]
    exact Bound.keyBind (s := ⟨keys.keyBindings, []⟩) h.sorted context key cmd force c
  · rw [Keys.keyBind]
    split
    · rename_i c k _ _
      dsimp only
      split
      · exact h.bc command
      · have h : Counted (if (keys.keyBindings c).any fun b => b.key = k then
            (keys.keyUnbind context key false).1 else keys) := by
          split
          · exact h.keyUnbind context key false
          · exact h
        revert h
        generalize (if (keys.keyBindings c).any fun b => b.key = k then
          (keys.keyUnbind context key false).1 else keys) = keys
        generalize (if cmd.head? = some (ch ':') then cmd.tail else cmd) = cmd
        intro h
        have hperm := (insertBinding_perm ⟨k, cmd⟩ (keys.keyBindings c)).countP_eq
          fun b => decide (getCommand b.cmd = some command)
        refine count_setBindings (h.bc command) c _ cmd 1 ?_
        rw [List.countP_cons] at hperm
        simp only [decide_eq_true_eq] at hperm
        rw [hperm]
        split <;> omega
    · exact h.bc command

theorem run (h : Counted keys) (ops : List KeyOp) : Counted (ops.foldl step keys) := by
  induction ops generalizing keys with
  | nil => exact h
  | cons op ops ih =>
    cases op with
    | bind context key cmd force => exact ih (h.keyBind context key cmd force)
    | unbind context key force => exact ih (h.keyUnbind context key force)

end Counted

/-- **The counts are right** after all calls, whether they fail or not. -/
theorem bind_counts (ops : List KeyOp) :
    (∀ c, ((ops.foldl step init).keyBindings c).Pairwise fun a b => strcmp a.key b.key < 0) ∧
      (∀ c, (((ops.foldl step init).keyBindings c).map Binding.key).Nodup) ∧
      ∀ command ∈ commands, (ops.foldl step init).bc command =
        (ops.foldl step init).bindings command := by
  have h := Counted.init.run ops
  refine ⟨fun c => (h.sorted c).increasing, fun c => ?_, fun command _ => h.bc command⟩
  refine List.pairwise_map.mpr ((h.sorted c).increasing.imp fun {a b} hlt heq => ?_)
  rw [heq, strcmp_self] at hlt
  exact Int.lt_irrefl 0 hlt

end Keys

end GracefulMusic.Autosave
