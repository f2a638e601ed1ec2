import GracefulMusic.Autosave.FilterLines

/-! The next start, from the settings saved in the autosave file (`options_exit`). -/
namespace GracefulMusic.Autosave
open Expr (Env exprParse)
open Filters Commands Settings

variable {env : Env} {s : Settings}

/-! ### Runs -/

/-- What holds of the settings in every run. -/
structure Saved (env : Env) (s : Settings) : Prop where
  bound : Bound s
  kept : Kept env s.filters

theorem filters_keyUnbind (context key : Text) :
    (s.keyUnbind context key).filters = s.filters := by
  unfold Settings.keyUnbind
  split <;> rfl

theorem filters_keyBind (context key cmd : Text) (force : Bool) :
    (s.keyBind context key cmd force).filters = s.filters := by
  unfold Settings.keyBind
  split
  · dsimp only
    split
    · rfl
    · show (if _ then _ else _ : Settings).filters = s.filters
      split
      · exact filters_keyUnbind context key
      · rfl
  · rfl

theorem filters_cmdBind (arg : Option Text) : (s.cmdBind arg).filters = s.filters := by
  unfold Settings.cmdBind
  split
  · rfl
  split
  · rfl
  split
  · rfl
  split
  · rfl
  · exact filters_keyBind _ _ _ _

theorem filters_cmdUnbind (arg : Option Text) : (s.cmdUnbind arg).filters = s.filters := by
  unfold Settings.cmdUnbind
  split
  · rfl
  split
  · rfl
  split
  · rfl
  · exact filters_keyUnbind _ _

theorem keyBindings_setFilter (keyval : Text) :
    (filtersSetFilter env s keyval).keyBindings = s.keyBindings := by
  unfold filtersSetFilter
  dsimp only
  split
  · split
    · split <;> rfl
    · rfl
  · rfl

theorem keyBindings_activate (winActivate : Bool) :
    (activate env s winActivate).keyBindings = s.keyBindings := by
  unfold activate
  split
  · rfl
  split <;> rfl

theorem keyBindings_activateNames (str : Option Text) :
    (filtersActivateNames env s str).keyBindings = s.keyBindings := by
  unfold filtersActivateNames
  dsimp only
  split
  · exact keyBindings_activate false
  split
  · rfl
  split
  · rfl
  · exact keyBindings_activate false

theorem Saved.empty : Saved env empty := by
  refine ⟨fun c => ⟨List.Pairwise.nil, ?_⟩, List.Pairwise.nil, ?_, ?_⟩
  all_goals
    intro a ha
    cases ha

theorem Bound.of_keyBindings {s' : Settings} (h : Bound s) (hs : s'.keyBindings = s.keyBindings) :
    Bound s' := by
  intro c
  rw [hs]
  exact h c

theorem Saved.step (h : Saved env s) (op : Op) : Saved env (s.step env op) := by
  cases op with
  | bind arg => exact ⟨h.bound.cmdBind arg, (filters_cmdBind arg).symm ▸ h.kept⟩
  | unbind arg => exact ⟨h.bound.cmdUnbind arg, (filters_cmdUnbind arg).symm ▸ h.kept⟩
  | fset keyval =>
    exact ⟨h.bound.of_keyBindings (keyBindings_setFilter keyval), h.kept.setFilter keyval⟩
  | factivate names =>
    exact ⟨h.bound.of_keyBindings (keyBindings_activateNames names),
      h.kept.of_strings (strings_activateNames names)⟩
  | toggleFilter row => exact ⟨h.bound, h.kept.of_strings (strings_toggle row)⟩
  | deleteFilter row => exact ⟨h.bound, h.kept.sublist (List.eraseIdx_sublist ..)⟩
  | activate =>
    exact ⟨h.bound.of_keyBindings (keyBindings_activate true),
      h.kept.of_strings (strings_activate true)⟩

theorem Saved.run (ops : List Op) (h : Saved env s) :
    Saved env (ops.foldl (Settings.step env) s) := by
  induction ops generalizing s with
  | nil => exact h
  | cons op ops ih => exact ih (h.step op)

/-! ### The list of filters -/

/-- What a definition fails on. -/
inductive Fails (env : Env) : Text → Prop where
  | keyOnly {keyval : Text} (h : ch '=' ∉ keyval) : Fails env keyval
  | name {name : Text} (val : Text) (hname : ch '=' ∉ name)
      (h : validateFilterName name = false) : Fails env (name ++ ch '=' :: val)
  | expression {name val : Text} {err : Text} (hname : ch '=' ∉ name)
      (h : exprParse env val = .error err) : Fails env (name ++ ch '=' :: val)

theorem setFilter_fails {keyval : Text} (h : Fails env keyval) :
    s.filtersSetFilter env keyval = s := by
  cases h with
  | keyOnly h => exact if_neg h
  | name val hname h => rw [filtersSetFilter_equals val hname, h, if_neg Bool.false_ne_true]
  | expression hname h => rw [filtersSetFilter_equals _ hname, h, ite_self]

theorem setFilter_accepted {name val : Text} (hname : ch '=' ∉ name)
    (h : ¬ Fails env (name ++ ch '=' :: val)) :
    validateFilterName name = true ∧
      s.filtersSetFilter env (name ++ ch '=' :: val) =
        {s with filters := setEntry { name := name, filter := val } s.filters} := by
  have hvalid : validateFilterName name = true :=
    Bool.of_not_eq_false fun hinvalid => h (.name val hname hinvalid)
  rw [filtersSetFilter_equals val hname, if_pos hvalid]
  cases hparse : exprParse env val with
  | error err => exact absurd (.expression hname hparse) h
  | ok e => exact ⟨hvalid, rfl⟩

/-- A filter that is replaced leaves its selection to the new one. -/
theorem findFilter_setEntry {new : FilterEntry} {l : List FilterEntry} (h : Kept env l)
    (hvalid : validateFilterName new.name = true) :
    findFilter (setEntry new l) new.name =
      some {new with selStat := ((findFilter l new.name).map (·.selStat)).getD new.selStat} := by
  induction l with
  | nil => exact List.find?_cons_of_pos (by simp)
  | cons e rest ih =>
    obtain ⟨he, -⟩ := List.pairwise_cons.mp h.increasing
    rw [setEntry]
    split
    · rename_i hlt
      -- all that follow are greater, so there is none of this name
      have hnone : findFilter (e :: rest) new.name = none := by
        rw [findFilter, List.find?_eq_none]
        intro f hf
        have hgreater : strcmp new.name f.name < 0 := by
          rcases List.mem_cons.mp hf with rfl | hrest
          · exact hlt
          · exact strcmp_lt_trans (valid_terminated hvalid)
              (valid_terminated (h.valid e (.head _))) (valid_terminated (h.valid f hf)) hlt
              (he f hrest)
        intro heq
        rw [of_decide_eq_true heq, strcmp_self] at hgreater
        exact Int.lt_irrefl 0 hgreater
      rw [hnone]
      exact List.find?_cons_of_pos (by simp)
    have hname := strcmp_eq_zero (valid_terminated hvalid)
      (valid_terminated (h.valid e (.head _)))
    split
    · rename_i heq
      have hfound : findFilter (e :: rest) new.name = some e :=
        List.find?_cons_of_pos (by simpa using (hname.mp heq).symm)
      rw [hfound]
      exact List.find?_cons_of_pos (by simp)
    · rename_i hne
      have hother : ¬ e.name = new.name := fun heq => hne (hname.mpr heq.symm)
      rw [findFilter, List.find?_cons_of_neg (by simpa using hother), findFilter,
        List.find?_cons_of_neg (by simpa using hother)]
      exact ih (h.sublist (List.sublist_cons_self e rest))

theorem filter_setEntry {new : FilterEntry} {l : List FilterEntry} (h : Kept env l)
    (hvalid : validateFilterName new.name = true) :
    (setEntry new l).filter (·.name ≠ new.name) = l.filter (·.name ≠ new.name) := by
  induction l with
  | nil => exact List.filter_cons_of_neg (by simp)
  | cons e rest ih =>
    rw [setEntry]
    split
    · exact List.filter_cons_of_neg (by simp)
    have hname := strcmp_eq_zero (valid_terminated hvalid)
      (valid_terminated (h.valid e (.head _)))
    split
    · rename_i heq
      rw [List.filter_cons_of_neg (by simp),
        List.filter_cons_of_neg (by simpa using (hname.mp heq).symm)]
    · rw [List.filter_cons, List.filter_cons,
        ih (h.sublist (List.sublist_cons_self e rest))]

theorem Kept.names {l : List FilterEntry} (h : Kept env l) :
    l.Pairwise fun e f => e.name ≠ f.name := by
  refine h.increasing.imp fun {e f} hlt heq => ?_
  rw [heq, strcmp_self] at hlt
  exact Int.lt_irrefl 0 hlt

structure FilterList (env : Env) (s : Settings) : Prop where
  sorted : s.filters.Pairwise fun e f => strcmp e.name f.name < 0
  unique : s.filters.Pairwise fun e f => e.name ≠ f.name
  parses : ∀ f ∈ s.filters, ∃ e, exprParse env f.filter = .ok e
  failed : ∀ keyval, Fails env keyval → s.filtersSetFilter env keyval = s
  defined : ∀ name val, ch '=' ∉ name → ¬ Fails env (name ++ ch '=' :: val) →
    findFilter (s.filtersSetFilter env (name ++ ch '=' :: val)).filters name =
      some { name := name, filter := val, actStat := .ignore
             selStat := ((findFilter s.filters name).map (·.selStat)).getD .ignore }
  others : ∀ name val, ch '=' ∉ name → ¬ Fails env (name ++ ch '=' :: val) →
    (s.filtersSetFilter env (name ++ ch '=' :: val)).filters.filter (·.name ≠ name) =
      s.filters.filter (·.name ≠ name)

/-- In every run the list is sorted by name, what it holds parses, and only a definition that does
not fail changes it, in the filter it defines. -/
theorem filters_sorted (env : Env) (ops : List Op) :
    FilterList env (ops.foldl (Settings.step env) empty) := by
  have h : Kept env (ops.foldl (Settings.step env) empty).filters := (Saved.empty.run ops).kept
  generalize ops.foldl (Settings.step env) empty = s at h
  refine ⟨h.increasing, h.names, h.parses, fun keyval => setFilter_fails, ?_, ?_⟩
  · intro name val hname haccepted
    obtain ⟨hvalid, hset⟩ := setFilter_accepted hname haccepted
    rw [hset]
    exact findFilter_setEntry h hvalid
  · intro name val hname haccepted
    obtain ⟨hvalid, hset⟩ := setFilter_accepted hname haccepted
    rw [hset]
    exact @filter_setEntry env { name := name, filter := val } _ h hvalid

/-! ### The `factivate` line -/

/-- A filter selected as it was active. -/
def reselected (f : FilterEntry) : FilterEntry := {fresh f with selStat := f.actStat}

/-- The names fit into the buffer of `for_each_name`. -/
def ShortNames (l : List FilterEntry) : Prop :=
  ∀ f ∈ l, f.actStat ≠ .ignore → f.name.length < 64

theorem names_line {l : List FilterEntry} (hvalid : ∀ f ∈ l, validateFilterName f.name = true) :
    l.flatMap factivateName = [] ∨
      ∃ arg, l.flatMap factivateName = ch ' ' :: arg ∧ arg ≠ [] ∧ arg.head? ≠ some (ch ' ') := by
  induction l with
  | nil => exact .inl rfl
  | cons f l ih =>
    have hf := hvalid f (.head _)
    rw [List.flatMap_cons, factivateName.eq_def]
    cases f.actStat with
    | ignore => exact ih fun e he => hvalid e (.tail _ he)
    | yes =>
      refine .inr ⟨f.name ++ l.flatMap factivateName, rfl, ?_, ?_⟩
      · exact List.append_ne_nil_of_left_ne_nil (valid_name hf).1 _
      · rw [head_append (valid_name hf).1]
        exact head_ne_space (valid_spaces hf)
    | no => exact .inr ⟨ch '!' :: (f.name ++ l.flatMap factivateName), rfl, by simp, by
        rw [List.head?_cons]
        decide⟩

theorem runCommand_factivateLine {l : List FilterEntry}
    (hvalid : ∀ f ∈ l, validateFilterName f.name = true) :
    runCommand env s (factivateLine l) =
      filtersActivateNames env s (some (skipSpaces (l.flatMap factivateName))) := by
  rcases names_line hvalid with hnone | ⟨arg, harg, hne, hhead⟩
  · rw [factivateLine, hnone, List.append_nil]
    rfl
  · have hparse : parseCommand (factivateLine l) = some (ascii "factivate", some arg) := by
      rw [factivateLine, harg, parseCommand_word _ (by decide) (by decide) (by decide),
        skipSpaces_of_head hhead, if_neg hne]
    rw [harg, skipSpaces_space, skipSpaces_of_head hhead]
    unfold runCommand
    rw [hparse]
    rfl

theorem forEachName_line {σ : Type} (cb : Text → Stat → σ → Option σ) {l : List FilterEntry}
    (hvalid : ∀ f ∈ l, validateFilterName f.name = true) (st : σ) :
    forEachName cb ((skipSpaces (l.flatMap factivateName)).length + 1)
      (skipSpaces (l.flatMap factivateName)) st = l.foldlM (nameStep cb) st := by
  have hlen : (l.flatMap factivateName).length ≤
      (skipSpaces (l.flatMap factivateName)).length + 1 := by
    rcases names_line hvalid with hnone | ⟨arg, harg, -, hhead⟩
    · rw [hnone]
      exact Nat.zero_le _
    · rw [harg, skipSpaces_space, skipSpaces_of_head hhead, List.length_cons]
  rw [forEachName_skipSpaces, forEachName_names cb hvalid hlen]

theorem ensure_names {filters l : List FilterEntry}
    (hfound : ∀ f ∈ l, (findFilter filters f.name).isSome) :
    l.foldlM (nameStep (ensureFilterName filters)) () = some () ↔ ShortNames l := by
  induction l with
  | nil => simp [ShortNames]
  | cons f l ih =>
    have ih := ih fun e he => hfound e (.tail _ he)
    have hshort : ShortNames (f :: l) ↔
        (f.actStat ≠ .ignore → f.name.length < 64) ∧ ShortNames l := List.forall_mem_cons
    rw [List.foldlM_cons, hshort, ← ih, nameStep]
    by_cases hstat : f.actStat = .ignore
    · rw [if_pos hstat]
      simp [hstat]
    by_cases hlen : 64 ≤ f.name.length
    · rw [if_neg hstat, if_pos hlen]
      simp [hstat, Nat.not_lt.mpr hlen]
    · rw [if_neg hstat, if_neg hlen, ensureFilterName, if_pos (hfound f (.head _))]
      simp [Nat.not_le.mp hlen]

theorem select_found {name : Text} (stat : Stat) {front : List FilterEntry} {e : FilterEntry}
    (back : List FilterEntry) (hfront : ∀ f ∈ front, f.name ≠ name) (he : e.name = name) :
    select name stat (front ++ e :: back) = front ++ {e with selStat := stat} :: back := by
  induction front with
  | nil =>
    rw [List.nil_append, select, if_pos he]
    rfl
  | cons f front ih =>
    rw [List.cons_append, select, if_neg (hfront f (.head _)),
      ih fun f hf => hfront f (.tail _ hf)]
    rfl

/-- The loop selects the filters one after the other; those in front have been selected. -/
theorem select_names {front l : List FilterEntry}
    (hnames : (front ++ l).Pairwise fun e f => e.name ≠ f.name) (hshort : ShortNames l) :
    l.foldlM (nameStep selectFilter) (front.map reselected ++ l.map fresh) =
      some ((front ++ l).map reselected) := by
  induction l generalizing front with
  | nil => rw [List.map_nil, List.append_nil, List.append_nil, List.foldlM_nil, Option.pure_def]
  | cons f l ih =>
    have hstep : nameStep selectFilter (front.map reselected ++ (f :: l).map fresh) f =
        some ((front ++ [f]).map reselected ++ l.map fresh) := by
      rw [nameStep, List.map_append, List.append_assoc]
      split
      · rename_i hstat
        have hf : reselected f = fresh f := by rw [reselected, hstat]; rfl
        rw [List.map_singleton, hf]
        rfl
      · rename_i hstat
        have hbefore : ∀ e ∈ front.map reselected, e.name ≠ f.name := by
          intro e he
          obtain ⟨g, hg, rfl⟩ := List.mem_map.mp he
          exact (List.pairwise_append.mp hnames).2.2 g hg f (.head _)
        have hselect : select f.name f.actStat (front.map reselected ++ fresh f :: l.map fresh) =
            front.map reselected ++ reselected f :: l.map fresh :=
          select_found f.actStat _ hbefore rfl
        rw [if_neg (Nat.not_le.mpr (hshort f (.head _) hstat)), selectFilter, List.map_cons,
          hselect]
        rfl
    have hfront : front ++ f :: l = (front ++ [f]) ++ l := by
      rw [List.append_assoc, List.singleton_append]
    rw [List.foldlM_cons, hstep, hfront]
    exact ih (hfront ▸ hnames) fun e he => hshort e (.tail _ he)

theorem findFilter_fresh {l : List FilterEntry} {f : FilterEntry} (hf : f ∈ l) :
    (findFilter (l.map fresh) f.name).isSome := by
  rw [findFilter, List.find?_isSome]
  exact ⟨fresh f, List.mem_map_of_mem hf, by simp [fresh]⟩

theorem unselected_fresh (l : List FilterEntry) :
    ((l.map fresh).map fun f => {f with selStat := .ignore}) = l.map fresh := by
  rw [List.map_map]
  rfl

theorem factivate_short {l : List FilterEntry} (hkept : Kept env l) (hs : s.filters = l.map fresh)
    (hshort : ShortNames l) :
    runCommand env s (factivateLine l) =
      activate env {s with filters := l.map reselected} false := by
  have hensure : l.foldlM (nameStep (ensureFilterName (l.map fresh))) () = some () :=
    (ensure_names fun f hf => findFilter_fresh hf).mpr hshort
  have hselect : l.foldlM (nameStep selectFilter) (l.map fresh) = some (l.map reselected) :=
    @select_names [] l hkept.names hshort
  rw [runCommand_factivateLine hkept.valid, filtersActivateNames]
  simp only [hs, unselected_fresh, forEachName_line _ hkept.valid, hensure, hselect]

theorem factivate_long {l : List FilterEntry} (hkept : Kept env l) (hs : s.filters = l.map fresh)
    (hlong : ¬ ShortNames l) : runCommand env s (factivateLine l) = s := by
  have hensure : l.foldlM (nameStep (ensureFilterName (l.map fresh))) () = none := by
    cases hfold : l.foldlM (nameStep (ensureFilterName (l.map fresh))) () with
    | none => rfl
    | some u => exact absurd ((ensure_names fun f hf => findFilter_fresh hf).mp hfold) hlong
  rw [runCommand_factivateLine hkept.valid, filtersActivateNames]
  simp only [hs, forEachName_line _ hkept.valid, hensure]

/-! ### The round trip -/

/-- The active filters, selected where no filter is active, still parse and resolve. -/
def Resolves (env : Env) (s : Settings) : Prop :=
  ∃ e, filtersActivate env (s.filters.map reselected) = some (.ok e)

structure RoundTrips (env : Env) (s : Settings) : Prop where
  bindings : ∀ c, (restored env s).keyBindings c = s.keyBindings c
  filters : (restored env s).filters.map strings = s.filters.map strings
  active : Resolves env s →
    (restored env s).filters.map FilterEntry.actStat = s.filters.map FilterEntry.actStat

/-- Nothing is lost on the way: no command is empty or begins with a space or a colon, and the
names of the active filters fit into the buffer. -/
structure Protected (env : Env) (s : Settings) : Prop where
  commands : ∀ c, ∀ b ∈ s.keyBindings c, Plain b.cmd
  names : Resolves env s → ShortNames s.filters

theorem restored_eq (h : Saved env s) :
    restored env s =
      runCommand env ⟨fun c => (s.keyBindings c).filterMap readBack, s.filters.map fresh⟩
        (factivateLine s.filters) := by
  have hall : ∀ c, c ∈ contexts := by
    intro c
    cases c <;> decide
  have hkept : Kept env ([] ++ s.filters) := h.kept
  rw [restored, optionsExit, List.foldl_append, List.foldl_append,
    foldl_contexts env h.bound (by decide) fun _ _ => rfl]
  simp only [hall, if_true]
  rw [foldl_fsetLines s.filters hkept]
  rfl

theorem activate_reselected {l : List FilterEntry}
    (hresolves : ∃ e, filtersActivate env (l.map reselected) = some (.ok e)) :
    (activate env {s with filters := l.map reselected} false).filters.map FilterEntry.actStat =
      l.map FilterEntry.actStat := by
  obtain ⟨e, hresolves⟩ := hresolves
  unfold activate
  split
  · rename_i hall
    rw [Bool.not_false, Bool.and_true, List.all_eq_true] at hall
    dsimp only
    rw [List.map_map]
    apply List.map_congr_left
    intro f hf
    exact of_decide_eq_true (hall (reselected f) (List.mem_map_of_mem hf))
  · rw [hresolves]
    dsimp only
    rw [List.map_map, List.map_map]
    rfl

theorem restored_keyBindings (h : Saved env s) (c : Context) :
    (restored env s).keyBindings c = (s.keyBindings c).filterMap readBack := by
  rw [restored_eq h, runCommand_factivateLine h.kept.valid, keyBindings_activateNames]

theorem restored_strings (h : Saved env s) :
    (restored env s).filters.map strings = s.filters.map strings := by
  rw [restored_eq h, runCommand_factivateLine h.kept.valid, strings_activateNames, List.map_map]
  rfl

theorem restored_active (h : Saved env s) (hresolves : Resolves env s) :
    (restored env s).filters.map FilterEntry.actStat = s.filters.map FilterEntry.actStat ↔
      ShortNames s.filters := by
  rw [restored_eq h]
  by_cases hshort : ShortNames s.filters
  · rw [factivate_short h.kept rfl hshort]
    exact iff_of_true (activate_reselected hresolves) hshort
  · -- none is selected, but one was active
    rw [factivate_long h.kept rfl hshort, List.map_map]
    refine iff_of_false (fun heq => hshort fun f hf hstat => ?_) hshort
    exact absurd (List.map_inj_left.mp heq f hf).symm hstat

/-- The next start has the bindings and filters of this one just when nothing of them is lost
on the way. -/
theorem autosave_round_trips (env : Env) (ops : List Op) :
    RoundTrips env (ops.foldl (Settings.step env) empty) ↔
      Protected env (ops.foldl (Settings.step env) empty) := by
  have h : Saved env (ops.foldl (Settings.step env) empty) := Saved.empty.run ops
  generalize ops.foldl (Settings.step env) empty = s at h
  have hbindings : (∀ c, (restored env s).keyBindings c = s.keyBindings c) ↔
      ∀ c, ∀ b ∈ s.keyBindings c, Plain b.cmd := by
    apply forall_congr'
    intro c
    rw [restored_keyBindings h, filterMap_self_iff]
    exact forall₂_congr fun b _ => readBack_self_iff b
  constructor
  · intro hround
    exact ⟨hbindings.mp hround.bindings,
      fun hresolves => (restored_active h hresolves).mp (hround.active hresolves)⟩
  · intro hprotected
    exact ⟨hbindings.mpr hprotected.commands, restored_strings h,
      fun hresolves => (restored_active h hresolves).mpr (hprotected.names hresolves)⟩

/-- Of two colons in front of a command the first is dropped when it is bound, and the second when
it is loaded. -/
theorem autosave_loses_colon :
    ¬ RoundTrips Expr.plainEnv
      ([Op.bind (some (ascii "common a ::quit"))].foldl (Settings.step Expr.plainEnv) empty) := by
  intro h
  have hcommon := h.bindings .common
  revert hcommon
  decide +kernel

end GracefulMusic.Autosave
