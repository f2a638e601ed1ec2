import GracefulMusic.Autosave.Bindings

/-! The filters and the lines they are saved in.

The list is sorted by name, so the `fset` lines put it together again. The `factivate` line
selects all filters or, when one of its names is too long, none. -/
namespace GracefulMusic.Autosave
open Expr (Env exprParse)
open Filters Commands Settings

variable {env : Env} {s : Settings}

/-! ### Names -/

theorem valid_byte : ∀ c : UInt8, (isAlpha c || isDigit c || c = ch '_' || c = ch '-') = true →
    c ≠ ch ' ' ∧ c ≠ ch '=' ∧ c ≠ ch '!' ∧ c ≠ 0 :=
  forall_byte (by decide +kernel)

theorem valid_name {name : Text} (h : validateFilterName name = true) :
    name ≠ [] ∧ ∀ c ∈ name, c ≠ ch ' ' ∧ c ≠ ch '=' ∧ c ≠ ch '!' ∧ c ≠ 0 := by
  rw [validateFilterName, Bool.and_eq_true, List.all_eq_true] at h
  exact ⟨by simpa using h.1, fun c hc => valid_byte c (h.2 c hc)⟩

theorem valid_terminated {name : Text} (h : validateFilterName name = true) : 0 ∉ name :=
  fun hzero => ((valid_name h).2 0 hzero).2.2.2 rfl

theorem valid_spaces {name : Text} (h : validateFilterName name = true) : ch ' ' ∉ name :=
  fun hspace => ((valid_name h).2 _ hspace).1 rfl

/-! ### The list -/

/-- What the `fset` line of a filter holds. -/
def strings (f : FilterEntry) : Text × Text := (f.name, f.filter)

/-- What holds of the list of filters. -/
structure Kept (env : Env) (filters : List FilterEntry) : Prop where
  increasing : filters.Pairwise fun e f => strcmp e.name f.name < 0
  valid : ∀ f ∈ filters, validateFilterName f.name = true
  parses : ∀ f ∈ filters, ∃ e, exprParse env f.filter = .ok e

theorem Kept.sublist {l l' : List FilterEntry} (h : Kept env l) (hsub : l'.Sublist l) :
    Kept env l' :=
  ⟨h.increasing.sublist hsub, fun f hf => h.valid f (hsub.subset hf),
    fun f hf => h.parses f (hsub.subset hf)⟩

theorem Kept.of_strings {l l' : List FilterEntry} (h : Kept env l)
    (hstrings : l'.map strings = l.map strings) : Kept env l' := by
  have hmem : ∀ f ∈ l', ∃ e ∈ l, e.name = f.name ∧ e.filter = f.filter := by
    intro f hf
    have hmem : strings f ∈ l.map strings := hstrings ▸ List.mem_map_of_mem hf
    obtain ⟨e, he, hef⟩ := List.mem_map.mp hmem
    exact ⟨e, he, congrArg Prod.fst hef, congrArg Prod.snd hef⟩
  refine ⟨?_, fun f hf => ?_, fun f hf => ?_⟩
  · have hnames := List.pairwise_map (f := strings) (R := fun a b => strcmp a.1 b.1 < 0) (l := l')
    rw [hstrings, List.pairwise_map] at hnames
    exact hnames.mp h.increasing
  · obtain ⟨e, he, hname, -⟩ := hmem f hf
    exact hname ▸ h.valid e he
  · obtain ⟨e, he, -, hfilter⟩ := hmem f hf
    exact hfilter ▸ h.parses e he

theorem mem_setEntry {new f : FilterEntry} {l : List FilterEntry} (hf : f ∈ setEntry new l) :
    strings f = strings new ∨ f ∈ l := by
  induction l with
  | nil => exact .inl (congrArg strings (List.mem_singleton.mp hf))
  | cons e rest ih =>
    rw [setEntry] at hf
    split at hf
    · rcases List.mem_cons.mp hf with rfl | hf
      · exact .inl rfl
      · exact .inr hf
    split at hf
    · rcases List.mem_cons.mp hf with rfl | hf
      · exact .inl rfl
      · exact .inr (.tail _ hf)
    · rcases List.mem_cons.mp hf with rfl | hf
      · exact .inr (.head _)
      · exact (ih hf).imp_right (.tail _)

theorem Kept.setEntry {new : FilterEntry} {l : List FilterEntry} (h : Kept env l)
    (hvalid : validateFilterName new.name = true)
    (hparses : ∃ e, exprParse env new.filter = .ok e) :
    Kept env (setEntry new l) := by
  refine ⟨?_, fun f hf => ?_, fun f hf => ?_⟩
  · induction l with
    | nil => exact List.pairwise_singleton _ _
    | cons e rest ih =>
      obtain ⟨he, hrest⟩ := List.pairwise_cons.mp h.increasing
      have hevalid := h.valid e (.head _)
      rw [Settings.setEntry]
      split
      · rename_i hlt
        refine List.pairwise_cons.mpr ⟨fun f hf => ?_, h.increasing⟩
        rcases List.mem_cons.mp hf with rfl | hf
        · exact hlt
        · exact strcmp_lt_trans (valid_terminated hvalid) (valid_terminated hevalid)
            (valid_terminated (h.valid f (.tail _ hf))) hlt (he f hf)
      rename_i hge
      split
      · rename_i heq
        have hname := (strcmp_eq_zero (valid_terminated hvalid) (valid_terminated hevalid)).mp heq
        refine List.pairwise_cons.mpr ⟨fun f hf => ?_, hrest⟩
        show strcmp new.name f.name < 0
        rw [hname]
        exact he f hf
      · rename_i hne
        refine List.pairwise_cons.mpr ⟨fun f hf => ?_,
          ih (h.sublist (List.sublist_cons_self e rest))⟩
        rcases mem_setEntry hf with hf | hf
        · have hname : f.name = new.name := congrArg Prod.fst hf
          have hswap := strcmp_swap new.name e.name
          rw [hname]
          omega
        · exact he f hf
  · rcases mem_setEntry hf with hf | hf
    · have hname : f.name = new.name := congrArg Prod.fst hf
      exact hname ▸ hvalid
    · exact h.valid f hf
  · rcases mem_setEntry hf with hf | hf
    · have hfilter : f.filter = new.filter := congrArg Prod.snd hf
      exact hfilter ▸ hparses
    · exact h.parses f hf

/-- A name behind all others goes to the end. -/
theorem setEntry_last {new : FilterEntry} {l : List FilterEntry}
    (hlast : ∀ f ∈ l, strcmp f.name new.name < 0) : setEntry new l = l ++ [new] := by
  induction l with
  | nil => rfl
  | cons e rest ih =>
    have hswap := strcmp_swap e.name new.name
    have he := hlast e (.head _)
    rw [Settings.setEntry, if_neg (by omega), if_neg (by omega),
      ih fun f hf => hlast f (.tail _ hf)]
    rfl

/-! ### Operations on filters -/

theorem strings_select (name : Text) (stat : Stat) (l : List FilterEntry) :
    (select name stat l).map strings = l.map strings := by
  induction l with
  | nil => rfl
  | cons e rest ih =>
    rw [select]
    split
    · rfl
    · rw [List.map_cons, ih, List.map_cons]

theorem strings_forEachName {fuel : Nat} {str : Text} {l l' : List FilterEntry}
    (h : forEachName selectFilter fuel str l = some l') : l'.map strings = l.map strings := by
  induction fuel generalizing str l with
  | zero => rw [← Option.some.inj h]
  | succ fuel ih =>
    obtain ⟨name, stat, rest, hstep⟩ : ∃ name stat rest, forEachName selectFilter (fuel + 1) str l =
        if name = [] then some l
        else if 64 ≤ name.length then none
        else (selectFilter name stat l).bind fun l => forEachName selectFilter fuel rest l :=
      ⟨_, _, _, rfl⟩
    rw [hstep] at h
    split at h
    · rw [← Option.some.inj h]
    split at h
    · cases h
    · rw [selectFilter, Option.bind_some] at h
      rw [ih h, strings_select]

theorem strings_activate (winActivate : Bool) :
    (activate env s winActivate).filters.map strings = s.filters.map strings := by
  unfold activate
  split
  · rfl
  split
  · show (s.filters.map fun f => {f with actStat := f.selStat}).map strings = _
    rw [List.map_map]
    rfl
  · rfl

theorem strings_activateNames (str : Option Text) :
    (filtersActivateNames env s str).filters.map strings = s.filters.map strings := by
  have hunselected : (s.filters.map fun f => {f with selStat := .ignore}).map strings =
      s.filters.map strings := by
    rw [List.map_map]
    rfl
  unfold filtersActivateNames
  dsimp only
  split
  · rw [strings_activate]
    exact hunselected
  split
  · rfl
  split
  · rfl
  · rename_i filters hselect
    rw [strings_activate]
    exact (strings_forEachName hselect).trans hunselected

theorem filtersSetFilter_equals {name : Text} (val : Text) (hname : ch '=' ∉ name) :
    filtersSetFilter env s (name ++ ch '=' :: val) =
      if validateFilterName name then
        match exprParse env val with
        | .error _ => s
        | .ok _ => {s with filters := setEntry { name := name, filter := val } s.filters}
      else s := by
  have htake := Sequence.takeWhile_split val hname
  have hdrop := Sequence.dropWhile_split val hname
  rw [filtersSetFilter, if_pos (List.mem_append_right _ (.head _))]
  by_cases hvalid : validateFilterName name = true
  · cases hparse : exprParse env val with
    | error e => simp only [htake, hdrop, List.tail_cons, hvalid, hparse]
    | ok e => simp only [htake, hdrop, List.tail_cons, hvalid, hparse]
  · simp only [htake, hdrop, List.tail_cons, hvalid, if_neg Bool.false_ne_true]

theorem Kept.setFilter (h : Kept env s.filters) (keyval : Text) :
    Kept env (filtersSetFilter env s keyval).filters := by
  unfold filtersSetFilter
  dsimp only
  split
  · split
    · rename_i hvalid
      split
      · exact h
      · rename_i e hparse
        exact h.setEntry hvalid ⟨e, hparse⟩
    · exact h
  · exact h

theorem strings_toggle (row : Nat) :
    (s.filtersToggleFilter row).filters.map strings = s.filters.map strings := by
  show (s.filters.modify row _).map strings = s.filters.map strings
  generalize s.filters = l
  induction l generalizing row with
  | nil => cases row <;> rfl
  | cons f l ih =>
    cases row with
    | zero => rfl
    | succ row =>
      rw [List.modify_succ_cons, List.map_cons, ih, List.map_cons]

/-! ### Reading back -/

/-- A filter as its `fset` line sets it. -/
def fresh (f : FilterEntry) : FilterEntry := { name := f.name, filter := f.filter }

theorem runCommand_fsetLine {f : FilterEntry} (hvalid : validateFilterName f.name = true)
    (hparses : ∃ e, exprParse env f.filter = .ok e) :
    runCommand env s (fsetLine f) = {s with filters := setEntry (fresh f) s.filters} := by
  obtain ⟨e, hparse⟩ := hparses
  obtain ⟨hname, hbytes⟩ := valid_name hvalid
  have hline : fsetLine f = ascii "fset" ++ ch ' ' :: (f.name ++ ch '=' :: f.filter) := by
    have hfset : ascii "fset " = ascii "fset" ++ [ch ' '] := by decide
    rw [fsetLine, hfset]
    simp
  have hargs : skipSpaces (f.name ++ ch '=' :: f.filter) = f.name ++ ch '=' :: f.filter := by
    apply skipSpaces_of_head
    rw [head_append hname]
    exact head_ne_space (valid_spaces hvalid)
  have hcommand : parseCommand (fsetLine f) =
      some (ascii "fset", some (f.name ++ ch '=' :: f.filter)) := by
    rw [hline, parseCommand_word _ (by decide) (by decide) (by decide), hargs, if_neg (by simp)]
  have hequals : ch '=' ∉ f.name := fun hmem => (hbytes _ hmem).2.1 rfl
  have hrun : runCommand env s (fsetLine f) =
      filtersSetFilter env s (f.name ++ ch '=' :: f.filter) := by
    unfold runCommand
    rw [hcommand]
    rfl
  rw [hrun, filtersSetFilter_equals _ hequals, if_pos hvalid, hparse]
  rfl

theorem foldl_fsetLines (l : List FilterEntry) (h : Kept env (s.filters ++ l)) :
    (l.map fsetLine).foldl (runCommand env) s = {s with filters := s.filters ++ l.map fresh} := by
  induction l generalizing s with
  | nil => rw [List.map_nil, List.map_nil, List.foldl_nil, List.append_nil]
  | cons f l ih =>
    have hmem : f ∈ s.filters ++ f :: l := List.mem_append_right _ (.head _)
    have hlast : setEntry (fresh f) s.filters = s.filters ++ [fresh f] :=
      setEntry_last fun e he => (List.pairwise_append.mp h.increasing).2.2 e he f (.head _)
    have hkept : Kept env ((s.filters ++ [fresh f]) ++ l) := by
      apply h.of_strings
      rw [List.append_assoc, List.map_append, List.map_append, List.map_append]
      rfl
    rw [List.map_cons, List.foldl_cons, runCommand_fsetLine (h.valid f hmem) (h.parses f hmem),
      hlast, ih hkept, List.append_assoc, List.singleton_append, List.map_cons]

/-- A step of the loop over the names of a `factivate` line. -/
def nameStep {σ : Type} (cb : Text → Stat → σ → Option σ) (st : σ) (f : FilterEntry) : Option σ :=
  if f.actStat = .ignore then some st
  else if 64 ≤ f.name.length then none
  else cb f.name f.actStat st

theorem forEachName_space {σ : Type} (cb : Text → Stat → σ → Option σ) (fuel : Nat) (str : Text)
    (st : σ) : forEachName cb fuel (ch ' ' :: str) st = forEachName cb fuel str st := by
  cases fuel with
  | zero => rfl
  | succ fuel => rw [forEachName, forEachName, skipSpaces_space]

theorem forEachName_skipSpaces {σ : Type} (cb : Text → Stat → σ → Option σ) (fuel : Nat)
    (str : Text) (st : σ) :
    forEachName cb fuel (skipSpaces str) st = forEachName cb fuel str st := by
  cases fuel with
  | zero => rfl
  | succ fuel => rw [forEachName, forEachName, skipSpaces_of_head (skipSpaces_head str)]

/-- What comes behind a name in the line. -/
def Ends (rest : Text) : Prop := rest = [] ∨ rest.head? = some (ch ' ')

theorem takeWhile_ends {name rest : Text} (hname : ch ' ' ∉ name) (hrest : Ends rest) :
    (name ++ rest).takeWhile (· ≠ ch ' ') = name := by
  rcases hrest with rfl | hrest
  · rw [List.append_nil, List.takeWhile_eq_self_iff]
    intro c hc
    simpa using fun heq : c = ch ' ' => hname (heq ▸ hc)
  · obtain ⟨rest, rfl⟩ := List.head?_eq_some_iff.mp hrest
    exact Sequence.takeWhile_split rest hname

theorem forEachName_name {σ : Type} (cb : Text → Stat → σ → Option σ) (fuel : Nat)
    {name rest : Text} (hvalid : validateFilterName name = true) (hrest : Ends rest) (st : σ) :
    forEachName cb (fuel + 1) (name ++ rest) st =
      if 64 ≤ name.length then none
      else (cb name .yes st).bind fun st => forEachName cb fuel rest st := by
  obtain ⟨hne, hbytes⟩ := valid_name hvalid
  have hskip : skipSpaces (name ++ rest) = name ++ rest := by
    apply skipSpaces_of_head
    rw [head_append hne]
    exact head_ne_space (valid_spaces hvalid)
  have hbang : (name ++ rest).head? ≠ some (ch '!') := by
    rw [head_append hne]
    exact fun h => (hbytes _ (List.mem_of_mem_head? h)).2.2.1 rfl
  rw [forEachName]
  simp only [hskip, if_neg hbang, takeWhile_ends (valid_spaces hvalid) hrest, if_neg hne,
    List.drop_left]

theorem forEachName_bang {σ : Type} (cb : Text → Stat → σ → Option σ) (fuel : Nat)
    {name rest : Text} (hvalid : validateFilterName name = true) (hrest : Ends rest) (st : σ) :
    forEachName cb (fuel + 1) (ch '!' :: (name ++ rest)) st =
      if 64 ≤ name.length then none
      else (cb name .no st).bind fun st => forEachName cb fuel rest st := by
  have hskip : skipSpaces (ch '!' :: (name ++ rest)) = ch '!' :: (name ++ rest) :=
    skipSpaces_of_head (by simp only [List.head?_cons]; decide)
  rw [forEachName]
  simp only [hskip, List.head?_cons, if_true, List.tail_cons,
    takeWhile_ends (valid_spaces hvalid) hrest, if_neg (valid_name hvalid).1, List.drop_left]

theorem ends_names (l : List FilterEntry) : Ends (l.flatMap factivateName) := by
  induction l with
  | nil => exact .inl rfl
  | cons f l ih =>
    rw [List.flatMap_cons, factivateName.eq_def]
    cases f.actStat
    · exact ih
    · exact .inr rfl
    · exact .inr (by rfl)

/-- The loop over a `factivate` line does one step for each filter. -/
theorem forEachName_names {σ : Type} (cb : Text → Stat → σ → Option σ) {l : List FilterEntry}
    (hvalid : ∀ f ∈ l, validateFilterName f.name = true) {fuel : Nat}
    (hfuel : (l.flatMap factivateName).length ≤ fuel) (st : σ) :
    forEachName cb fuel (l.flatMap factivateName) st = l.foldlM (nameStep cb) st := by
  induction l generalizing fuel st with
  | nil =>
    cases fuel <;> rfl
  | cons f l ih =>
    have hf := hvalid f (.head _)
    have ih : ∀ {n : Nat}, (l.flatMap factivateName).length ≤ n → ∀ st,
        forEachName cb n (l.flatMap factivateName) st = l.foldlM (nameStep cb) st :=
      fun hn st => ih (fun e he => hvalid e (.tail _ he)) hn st
    rw [List.flatMap_cons] at hfuel ⊢
    rw [List.foldlM_cons, nameStep]
    cases hstat : f.actStat with
    | ignore =>
      have hname : factivateName f = [] := by rw [factivateName.eq_def, hstat]
      rw [hname, List.nil_append] at hfuel ⊢
      exact ih hfuel st
    | yes =>
      have hname : factivateName f = ch ' ' :: f.name := by rw [factivateName.eq_def, hstat]
      rw [hname] at hfuel ⊢
      simp only [List.cons_append, List.length_cons, List.length_append] at hfuel
      obtain ⟨fuel, rfl⟩ : ∃ n, fuel = n + 1 := ⟨fuel - 1, by omega⟩
      have hactive : Stat.yes ≠ .ignore := by decide
      rw [List.cons_append, forEachName_space, forEachName_name cb fuel hf (ends_names l),
        if_neg hactive]
      split
      · rfl
      · apply congrArg
        funext st
        exact ih (by omega) st
    | no =>
      have hname : factivateName f = ch ' ' :: ch '!' :: f.name := by
        rw [factivateName.eq_def, hstat]
        rfl
      rw [hname] at hfuel ⊢
      simp only [List.cons_append, List.length_cons, List.length_append] at hfuel
      obtain ⟨fuel, rfl⟩ : ∃ n, fuel = n + 1 := ⟨fuel - 1, by omega⟩
      have hactive : Stat.no ≠ .ignore := by decide
      rw [List.cons_append, forEachName_space, List.cons_append,
        forEachName_bang cb fuel hf (ends_names l), if_neg hactive]
      split
      · rfl
      · apply congrArg
        funext st
        exact ih (by omega) st

end GracefulMusic.Autosave
