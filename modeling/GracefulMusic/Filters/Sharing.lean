import GracefulMusic.Filters.Recursion

/-! The check for recursion against the graph of references. -/
namespace GracefulMusic.Filters
open GracefulMusic.Expr

section
variable {env : Env} {filters : List FilterEntry}

/-! ### References -/

theorem Reaches.mono {a b : Expr} (hrefs : refs a ⊆ refs b) {name : Text}
    (h : Reaches env filters a name) : Reaches env filters b name := by
  induction h with
  | direct h => exact .direct (hrefs h)
  | step _ hd hnext ih => exact .step ih hd hnext

theorem Reaches.of_append {e l r : Expr} (hrefs : refs e = refs l ++ refs r) {name : Text}
    (h : Reaches env filters e name) :
    Reaches env filters l name ∨ Reaches env filters r name := by
  induction h with
  | direct h =>
    rw [hrefs] at h
    exact (List.mem_append.mp h).imp .direct .direct
  | step _ hd hnext ih => exact ih.imp (.step · hd hnext) (.step · hd hnext)

theorem Reaches.leaf {e : Expr} {type : KeyType} (htype : leafType e = some type)
    (hkey : lookupKeyType (leafKey e) = some type) {name : Text} :
    ¬ Reaches env filters e name := by
  intro h
  induction h with
  | direct h => cases e <;> simp_all [refs, leafKey, leafType]
  | step _ _ _ ih => exact ih

theorem Reaches.filter_iff {key : Text} (hkey : lookupKeyType key = none) {d : Expr}
    (hd : definition env filters key = some d) {name : Text} :
    Reaches env filters (.bool key) name ↔ name = key ∨ Reaches env filters d name := by
  have hrefs : refs (.bool key) = [key] := by rw [refs, if_pos hkey]
  constructor
  · intro h
    induction h with
    | direct h =>
      rw [hrefs] at h
      exact .inl (List.mem_singleton.mp h)
    | step _ hd' hnext ih =>
      rcases ih with rfl | ih
      · cases hd.symm.trans hd'
        exact .inr (.direct hnext)
      · exact .inr (.step ih hd' hnext)
  · rintro (rfl | h)
    · exact .direct (by rw [hrefs]; exact .head _)
    · induction h with
      | direct h => exact .step (.direct (by rw [hrefs]; exact .head _)) hd h
      | step _ hd hnext ih => exact .step ih hd hnext

/-- What has an expansion does not run in circles. -/
theorem Expands.not_cyclic {e x : Expr} (h : Expands env filters e x) :
    ¬ Cyclic env filters e := by
  induction h with
  | and _ _ ihl ihr =>
    intro h
    obtain ⟨name, d, hreach, hback⟩ := h
    rcases Reaches.of_append rfl hreach with hreach | hreach
    · exact ihl ⟨name, d, hreach, hback⟩
    · exact ihr ⟨name, d, hreach, hback⟩
  | or _ _ ihl ihr =>
    intro h
    obtain ⟨name, d, hreach, hback⟩ := h
    rcases Reaches.of_append rfl hreach with hreach | hreach
    · exact ihl ⟨name, d, hreach, hback⟩
    · exact ihr ⟨name, d, hreach, hback⟩
  | @not l _ _ ih =>
    intro h
    obtain ⟨name, d, hreach, hback⟩ := h
    have hrefs : refs (.not l) ⊆ refs l := List.Subset.refl _
    exact ih ⟨name, d, hreach.mono hrefs, hback⟩
  | leaf htype hkey =>
    intro h
    obtain ⟨name, d, hreach, -⟩ := h
    exact Reaches.leaf htype hkey hreach
  | filter hkey hd _ ih =>
    intro h
    obtain ⟨name, d', hreach, hd', hback⟩ := h
    rcases (Reaches.filter_iff hkey hd).mp hreach with rfl | hreach
    · cases hd.symm.trans hd'
      exact ih ⟨name, _, hback, hd', hback⟩
    · exact ih ⟨name, d', hreach, hd', hback⟩

theorem Expands.unique {e x y : Expr} (hx : Expands env filters e x)
    (hy : Expands env filters e y) : x = y := by
  induction hx generalizing y with
  | and _ _ ihl ihr =>
    cases hy with
    | and hl hr => rw [ihl hl, ihr hr]
    | leaf htype _ => cases htype
  | or _ _ ihl ihr =>
    cases hy with
    | or hl hr => rw [ihl hl, ihr hr]
    | leaf htype _ => cases htype
  | not _ ih =>
    cases hy with
    | not hl => rw [ih hl]
    | leaf htype _ => cases htype
  | leaf htype hkey =>
    cases hy with
    | and _ _ => cases htype
    | or _ _ => cases htype
    | not _ => cases htype
    | leaf _ _ => rfl
    | filter hname _ _ => cases hkey.symm.trans hname
  | filter hname hd _ ih =>
    cases hy with
    | leaf _ hkey => cases hname.symm.trans hkey
    | filter _ hd' he =>
      cases hd.symm.trans hd'
      exact ih he

/-! ### Nothing is wrong where all names are defined -/

theorem AllDefined.mono {a b : Expr} (hrefs : refs a ⊆ refs b)
    (hleaves : leavesOk b = true → leavesOk a = true) (h : AllDefined env filters b) :
    AllDefined env filters a :=
  ⟨hleaves h.1, fun name hreach => h.2 name (hreach.mono hrefs)⟩

theorem eq_bool_of_leafType {e : Expr} (h : leafType e = some .bool) : e = .bool (leafKey e) := by
  cases e <;> first | rfl | cases h

theorem definition_eq_some {name : Text} {d : Expr} (h : definition env filters name = some d) :
    ∃ entry, findFilter filters name = some entry ∧ exprParse env entry.filter = .ok d := by
  obtain ⟨entry, hentry, hparse⟩ := Option.bind_eq_some_iff.mp h
  refine ⟨entry, hentry, ?_⟩
  cases hp : exprParse env entry.filter with
  | error msg => rw [hp] at hparse; cases hparse
  | ok x =>
    rw [hp] at hparse
    exact congrArg Except.ok (Option.some.inj hparse)

theorem definition_of_parse {name : Text} {entry : FilterEntry} {d : Expr}
    (hentry : findFilter filters name = some entry) (hparse : exprParse env entry.filter = .ok d) :
    definition env filters name = some d := by
  rw [definition, hentry, Option.bind_some, hparse]
  rfl

theorem wrong_not_mem_leafEvents {again : Expr → List Event}
    (hagain : ∀ d, AllDefined env filters d → .wrong ∉ again d) {e : Expr}
    (hleaf : leafOk e = true) (h : AllDefined env filters e) :
    .wrong ∉ leafEvents env filters again e := by
  rw [leafEvents, if_pos hleaf]
  by_cases hkey : lookupKeyType (leafKey e) = none
  · rw [if_pos hkey]
    have htype : leafType e = some .bool := by simpa [leafOk, hkey] using hleaf
    have hrefs : leafKey e ∈ refs e := by
      rw [eq_bool_of_leafType htype, refs, leafKey, if_pos hkey]
      exact .head _
    obtain ⟨d, hd, hok⟩ := h.2 _ (.direct hrefs)
    obtain ⟨entry, hentry, hparse⟩ := definition_eq_some hd
    have hall : AllDefined env filters d := by
      refine ⟨hok, fun name hreach => h.2 name ?_⟩
      rw [eq_bool_of_leafType htype]
      exact (Reaches.filter_iff hkey hd).mpr (.inr hreach)
    simpa [hentry, hparse] using hagain d hall
  · rw [if_neg hkey]
    exact List.not_mem_nil

theorem wrong_not_mem_events (depth : Nat) (e : Expr) (h : AllDefined env filters e) :
    .wrong ∉ events env filters depth e := by
  induction depth generalizing e with
  | zero => exact List.not_mem_nil
  | succ depth ihdepth =>
    show .wrong ∉ treeEvents (leafEvents env filters (events env filters depth)) e
    induction e with
    | and l r ihl ihr =>
      have hok : leavesOk (.and l r) = true → leavesOk l = true ∧ leavesOk r = true := by
        simp [leavesOk]
      rw [treeEvents, List.mem_append, not_or]
      exact ⟨ihl (h.mono (List.subset_append_left _ _) fun h => (hok h).1),
        ihr (h.mono (List.subset_append_right _ _) fun h => (hok h).2)⟩
    | or l r ihl ihr =>
      have hok : leavesOk (.or l r) = true → leavesOk l = true ∧ leavesOk r = true := by
        simp [leavesOk]
      rw [treeEvents, List.mem_append, not_or]
      exact ⟨ihl (h.mono (List.subset_append_left _ _) fun h => (hok h).1),
        ihr (h.mono (List.subset_append_right _ _) fun h => (hok h).2)⟩
    | not l ih =>
      have hrefs : refs l ⊆ refs (.not l) := List.Subset.refl _
      exact ih (h.mono hrefs id)
    | str | int | id | bool => exact wrong_not_mem_leafEvents ihdepth h.1 h

/-! ### The check and the events -/

/-- The number of filters that can still be followed. -/
def unvisited (filters : List FilterEntry) (visited : List Text) : Nat :=
  filters.countP fun f => f.name ∉ visited

theorem unvisited_le {a b : List Text} (h : a ⊆ b) : unvisited filters b ≤ unvisited filters a :=
  List.countP_mono_left fun f _ hf => by
    simp only [decide_eq_true_eq] at hf ⊢
    exact fun hmem => hf (h hmem)

theorem findFilter_eq_some {name : Text} {entry : FilterEntry}
    (h : findFilter filters name = some entry) : entry ∈ filters ∧ entry.name = name :=
  ⟨List.mem_of_find?_eq_some h, by simpa using List.find?_some h⟩

theorem unvisited_lt {name : Text} {entry : FilterEntry} {visited : List Text}
    (h : findFilter filters name = some entry) (hnew : name ∉ visited) :
    unvisited filters (name :: visited) < unvisited filters visited := by
  obtain ⟨hmem, rfl⟩ := findFilter_eq_some h
  obtain ⟨a, b, rfl⟩ := List.append_of_mem hmem
  have ha : unvisited a (entry.name :: visited) ≤ unvisited a visited :=
    unvisited_le (List.subset_cons_self _ _)
  have hb : unvisited b (entry.name :: visited) ≤ unvisited b visited :=
    unvisited_le (List.subset_cons_self _ _)
  unfold unvisited at ha hb ⊢
  rw [List.countP_append, List.countP_append, List.countP_cons_of_neg (by simp),
    List.countP_cons_of_pos (by simpa using hnew)]
  omega

/-- The check of `e` ends as the walk does. -/
inductive Agrees (env : Env) (filters : List FilterEntry) (e : Expr) (st : FilterState) :
    Outcome → Checked → Prop
  | done {after : List Text} {x : Expr} (h : Expands env filters e x) :
    Agrees env filters e st (.done after) (some (.ok x, {st with visited := after}))
  | wrong {msg : Text} {st' : FilterState} (h : st'.recursiveFilter = st.recursiveFilter) :
    Agrees env filters e st .wrong (some (.error msg, st'))
  | repeated {msg name : Text} {st' : FilterState} (h : st'.recursiveFilter = some name) :
    Agrees env filters e st (.repeated name) (some (.error msg, st'))

/-- Agreement does not depend on what was marked before. -/
theorem Agrees.of_expands {e e' : Expr} {st st' : FilterState}
    (hst : st'.recursiveFilter = st.recursiveFilter) {outcome : Outcome} {checked : Checked}
    (h : Agrees env filters e' st' outcome checked)
    (hexpands : ∀ x, Expands env filters e' x → Expands env filters e x) :
    Agrees env filters e st outcome checked := by
  cases h with
  | done h =>
    rw [hst]
    exact .done (hexpands _ h)
  | wrong h => exact .wrong (h.trans hst)
  | repeated h => exact .repeated h

theorem checkLeaf_agrees {again : Expr → FilterState → Checked} {evs : Expr → List Event} {n : Nat}
    (hagain : ∀ d st, unvisited filters st.visited < n →
      Agrees env filters d st (scan st.visited (evs d)) (again d st))
    (e : Expr) (st : FilterState) (hst : unvisited filters st.visited < n + 1) :
    Agrees env filters e st (scan st.visited (leafEvents env filters evs e))
      (checkLeaf env filters again e st) := by
  rw [leafEvents, checkLeaf, leafOk]
  cases hkey : lookupKeyType (leafKey e) with
  | some type =>
    by_cases htype : leafType e = some type
    · simp only [htype, ne_eq, not_true, if_false, decide_true, if_true, reduceCtorEq]
      exact .done (.leaf htype hkey)
    · simp only [htype, ne_eq, not_false_eq_true, if_true, decide_false, Bool.false_eq_true,
        if_false]
      exact .wrong rfl
  | none =>
    by_cases htype : leafType e = some .bool
    · simp only [htype, ne_eq, not_true, if_false, decide_true, if_true]
      rw [getFilter]
      cases hentry : findFilter filters (leafKey e) with
      | none => exact .wrong rfl
      | some entry =>
        obtain ⟨-, hname⟩ := findFilter_eq_some hentry
        simp only [hname, scan]
        by_cases hseen : leafKey e ∈ st.visited
        · rw [if_pos hseen, if_pos hseen]
          exact .repeated rfl
        · rw [if_neg hseen, if_neg hseen]
          cases hparse : exprParse env entry.filter with
          | error msg =>
            simp only [hparse]
            exact .wrong rfl
          | ok d =>
            simp only [hparse]
            have hless := unvisited_lt hentry hseen
            have h := hagain d {st with visited := leafKey e :: st.visited}
              (show unvisited filters (leafKey e :: st.visited) < n by omega)
            refine Agrees.of_expands ?_ h fun x hx => ?_
            · rfl
            · rw [eq_bool_of_leafType htype]
              exact .filter hkey (definition_of_parse hentry hparse) hx
    · simp only [htype, ne_eq, not_false_eq_true, if_true, decide_false, Bool.false_eq_true,
        if_false]
      exact .wrong rfl

theorem checkTree_agrees {leaf : Expr → FilterState → Checked} {evs : Expr → List Event} {n : Nat}
    (hleaf : ∀ e st, unvisited filters st.visited < n →
      Agrees env filters e st (scan st.visited (evs e)) (leaf e st))
    (e : Expr) (st : FilterState) (hst : unvisited filters st.visited < n) :
    Agrees env filters e st (scan st.visited (treeEvents evs e)) (checkTree leaf e st) := by
  induction e generalizing st with
  | and l r ihl ihr =>
    rw [treeEvents, scan_append, checkTree]
    have hl := ihl st hst
    generalize hout : scan st.visited (treeEvents evs l) = out at hl ⊢
    generalize checkTree leaf l st = checked at hl ⊢
    cases hl with
    | @done after x hx =>
      have hafter : unvisited filters after < n :=
        Nat.lt_of_le_of_lt (unvisited_le (scan_done_subset _ _ _ hout)) hst
      have hr := ihr {st with visited := after} hafter
      simp only
      generalize scan after (treeEvents evs r) = out at hr ⊢
      generalize checkTree leaf r {st with visited := after} = checked at hr ⊢
      cases hr with
      | done hy => exact .done (.and hx hy)
      | wrong h => exact .wrong h
      | repeated h => exact .repeated h
    | wrong h => exact .wrong h
    | repeated h => exact .repeated h
  | or l r ihl ihr =>
    rw [treeEvents, scan_append, checkTree]
    have hl := ihl st hst
    generalize hout : scan st.visited (treeEvents evs l) = out at hl ⊢
    generalize checkTree leaf l st = checked at hl ⊢
    cases hl with
    | @done after x hx =>
      have hafter : unvisited filters after < n :=
        Nat.lt_of_le_of_lt (unvisited_le (scan_done_subset _ _ _ hout)) hst
      have hr := ihr {st with visited := after} hafter
      simp only
      generalize scan after (treeEvents evs r) = out at hr ⊢
      generalize checkTree leaf r {st with visited := after} = checked at hr ⊢
      cases hr with
      | done hy => exact .done (.or hx hy)
      | wrong h => exact .wrong h
      | repeated h => exact .repeated h
    | wrong h => exact .wrong h
    | repeated h => exact .repeated h
  | not l ih =>
    rw [treeEvents, checkTree]
    have hl := ih st hst
    generalize scan st.visited (treeEvents evs l) = out at hl ⊢
    generalize checkTree leaf l st = checked at hl ⊢
    cases hl with
    | done hx => exact .done (.not hx)
    | wrong h => exact .wrong h
    | repeated h => exact .repeated h
  | str | int | id | bool => exact hleaf _ st hst

theorem exprCheckLeavesFuel_agrees (fuel : Nat) (e : Expr) (st : FilterState)
    (hst : unvisited filters st.visited < fuel) :
    Agrees env filters e st (scan st.visited (events env filters fuel e))
      (exprCheckLeavesFuel env filters fuel e st) := by
  induction fuel generalizing e st with
  | zero => exact absurd hst (Nat.not_lt_zero _)
  | succ fuel ih => exact checkTree_agrees (checkLeaf_agrees ih) e st hst

end

/-- The events of an expression to the depth that the filters can nest. -/
def unfolding (env : Env) (filters : List FilterEntry) (e : Expr) : List Event :=
  events env filters (filters.length + 1) e

theorem exprCheckLeaves_agrees (env : Env) (filters : List FilterEntry) (e : Expr)
    (st : FilterState) :
    Agrees env filters e st (scan st.visited (unfolding env filters e))
      (exprCheckLeaves env filters e st) :=
  exprCheckLeavesFuel_agrees _ e st (Nat.lt_succ_of_le List.countP_le_length)

/-- The check ends, it reports a recursion for the cyclic expressions and no others, and
an acyclic one whose names are all defined becomes its expansion. -/
def ChecksReferences (env : Env) (filters : List FilterEntry) (marked : List Text) (e : Expr) :
    Prop :=
  ∃ r st, exprCheckLeaves env filters e ⟨marked, none⟩ = some (r, st) ∧
    ((∃ msg, r = .error msg) ∧ st.recursiveFilter ≠ none ↔ Cyclic env filters e) ∧
    (AllDefined env filters e → ¬ Cyclic env filters e →
      ∃ x, r = .ok x ∧ Expands env filters e x ∧
        ∀ y, Expands env filters e y → ∀ ti, x.eval env ti = y.eval env ti)

/-- **Recursion in user filters**, for any filters, expression and marks: the check ends,
and it takes for recursions exactly the cycles, where no reference is repeated in an
acyclic expression, and nothing is wrong before the first repeated one in a cyclic one. -/
theorem expr_check_leaves_references (env : Env) (filters : List FilterEntry)
    (marked : List Text) (e : Expr) :
    (exprCheckLeaves env filters e ⟨marked, none⟩ ≠ none) ∧
      (ChecksReferences env filters marked e ↔
        (¬ Cyclic env filters e ∧ ¬ RepeatsFirst marked (unfolding env filters e)) ∨
        (Cyclic env filters e ∧ ¬ WrongFirst marked (unfolding env filters e))) := by
  have h := exprCheckLeaves_agrees env filters e ⟨marked, none⟩
  have hwrong : scan marked (unfolding env filters e) = .wrong → ¬ AllDefined env filters e := by
    intro hscan hall
    obtain ⟨before, rest, heq, -⟩ := (wrongFirst_iff _ _).mpr hscan
    refine wrong_not_mem_events _ e hall (?_ : .wrong ∈ unfolding env filters e)
    rw [heq]
    exact List.mem_append_right _ (.head _)
  rw [repeatsFirst_iff, wrongFirst_iff]
  unfold ChecksReferences
  generalize scan marked (unfolding env filters e) = out at h hwrong ⊢
  generalize exprCheckLeaves env filters e ⟨marked, none⟩ = checked at h ⊢
  cases h with
  | @done after x hx =>
    refine ⟨nofun, iff_of_true ⟨_, _, rfl, ?_, fun _ _ => ⟨x, rfl, hx, fun y hy ti => ?_⟩⟩ ?_⟩
    · exact iff_of_false nofun hx.not_cyclic
    · rw [hx.unique hy]
    · exact .inl ⟨hx.not_cyclic, nofun⟩
  | @wrong msg st' hst =>
    refine ⟨nofun, ?_, ?_⟩
    · intro h
      obtain ⟨r, st, heq, hcyclic, -⟩ := h
      cases heq
      exact .inl ⟨fun h => (hcyclic.mpr h).2 hst, nofun⟩
    · rintro (⟨hacyclic, -⟩ | ⟨-, h⟩)
      · refine ⟨_, _, rfl, iff_of_false (fun h => h.2 hst) hacyclic, fun hall => ?_⟩
        exact absurd hall (hwrong rfl)
      · exact absurd rfl h
  | @repeated msg name st' hst =>
    have hfails : (∃ m, (Except.error msg : Except Text Expr) = .error m) ∧
        st'.recursiveFilter ≠ none := ⟨⟨msg, rfl⟩, by rw [hst]; exact nofun⟩
    refine ⟨nofun, ?_, ?_⟩
    · intro h
      obtain ⟨r, st, heq, hcyclic, -⟩ := h
      cases heq
      exact .inr ⟨hcyclic.mp hfails, nofun⟩
    · rintro (⟨-, h⟩ | ⟨hcyclic, -⟩)
      · exact absurd ⟨name, rfl⟩ h
      · exact ⟨_, _, rfl, iff_of_true hfails hcyclic, fun _ h => absurd hcyclic h⟩

/-- `x|x` for `x = stream`: a filter that is used twice. -/
theorem repeated_filter_no_recursion :
    let filters : List FilterEntry := [{ name := ascii "x", filter := ascii "stream" }]
    let e : Expr := .or (.bool (ascii "x")) (.bool (ascii "x"))
    exprParse plainEnv (ascii "x|x") = .ok e ∧ AllDefined plainEnv filters e ∧
      ¬ Cyclic plainEnv filters e ∧ ¬ ChecksReferences plainEnv filters [] e ∧
      parseFilter plainEnv filters (some (ascii "x|x")) =
        some (.error (ascii "recursion detected in filter x")) := by
  intro filters e
  have hkey : lookupKeyType (ascii "x") = none := by decide
  have hd : definition plainEnv filters (ascii "x") = some (.bool (ascii "stream")) := by decide
  have hx : Expands plainEnv filters (.bool (ascii "x")) (.bool (ascii "stream")) :=
    .filter hkey hd (.leaf rfl (by decide))
  have hacyclic : ¬ Cyclic plainEnv filters e := (Expands.or hx hx).not_cyclic
  refine ⟨by decide, ⟨by decide, fun name hreach => ?_⟩, hacyclic, ?_, by decide⟩
  · have hname : Reaches plainEnv filters (.bool (ascii "x")) name :=
      (Reaches.of_append rfl hreach).elim id id
    rcases (Reaches.filter_iff hkey hd).mp hname with rfl | hname
    · exact ⟨_, hd, by decide⟩
    · exact absurd hname (Reaches.leaf rfl (by decide))
  · intro h
    obtain ⟨r, st, heq, hcyclic, -⟩ := h
    refine hacyclic (hcyclic.mp ?_)
    have hcheck : exprCheckLeaves plainEnv filters e ⟨[], none⟩ =
      some (setError (ascii "unknown filter or boolean x"), ⟨[ascii "x"], some (ascii "x")⟩) := by
        decide
    cases hcheck.symm.trans heq
    exact ⟨⟨_, rfl⟩, nofun⟩

end GracefulMusic.Filters
