import GracefulMusic.Filters.CheckLeaves

/-! References between user filters, and what the check for recursion finds.

The leaves of an expression, with each reference followed at once into the filter's
own expression, come in a fixed order (`events`). The check goes along this order and
stops at the first leaf that is wrong or refers to a filter for the second time: it
reports the latter as a recursion, whether there is a cycle or not. -/
namespace GracefulMusic.Filters
open GracefulMusic.Expr

section
variable (env : Env) (filters : List FilterEntry)

/-- The expression a name stands for. -/
def definition (name : Text) : Option Expr :=
  (findFilter filters name).bind fun e => (exprParse env e.filter).toOption

/-- The user filters an expression refers to. -/
def refs : Expr → List Text
  | .and left right => refs left ++ refs right
  | .or left right => refs left ++ refs right
  | .not left => refs left
  | .bool key => if lookupKeyType key = none then [key] else []
  | _ => []

/-- A leaf that is a builtin key of its type, or a name. -/
def leafOk (e : Expr) : Bool :=
  match lookupKeyType (leafKey e) with
  | some type => leafType e = some type
  | none => leafType e = some .bool

def leavesOk : Expr → Bool
  | .and left right => leavesOk left && leavesOk right
  | .or left right => leavesOk left && leavesOk right
  | .not left => leavesOk left
  | e => leafOk e

/-- The filters that are reached by following references. -/
inductive Reaches (e : Expr) : Text → Prop
  | direct {name : Text} (h : name ∈ refs e) : Reaches e name
  | step {name next : Text} {d : Expr} (h : Reaches e name)
    (hd : definition env filters name = some d) (hnext : next ∈ refs d) : Reaches e next

/-- A reachable filter refers to itself, directly or through others. -/
def Cyclic (e : Expr) : Prop :=
  ∃ name d, Reaches env filters e name ∧ definition env filters name = some d ∧
    Reaches env filters d name

/-- All names are defined, and the builtin keys are used with their types. -/
def AllDefined (e : Expr) : Prop :=
  leavesOk e = true ∧ ∀ name, Reaches env filters e name →
    ∃ d, definition env filters name = some d ∧ leavesOk d = true

/-- Every filter name replaced by its definition. -/
inductive Expands : Expr → Expr → Prop
  | and {l r l' r' : Expr} (hl : Expands l l') (hr : Expands r r') : Expands (.and l r) (.and l' r')
  | or {l r l' r' : Expr} (hl : Expands l l') (hr : Expands r r') : Expands (.or l r) (.or l' r')
  | not {l l' : Expr} (hl : Expands l l') : Expands (.not l) (.not l')
  | leaf {e : Expr} {type : KeyType} (htype : leafType e = some type)
    (hkey : lookupKeyType (leafKey e) = some type) : Expands e e
  | filter {name : Text} {d d' : Expr} (hkey : lookupKeyType name = none)
    (hd : definition env filters name = some d) (he : Expands d d') : Expands (.bool name) d'

/-! ### The leaves in order -/

inductive Event where
  | ref (name : Text)
  | wrong
  deriving DecidableEq

/-- A name comes before the leaves of its definition. -/
def leafEvents (again : Expr → List Event) (e : Expr) : List Event :=
  if leafOk e then
    if lookupKeyType (leafKey e) = none then
      match findFilter filters (leafKey e) with
      | none => [.wrong]
      | some entry =>
        .ref (leafKey e) ::
          match exprParse env entry.filter with
          | .error _ => [.wrong]
          | .ok d => again d
    else []
  else [.wrong]

def treeEvents (leaf : Expr → List Event) : Expr → List Event
  | .and left right => treeEvents leaf left ++ treeEvents leaf right
  | .or left right => treeEvents leaf left ++ treeEvents leaf right
  | .not left => treeEvents leaf left
  | e => leaf e

/-- The references and wrong leaves of an expression in order, to a depth. -/
def events : Nat → Expr → List Event
  | 0 => fun _ => []
  | depth + 1 => treeEvents (leafEvents env filters (events depth))

end

/-- A filter is referred to again, or while it is marked, and nothing before that is
wrong. -/
def RepeatsFirst (marked : List Text) (evs : List Event) : Prop :=
  ∃ before name rest, evs = before ++ .ref name :: rest ∧ .wrong ∉ before ∧
    (name ∈ marked ∨ .ref name ∈ before)

/-- Something is wrong, and no filter is referred to again before that. -/
def WrongFirst (marked : List Text) (evs : List Event) : Prop :=
  ∃ before rest, evs = before ++ .wrong :: rest ∧ ¬ RepeatsFirst marked before

inductive Outcome where
  | done (marked : List Text)
  | wrong
  | repeated (name : Text)

/-- How a walk along the events ends. -/
def scan : List Text → List Event → Outcome
  | marked, [] => .done marked
  | _, .wrong :: _ => .wrong
  | marked, .ref name :: rest =>
    if name ∈ marked then .repeated name else scan (name :: marked) rest

theorem scan_append (marked : List Text) (a b : List Event) :
    scan marked (a ++ b) = match scan marked a with
      | .done marked => scan marked b
      | ended => ended := by
  induction a generalizing marked with
  | nil => rfl
  | cons ev a ih =>
    cases ev with
    | wrong => rfl
    | ref name =>
      rw [List.cons_append, scan, scan]
      by_cases h : name ∈ marked
      · rw [if_pos h, if_pos h]
      · rw [if_neg h, if_neg h]
        exact ih _

theorem scan_done_subset (marked : List Text) (evs : List Event) (after : List Text)
    (h : scan marked evs = .done after) : marked ⊆ after := by
  induction evs generalizing marked with
  | nil =>
    cases h
    exact List.Subset.refl _
  | cons ev evs ih =>
    cases ev with
    | wrong => cases h
    | ref name =>
      rw [scan] at h
      split at h
      · cases h
      · exact List.Subset.trans (List.subset_cons_self name marked) (ih _ h)

theorem repeatsFirst_ref (marked : List Text) (name : Text) (evs : List Event) :
    RepeatsFirst marked (.ref name :: evs) ↔ name ∈ marked ∨ RepeatsFirst (name :: marked) evs := by
  constructor
  · intro h
    obtain ⟨before, again, rest, heq, hok, hseen⟩ := h
    cases before with
    | nil =>
      obtain ⟨hname, -⟩ := List.cons.inj heq
      cases hname
      exact .inl (by simpa using hseen)
    | cons ev before =>
      obtain ⟨hev, htail⟩ := List.cons.inj heq
      subst hev
      refine .inr ⟨before, again, rest, htail, fun h => hok (.tail _ h), ?_⟩
      rcases hseen with hseen | hseen
      · exact .inl (.tail _ hseen)
      · rcases List.mem_cons.mp hseen with hhead | hseen
        · cases hhead
          exact .inl (.head _)
        · exact .inr hseen
  · rintro (h | ⟨before, again, rest, rfl, hok, hseen⟩)
    · exact ⟨[], name, evs, rfl, List.not_mem_nil, .inl h⟩
    · refine ⟨.ref name :: before, again, rest, rfl, by simpa using hok, ?_⟩
      rcases hseen with hseen | hseen
      · rcases List.mem_cons.mp hseen with rfl | hseen
        · exact .inr (.head _)
        · exact .inl hseen
      · exact .inr (.tail _ hseen)

theorem repeatsFirst_iff (marked : List Text) (evs : List Event) :
    RepeatsFirst marked evs ↔ ∃ name, scan marked evs = .repeated name := by
  induction evs generalizing marked with
  | nil =>
    refine iff_of_false ?_ nofun
    intro h
    obtain ⟨before, name, rest, heq, -⟩ := h
    cases before <;> cases heq
  | cons ev evs ih =>
    cases ev with
    | wrong =>
      refine iff_of_false ?_ nofun
      intro h
      obtain ⟨before, name, rest, heq, hok, -⟩ := h
      cases before with
      | nil => cases heq
      | cons ev before =>
        obtain ⟨rfl, -⟩ := List.cons.inj heq
        exact hok (.head _)
    | ref name =>
      rw [repeatsFirst_ref, ih, scan]
      by_cases h : name ∈ marked
      · simp [h]
      · simp [h]

theorem wrongFirst_iff (marked : List Text) (evs : List Event) :
    WrongFirst marked evs ↔ scan marked evs = .wrong := by
  constructor
  · intro h
    obtain ⟨before, rest, rfl, hfirst⟩ := h
    rw [scan_append]
    cases h : scan marked before with
    | done after => rfl
    | wrong => rfl
    | repeated name => exact absurd ((repeatsFirst_iff _ _).mpr ⟨name, h⟩) hfirst
  · intro h
    induction evs generalizing marked with
    | nil => cases h
    | cons ev evs ih =>
      cases ev with
      | wrong =>
        refine ⟨[], evs, rfl, ?_⟩
        rw [repeatsFirst_iff]
        exact nofun
      | ref name =>
        rw [scan] at h
        split at h
        · cases h
        case isFalse hnew =>
          obtain ⟨before, rest, rfl, hfirst⟩ := ih _ h
          refine ⟨.ref name :: before, rest, rfl, ?_⟩
          rw [repeatsFirst_ref]
          exact not_or.mpr ⟨hnew, hfirst⟩

end GracefulMusic.Filters
