import Mathlib.Algebra.BigOperators.Group.List.Basic
import Mathlib.Algebra.Order.Ring.Int
import Mathlib.Data.List.DropRight
import Mathlib.Data.List.Infix
import Mathlib.Data.List.Induction
import Mathlib.Data.List.Nodup
import Mathlib.Data.List.TakeWhile

/-! Runs of a machine whose steps may be undefined.

A machine is a step function `σ → ι → Option σ`: from a state and an input to the
next state, or `none` where the step has no meaning (an assertion that aborts, a
primitive called outside its contract). `run` folds it over a history. The rules
are what the developments above use: an invariant of every defined step holds after
every run (`run_preserves`), where steps are defined only under a condition, a history
that meets the condition at each step runs to its end and keeps the invariant
(`run_along`), and where the condition is exactly that a legal step leads from a good
state to a good one, the good states are kept by exactly the legal histories that meet
it (`always_iff_along`, and `throughout_iff_along` where a run may stop early). -/
namespace Runs
variable {σ ι : Type*}

/-- The state after a history, `none` as soon as one step is undefined. -/
def run (step : σ → ι → Option σ) : σ → List ι → Option σ
  | s, [] => some s
  | s, i :: rest => (step s i).bind fun t => run step t rest

/-- Each step of the history meets `ok` in the state it is taken from. -/
def Along (step : σ → ι → Option σ) (ok : σ → ι → Prop) : σ → List ι → Prop
  | _, [] => True
  | s, i :: rest => ok s i ∧ ∀ t, step s i = some t → Along step ok t rest

/-- Each step of the history is defined, and all the states are good. -/
def Always (step : σ → ι → Option σ) (Good : σ → Prop) : σ → List ι → Prop
  | s, [] => Good s
  | s, i :: rest => Good s ∧ ∃ t, step s i = some t ∧ Always step Good t rest

/-- The states that the history comes to are good, as far as its steps are defined. -/
def Throughout (step : σ → ι → Option σ) (Good : σ → Prop) : σ → List ι → Prop
  | s, [] => Good s
  | s, i :: rest => Good s ∧ ∀ t, step s i = some t → Throughout step Good t rest

instance Along.decidable (step : σ → ι → Option σ) (ok : σ → ι → Prop)
    [∀ s i, Decidable (ok s i)] (s : σ) : ∀ history, Decidable (Along step ok s history)
  | [] => isTrue trivial
  | i :: rest =>
    match h : step s i with
    | none => decidable_of_iff (ok s i) ⟨fun hok => ⟨hok, fun t ht => by simp [h] at ht⟩, And.left⟩
    | some t =>
      have := Along.decidable step ok t rest
      decidable_of_iff (ok s i ∧ Along step ok t rest)
        (and_congr_right fun _ => ⟨fun hrest u hu => by
          obtain rfl := Option.some.inj (h.symm.trans hu)
          exact hrest, fun hrest => hrest t h⟩)

variable {step : σ → ι → Option σ} {ok : σ → ι → Prop} {I : σ → Prop}

theorem run_append (s : σ) (a b : List ι) :
    run step s (a ++ b) = (run step s a).bind fun t => run step t b := by
  induction a generalizing s with
  | nil => rfl
  | cons i rest ih =>
    rw [List.cons_append, run, run, Option.bind_assoc]
    exact congrArg _ (funext ih)

theorem run_preserves (hstep : ∀ s i t, I s → step s i = some t → I t) (s t : σ)
    (history : List ι) (hs : I s) (hrun : run step s history = some t) : I t := by
  induction history generalizing s with
  | nil =>
    cases hrun
    exact hs
  | cons i rest ih =>
    obtain ⟨u, hu, hrest⟩ := Option.bind_eq_some_iff.mp hrun
    exact ih u (hstep s i u hs hu) hrest

theorem run_along (hstep : ∀ s i, I s → ok s i → ∃ t, step s i = some t ∧ I t) (s : σ)
    (history : List ι) (hs : I s) (halong : Along step ok s history) :
    ∃ t, run step s history = some t ∧ I t := by
  induction history generalizing s with
  | nil => exact ⟨s, rfl, hs⟩
  | cons i rest ih =>
    obtain ⟨u, hu, hinv⟩ := hstep s i hs halong.1
    obtain ⟨t, ht, hinvt⟩ := ih u hinv (halong.2 u hu)
    exact ⟨t, by rw [run, hu, Option.bind_some, ht], hinvt⟩

/-- The invariant holds in all the states of such a history. -/
theorem always_of_along (hstep : ∀ s i, I s → ok s i → ∃ t, step s i = some t ∧ I t) {s : σ}
    {history : List ι} (hs : I s) (halong : Along step ok s history) :
    Always step I s history := by
  induction history generalizing s with
  | nil => exact hs
  | cons i rest ih =>
    obtain ⟨t, ht, hinv⟩ := hstep s i hs halong.1
    exact ⟨hs, t, ht, ih hinv (halong.2 t ht)⟩

/-- An invariant of the steps that meet the condition. -/
theorem Along.preserves (hstep : ∀ s i t, I s → ok s i → step s i = some t → I t) {s t : σ}
    {history : List ι} (h : Along step ok s history) (hs : I s)
    (hrun : run step s history = some t) : I t := by
  induction history generalizing s with
  | nil =>
    cases hrun
    exact hs
  | cons i rest ih =>
    obtain ⟨u, hu, hrest⟩ := Option.bind_eq_some_iff.mp hrun
    exact ih (h.2 u hu) (hstep s i u hs h.1 hu) hrest

/-- A run to the end has only defined steps. -/
theorem along_of_run {s t : σ} {history : List ι} (hrun : run step s history = some t) :
    Along step (fun s i => ∃ u, step s i = some u) s history := by
  induction history generalizing s with
  | nil => trivial
  | cons i rest ih =>
    obtain ⟨u, hu, hrest⟩ := Option.bind_eq_some_iff.mp hrun
    refine ⟨⟨u, hu⟩, fun v hv => ?_⟩
    obtain rfl := Option.some.inj (hu.symm.trans hv)
    exact ih hrest

theorem Always.head {Good : σ → Prop} {s : σ} {history : List ι}
    (h : Always step Good s history) : Good s := by
  cases history with
  | nil => exact h
  | cons i rest => exact h.1

theorem Always.mono {Good Good' : σ → Prop} (hgood : ∀ s, Good s → Good' s) {s : σ}
    {history : List ι} (h : Always step Good s history) : Always step Good' s history := by
  induction history generalizing s with
  | nil => exact hgood s h
  | cons i rest ih =>
    obtain ⟨hs, t, ht, hrest⟩ := h
    exact ⟨hgood s hs, t, ht, ih hrest⟩

theorem Always.run {Good : σ → Prop} {s t : σ} {history : List ι} (h : Always step Good s history)
    (hrun : Runs.run step s history = some t) : Good t := by
  induction history generalizing s with
  | nil =>
    cases hrun
    exact h
  | cons i rest ih =>
    obtain ⟨-, u, hu, halways⟩ := h
    refine ih halways ?_
    rwa [Runs.run, hu, Option.bind_some] at hrun

theorem along_true (s : σ) (history : List ι) : Along step (fun _ _ => True) s history := by
  induction history generalizing s with
  | nil => trivial
  | cons i rest ih => exact ⟨trivial, fun t _ => ih t⟩

theorem Along.and {ok' : σ → ι → Prop} {s : σ} {history : List ι} (h : Along step ok s history)
    (h' : Along step ok' s history) : Along step (fun s i => ok s i ∧ ok' s i) s history := by
  induction history generalizing s with
  | nil => trivial
  | cons i rest ih => exact ⟨⟨h.1, h'.1⟩, fun t ht => ih (h.2 t ht) (h'.2 t ht)⟩

theorem Along.of_append {s t : σ} {a b : List ι} (h : Along step ok s (a ++ b))
    (hrun : Runs.run step s a = some t) : Along step ok t b := by
  induction a generalizing s with
  | nil =>
    cases hrun
    exact h
  | cons i rest ih =>
    obtain ⟨u, hu, hrest⟩ := Option.bind_eq_some_iff.mp hrun
    exact ih (h.2 u hu) hrest

/-- A condition that keeps an invariant, and what it implies in the states with that
invariant. -/
theorem Along.imp {ok' : σ → ι → Prop} (himp : ∀ s i, I s → ok s i → ok' s i)
    (hstep : ∀ s i t, I s → ok s i → step s i = some t → I t) {s : σ} {history : List ι}
    (hs : I s) (h : Along step ok s history) : Along step ok' s history := by
  induction history generalizing s with
  | nil => trivial
  | cons i rest ih =>
    exact ⟨himp s i hs h.1, fun t ht => ih (hstep s i t hs h.1 ht) (h.2 t ht)⟩

/-- What an invariant of every defined step sees to holds along every history. -/
theorem along_of_invariant (hok : ∀ s i, I s → ok s i)
    (hstep : ∀ s i t, I s → step s i = some t → I t) {s : σ} (hs : I s) (history : List ι) :
    Along step ok s history := by
  induction history generalizing s with
  | nil => trivial
  | cons i rest ih => exact ⟨hok s i hs, fun t ht => ih (hstep s i t hs ht)⟩

theorem always_iff_along {Good : σ → Prop} {legal : σ → ι → Prop}
    (hstep : ∀ s i, I s → Good s → legal s i →
      ∃ t, step s i = some t ∧ I t ∧ (Good t ↔ ok s i))
    (s : σ) (history : List ι) (hs : I s) (hgood : Good s)
    (hlegal : Along step legal s history) :
    Always step Good s history ↔ Along step ok s history := by
  induction history generalizing s with
  | nil => exact iff_of_true hgood trivial
  | cons i rest ih =>
    obtain ⟨t, ht, hinv, hiff⟩ := hstep s i hs hgood hlegal.1
    constructor
    · intro h
      obtain ⟨-, u, hu, halways⟩ := h
      obtain rfl := Option.some.inj (ht.symm.trans hu)
      refine ⟨hiff.mp halways.head, fun v hv => ?_⟩
      obtain rfl := Option.some.inj (ht.symm.trans hv)
      exact (ih t hinv halways.head (hlegal.2 t ht)).mp halways
    · intro h
      obtain ⟨hok, halong⟩ := h
      have hgood' := hiff.mpr hok
      exact ⟨hgood, t, ht, (ih t hinv hgood' (hlegal.2 t ht)).mpr (halong t ht)⟩

theorem Throughout.head {Good : σ → Prop} {s : σ} {history : List ι}
    (h : Throughout step Good s history) : Good s := by
  cases history with
  | nil => exact h
  | cons i rest => exact h.1

theorem Throughout.run {Good : σ → Prop} {s t : σ} {history : List ι}
    (h : Throughout step Good s history) (hrun : Runs.run step s history = some t) : Good t := by
  induction history generalizing s with
  | nil =>
    cases hrun
    exact h
  | cons i rest ih =>
    obtain ⟨u, hu, hrest⟩ := Option.bind_eq_some_iff.mp hrun
    exact ih (h.2 u hu) hrest

/-- The same for steps that need not be defined. -/
theorem throughout_iff_along {Good : σ → Prop} {legal : σ → ι → Prop}
    (hstop : ∀ s i, step s i = none → ok s i)
    (hstep : ∀ s i t, I s → Good s → legal s i → step s i = some t → I t ∧ (Good t ↔ ok s i))
    {s : σ} {history : List ι} (hs : I s) (hgood : Good s) (hlegal : Along step legal s history) :
    Throughout step Good s history ↔ Along step ok s history := by
  induction history generalizing s with
  | nil => exact iff_of_true hgood trivial
  | cons i rest ih =>
    have hnext : ∀ t, step s i = some t → Good t →
        (Throughout step Good t rest ↔ Along step ok t rest) := fun t ht hgood' =>
      ih (hstep s i t hs hgood hlegal.1 ht).1 hgood' (hlegal.2 t ht)
    constructor
    · intro h
      refine ⟨?_, fun t ht => (hnext t ht (h.2 t ht).head).mp (h.2 t ht)⟩
      cases hrun : step s i with
      | none => exact hstop s i hrun
      | some t => exact (hstep s i t hs hgood hlegal.1 hrun).2.mp (h.2 t hrun).head
    · intro h
      refine ⟨hgood, fun t ht => ?_⟩
      have hgood' := (hstep s i t hs hgood hlegal.1 ht).2.mpr h.1
      exact (hnext t ht hgood').mpr (h.2 t ht)

end Runs
