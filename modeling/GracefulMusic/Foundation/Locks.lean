import Mathlib.Algebra.BigOperators.Group.List.Basic
import Mathlib.Algebra.Order.Ring.Int
import Mathlib.Data.List.DropRight
import Mathlib.Data.List.Infix
import Mathlib.Data.List.Induction
import Mathlib.Data.List.Nodup
import Mathlib.Data.List.TakeWhile
import Mathlib.Data.Fintype.Card
import Mathlib.Data.Set.Finite.Lemmas

/-! Threads that take locks.

The code of a thread is a list of instructions: it takes a lock, gives one back, or does
something to what the threads share (`act`), and goes on with more code before the rest; or
it has to wait. One step is one instruction of one thread. Nobody can be caught in a
circle where every thread takes its locks in one order (`Ordered`): above each lock that
is held stands a thread that does not wait for a lock (`exists_running`). -/
namespace Locks

inductive Instr (L A : Type*) where
  | lock (l : L)
  | unlock (l : L)
  | act (a : A)
  deriving DecidableEq

structure State (T L A σ : Type*) where
  code : T → List (Instr L A)
  holder : L → Option T
  shared : σ

variable {T L A σ : Type*} [DecidableEq T] [LinearOrder L]

/-- What threads do besides locking: the new shared state and the code to go on with. -/
abbrev Acts (T L A σ : Type*) := σ → T → A → Option (σ × List (Instr L A))

/-- One instruction of a thread. -/
def step (act : Acts T L A σ) (s : State T L A σ) (t : T) : Option (State T L A σ) :=
  match s.code t with
  | [] => none
  | .lock l :: rest =>
    if s.holder l = none then
      some {s with
        code := Function.update s.code t rest
        holder := Function.update s.holder l (some t)}
    else none
  | .unlock l :: rest =>
    some {s with
      code := Function.update s.code t rest
      holder := Function.update s.holder l none}
  | .act a :: rest =>
    (act s.shared t a).map fun (shared, more) =>
      {s with code := Function.update s.code t (more ++ rest), shared}

/-- A thread begins with new code. -/
def begin (s : State T L A σ) (t : T) (code : List (Instr L A)) : State T L A σ :=
  {s with code := Function.update s.code t code}

/-- What a step can be. -/
theorem step_cases {act : Acts T L A σ} {s s' : State T L A σ} {t : T}
    (hstep : step act s t = some s') :
    ∃ i rest, s.code t = i :: rest ∧
      ((∃ l, i = .lock l ∧ s.holder l = none ∧ s' = {s with
          code := Function.update s.code t rest
          holder := Function.update s.holder l (some t)}) ∨
        (∃ l, i = .unlock l ∧ s' = {s with
          code := Function.update s.code t rest
          holder := Function.update s.holder l none}) ∨
        ∃ a shared more, i = .act a ∧ act s.shared t a = some (shared, more) ∧
          s' = {s with code := Function.update s.code t (more ++ rest), shared}) := by
  unfold step at hstep
  split at hstep
  · cases hstep
  · rename_i l rest hcode
    split at hstep
    · rename_i hfree
      exact ⟨_, rest, hcode, .inl ⟨l, rfl, hfree, (Option.some.inj hstep).symm⟩⟩
    · cases hstep
  · rename_i l rest hcode
    exact ⟨_, rest, hcode, .inr (.inl ⟨l, rfl, (Option.some.inj hstep).symm⟩)⟩
  · rename_i a rest hcode
    obtain ⟨⟨shared, more⟩, hshared, rfl⟩ := Option.map_eq_some_iff.mp hstep
    exact ⟨_, rest, hcode, .inr (.inr ⟨a, shared, more, rfl, hshared, rfl⟩)⟩

section Order
variable (need : T → Instr L A → Finset L → Prop)

/-- From the locks that are held on, locks are taken in order and given back, and each
instruction meets what the thread needs for it. -/
def Ordered (t : T) : Finset L → List (Instr L A) → Prop
  | held, [] => held = ∅
  | held, .lock l :: rest =>
    need t (.lock l) held ∧ (∀ k ∈ held, k < l) ∧ Ordered t (insert l held) rest
  | held, .unlock l :: rest =>
    need t (.unlock l) held ∧ l ∈ held ∧ Ordered t (held.erase l) rest
  | held, .act a :: rest => need t (.act a) held ∧ Ordered t held rest

variable [Fintype L]

/-- The locks of a thread. -/
def held (s : State T L A σ) (t : T) : Finset L := {l | s.holder l = some t}

omit [LinearOrder L] in
theorem mem_held {s : State T L A σ} {t : T} {l : L} : l ∈ held s t ↔ s.holder l = some t := by
  simp [held]

/-- Every thread keeps to the order from where it is. -/
def Disciplined (s : State T L A σ) : Prop := ∀ t, Ordered need t (held s t) (s.code t)

section Held
variable {s : State T L A σ} {t u : T} {l : L} {code : List (Instr L A)}

theorem held_lock (hfree : s.holder l = none) :
    held {s with holder := Function.update s.holder l (some t)} u =
      if u = t then insert l (held s u) else held s u := by
  ext k
  by_cases hk : k = l
  · subst hk
    by_cases hu : u = t
    · simp [mem_held, hu]
    · simp [mem_held, hu, Ne.symm hu, hfree]
  · by_cases hu : u = t
    · simp [mem_held, hu, hk]
    · simp [mem_held, hu, hk]

theorem held_unlock (hl : s.holder l = some t) :
    held {s with holder := Function.update s.holder l none} u =
      if u = t then (held s u).erase l else held s u := by
  ext k
  by_cases hk : k = l
  · subst hk
    by_cases hu : u = t
    · simp [mem_held, hu]
    · simp [mem_held, hu, hl, Ne.symm hu]
  · by_cases hu : u = t
    · simp [mem_held, hu, hk]
    · simp [mem_held, hu, hk]

end Held

variable {need}

namespace Disciplined
variable {s s' : State T L A σ} {t : T}

theorem begin (h : Disciplined need s) (hidle : s.code t = []) {code : List (Instr L A)}
    (hcode : Ordered need t ∅ code) : Disciplined need (begin s t code) := by
  intro u
  have hu := h u
  show Ordered need u (held s u) (Function.update s.code t code u)
  by_cases hut : u = t
  · subst hut
    rw [hidle] at hu
    rw [Function.update_self, show held s u = ∅ from hu]
    exact hcode
  · rw [Function.update_of_ne hut]
    exact hu

theorem step {act : Acts T L A σ} (h : Disciplined need s)
    (hact : ∀ shared t a shared' more held rest, act shared t a = some (shared', more) →
      need t (.act a) held → Ordered need t held rest → Ordered need t held (more ++ rest))
    (hstep : step act s t = some s') : Disciplined need s' := by
  have ht := h t
  obtain ⟨i, rest, hcode, ⟨l, rfl, hfree, rfl⟩ | ⟨l, rfl, rfl⟩ |
    ⟨a, shared, more, rfl, hshared, rfl⟩⟩ := step_cases hstep
  · rw [hcode] at ht
    intro u
    show Ordered need u (held {s with holder := _} u) (Function.update s.code t rest u)
    rw [held_lock hfree]
    by_cases hut : u = t
    · subst hut
      rw [if_pos rfl, Function.update_self]
      exact ht.2.2
    · rw [if_neg hut, Function.update_of_ne hut]
      exact h u
  · rw [hcode] at ht
    intro u
    show Ordered need u (held {s with holder := _} u) (Function.update s.code t rest u)
    rw [held_unlock (mem_held.mp ht.2.1)]
    by_cases hut : u = t
    · subst hut
      rw [if_pos rfl, Function.update_self]
      exact ht.2.2
    · rw [if_neg hut, Function.update_of_ne hut]
      exact h u
  · rw [hcode] at ht
    intro u
    show Ordered need u (held s u) (Function.update s.code t (more ++ rest) u)
    by_cases hut : u = t
    · subst hut
      rw [Function.update_self]
      exact hact _ _ _ _ _ _ _ hshared ht.1 ht.2
    · rw [Function.update_of_ne hut]
      exact h u

/-- **Nobody waits in a circle**: above each lock that is held there is one whose holder
does not wait for a lock. -/
theorem exists_running (h : Disciplined need s) {l : L} (hl : s.holder l = some t) :
    ∃ u k i rest, l ≤ k ∧ s.holder k = some u ∧ s.code u = i :: rest ∧
      ∀ j, i = .lock j → s.holder j = none := by
  induction l using (Finite.to_wellFoundedGT : WellFoundedGT L).induction generalizing t with
  | _ l ih =>
    have ht := h t
    cases hcode : s.code t with
    | nil =>
      rw [hcode] at ht
      have hempty : held s t = ∅ := ht
      exact absurd (mem_held.mpr hl) (by simp [hempty])
    | cons i rest =>
      by_cases hfree : ∀ j, i = .lock j → s.holder j = none
      · exact ⟨t, l, i, rest, le_refl l, hl, hcode, hfree⟩
      · push Not at hfree
        obtain ⟨j, rfl, hj⟩ := hfree
        obtain ⟨u, hu⟩ := Option.ne_none_iff_exists'.mp hj
        rw [hcode] at ht
        have hlt : l < j := ht.2.1 l (mem_held.mpr hl)
        obtain ⟨v, k, i, rest, hk, hv, hc, hi⟩ := ih j hlt hu
        exact ⟨v, k, i, rest, hlt.le.trans hk, hv, hc, hi⟩

end Disciplined

end Order

end Locks
