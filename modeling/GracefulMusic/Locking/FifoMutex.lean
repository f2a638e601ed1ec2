import GracefulMusic.Foundation.Runs
import Mathlib.Data.List.Chain
import Mathlib.Logic.Function.Basic

/-! The mutex of the cache that is handed over in order (`locking.c`).

A thread that asks for it puts itself behind `tail` with one exchange, and sleeps until the
one before it has made it the `head`. A step is one access to what the threads share, and any
thread may take the next one. A waiter is on the stack of its thread: it is named by the
thread, and there is none once the thread has left `fifo_mutex_lock`. -/
namespace GracefulMusic.Locking

/-- Where a thread is. -/
inductive Pc (T : Type) where
  | idle
  | entering
  | swapped (oldTail : Option T)
  | arriving (queued : Bool)
  | testing (queued : Bool)
  | waiting (signalled : Bool)
  | leaving
  | spinning
  | passing (next : Option T)
  | inside
  | releasing (again : Bool)

/-- `arrived` and `entered` are not in the source: the threads in the order of their exchanges,
and in the order in which they are let in. -/
structure Fifo (T : Type) where
  tail : Option T
  head : Option T
  mutex : Option T
  next : T → Option T
  pc : T → Pc T
  arrived : List T
  entered : List T

variable {T : Type} [DecidableEq T]

namespace Fifo

/-- `FIFO_MUTEX_INITIALIZER`. -/
def initializer : Fifo T :=
  { tail := none, head := none, mutex := none, next := fun _ => none, pc := fun _ => .idle,
    arrived := [], entered := [] }

def setPc (s : Fifo T) (t : T) (pc : Pc T) : Fifo T := {s with pc := Function.update s.pc t pc}

/-- `pthread_cond_signal` for the head, which wakes nobody who does not wait. -/
def signal (s : Fifo T) : Fifo T :=
  match s.head with
  | none => s
  | some h =>
    match s.pc h with
    | .waiting _ => s.setPc h (.waiting true)
    | _ => s

/-- The next access of a thread that is in one of the functions; a thread that has to wait for
the mutex, for a signal or for its `next` does not take a step. -/
def go (s : Fifo T) (t : T) : Option (Fifo T) :=
  match s.pc t with
  | .idle => none
  | .entering =>
    some { s.setPc t (.swapped s.tail) with
      tail := some t, next := Function.update s.next t none, arrived := s.arrived ++ [t] }
  | .swapped none => some (s.setPc t (.arriving false))
  | .swapped (some oldTail) =>
    some { s.setPc t (.arriving true) with next := Function.update s.next oldTail (some t) }
  | .arriving queued =>
    if s.mutex = none then some { s.setPc t (.testing queued) with mutex := some t } else none
  | .testing queued =>
    if queued ∧ s.head ≠ some t then some { s.setPc t (.waiting false) with mutex := none }
    else some (s.setPc t .leaving)
  | .waiting signalled =>
    if signalled ∧ s.mutex = none then some { s.setPc t (.testing true) with mutex := some t }
    else none
  | .leaving =>
    if s.tail = some t then
      some { s.setPc t (.passing none) with tail := none, entered := s.entered ++ [t] }
    else some (s.setPc t .spinning)
  | .spinning =>
    (s.next t).map fun next => { s.setPc t (.passing (some next)) with entered := s.entered ++ [t] }
  | .passing next => some { s.setPc t .inside with head := next }
  | .inside => none
  | .releasing again =>
    some { s.setPc t (if again then .entering else .idle) with mutex := none }

/-- What a thread does: it calls `fifo_mutex_lock`, goes on in a function, calls
`fifo_mutex_unlock` or `fifo_mutex_yield` when it has the mutex, or wakes without a signal. -/
inductive Move where
  | lock | go | unlock | yield | wake
  deriving DecidableEq

def step (s : Fifo T) : T × Move → Option (Fifo T)
  | (t, .lock) =>
    match s.pc t with
    | .idle => some (s.setPc t .entering)
    | _ => none
  | (t, .go) => s.go t
  | (t, .unlock) =>
    match s.pc t with
    | .inside => some (s.signal.setPc t (.releasing false))
    | _ => none
  | (t, .yield) =>
    match s.pc t with
    | .inside =>
      if s.head ≠ none ∨ s.tail ≠ none then some (s.signal.setPc t (.releasing true)) else some s
    | _ => none
  | (t, .wake) =>
    match s.pc t with
    | .waiting false => some (s.setPc t (.waiting true))
    | _ => none

/-- The thread that is next by `head`, also before the store of it. -/
def turn (s : Fifo T) : Option T :=
  match s.mutex.map s.pc with
  | some (.passing next) => next
  | _ => s.head

end Fifo

namespace Pc

/-- Between the exchange and the end of the wait. -/
def queued : Pc T → Bool
  | swapped _ | arriving _ | testing _ | waiting _ | leaving | spinning => true
  | _ => false

def holds : Pc T → Bool
  | testing _ | leaving | spinning | passing _ | inside | releasing _ => true
  | _ => false

/-- A thread that found no tail. -/
def first : Pc T → Bool
  | swapped none | arriving false | testing false | leaving | spinning => true
  | _ => false

/-- A thread that found a tail and is its `next`. -/
def behind : Pc T → Bool
  | arriving true | testing true | waiting _ | leaving | spinning => true
  | _ => false

/-- A thread that was let in. -/
def owns : Pc T → Bool
  | passing _ | inside | releasing _ => true
  | _ => false

/-- How a thread `b` at this place comes after `a`, whose `next` is known. -/
def Follows (pc : Pc T) (a b : T) (next : Option T) : Prop :=
  (pc = .swapped (some a) ∧ next = none) ∨ (pc.behind ∧ next = some b)

end Pc

/-! ### The queue -/

/-- The threads that are not let in yet, in the order of their exchanges. -/
structure Inv (s : Fifo T) (q : List T) : Prop where
  log : s.arrived = s.entered ++ q
  nodup : q.Nodup
  queued : ∀ t, t ∈ q ↔ (s.pc t).queued
  mutex : ∀ t, s.mutex = some t ↔ (s.pc t).holds
  tail : s.tail = q.getLast?
  chain : q.IsChain fun a b => (s.pc b).Follows a b (s.next a)
  last : ∀ t, q.getLast? = some t → s.next t = none
  head : ∀ t, q.head? = some t →
    (s.turn = none ∧ (s.pc t).first) ∨ (s.turn = some t ∧ (s.pc t).behind)
  turn : ∀ t, s.turn = some t → q.head? = some t
  served : ∀ t, s.pc t = .leaving ∨ s.pc t = .spinning → q.head? = some t
  spinning : ∀ t, s.pc t = .spinning → q.getLast? ≠ some t
  woken : ∀ t, q.head? = some t → s.pc t = .waiting false →
    ∃ p, s.pc p = .inside ∨ ∃ next, s.pc p = .passing next
  owner : ∀ t, (s.pc t).owns → s.entered.getLast? = some t

variable {s s' : Fifo T} {q : List T} {t u : T}

omit [DecidableEq T] in
theorem inv_initializer : Inv (Fifo.initializer : Fifo T) [] where
  log := rfl
  nodup := .nil
  queued t := by simp [Fifo.initializer, Pc.queued]
  mutex t := by simp [Fifo.initializer, Pc.holds]
  tail := rfl
  chain := .nil
  last t h := by cases h
  head t h := by cases h
  turn t h := by cases h
  served t h := by simp [Fifo.initializer] at h
  spinning t h := by cases h
  woken t h := by cases h
  owner t h := by cases h

/-- One thread goes on, and the queue is what it was. -/
theorem Inv.change (h : Inv s q) {pc : Pc T} (mutex head : Option T) (next : T → Option T)
    (hqueued : pc.queued = (s.pc t).queued)
    (hmutex : ∀ u, mutex = some u ↔ (Function.update s.pc t pc u).holds)
    (hchain : q.IsChain fun a b => (Function.update s.pc t pc b).Follows a b (next a))
    (hlast : ∀ u, q.getLast? = some u → next u = none)
    (hhead : q.head? = some t → ((s.pc t).first → pc.first) ∧ ((s.pc t).behind → pc.behind))
    (hturn : Fifo.turn { s.setPc t pc with mutex, head, next } = s.turn)
    (hserved : pc = .leaving ∨ pc = .spinning → q.head? = some t)
    (hspinning : pc = .spinning → q.getLast? ≠ some t)
    (hwoken : ∀ u, q.head? = some u → Function.update s.pc t pc u = .waiting false →
      ∃ p, Function.update s.pc t pc p = .inside ∨
        ∃ next, Function.update s.pc t pc p = .passing next)
    (howner : pc.owns → s.entered.getLast? = some t) :
    Inv { s.setPc t pc with mutex, head, next } q where
  log := h.log
  nodup := h.nodup
  queued u := by
    rw [h.queued]
    by_cases hu : u = t
    · simp [Fifo.setPc, hu, hqueued]
    · simp [Fifo.setPc, hu]
  mutex := hmutex
  tail := h.tail
  chain := hchain
  last := hlast
  head u hu := by
    rw [hturn]
    by_cases hut : u = t
    · subst hut
      obtain ⟨hfirst, hbehind⟩ := hhead hu
      simp only [Fifo.setPc, Function.update_self]
      exact (h.head u hu).imp (And.imp_right hfirst) (And.imp_right hbehind)
    · simpa [Fifo.setPc, hut] using h.head u hu
  turn u hu := h.turn u (hturn ▸ hu)
  served u hu := by
    by_cases hut : u = t
    · subst hut
      exact hserved (by simpa [Fifo.setPc] using hu)
    · exact h.served u (by simpa [Fifo.setPc, hut] using hu)
  spinning u hu := by
    by_cases hut : u = t
    · subst hut
      exact hspinning (by simpa [Fifo.setPc] using hu)
    · exact h.spinning u (by simpa [Fifo.setPc, hut] using hu)
  woken := hwoken
  owner u hu := by
    by_cases hut : u = t
    · subst hut
      exact howner (by simpa [Fifo.setPc] using hu)
    · exact h.owner u (by simpa [Fifo.setPc, hut] using hu)

/-- The same where the links stay, too. -/
theorem Inv.move (h : Inv s q) {pc : Pc T} (mutex head : Option T)
    (hqueued : pc.queued = (s.pc t).queued)
    (hmutex : ∀ u, mutex = some u ↔ (Function.update s.pc t pc u).holds)
    (hfollows : ∀ a next, (s.pc t).Follows a t next → pc.Follows a t next)
    (hhead : q.head? = some t → ((s.pc t).first → pc.first) ∧ ((s.pc t).behind → pc.behind))
    (hturn : Fifo.turn { s.setPc t pc with mutex, head } = s.turn)
    (hserved : pc = .leaving ∨ pc = .spinning → q.head? = some t)
    (hspinning : pc = .spinning → q.getLast? ≠ some t)
    (hwoken : ∀ u, q.head? = some u → Function.update s.pc t pc u = .waiting false →
      ∃ p, Function.update s.pc t pc p = .inside ∨
        ∃ next, Function.update s.pc t pc p = .passing next)
    (howner : pc.owns → s.entered.getLast? = some t) :
    Inv { s.setPc t pc with mutex, head } q := by
  refine h.change mutex head s.next hqueued hmutex (h.chain.imp fun a b hab => ?_) h.last hhead
    hturn hserved hspinning hwoken howner
  by_cases hb : b = t
  · subst hb
    simpa using hfollows a _ hab
  · simpa [hb] using hab

section
variable (h : Inv s q) {pc : Pc T}
include h

theorem Inv.mutex_keep (hpc : pc.holds = (s.pc t).holds) (u : T) :
    s.mutex = some u ↔ (Function.update s.pc t pc u).holds := by
  rw [h.mutex]
  by_cases hu : u = t
  · simp [hu, hpc]
  · simp [hu]

theorem Inv.mutex_take (hfree : s.mutex = none) (hpc : pc.holds = true) (u : T) :
    some t = some u ↔ (Function.update s.pc t pc u).holds := by
  by_cases hu : u = t
  · simp [hu, hpc]
  · have hout := h.mutex u
    simp only [hfree, reduceCtorEq, false_iff] at hout
    simp [hu, hout, Ne.symm hu]

theorem Inv.mutex_give (ht : (s.pc t).holds = true) (hpc : pc.holds = false) (u : T) :
    none = some u ↔ (Function.update s.pc t pc u).holds := by
  by_cases hu : u = t
  · simp [hu, hpc]
  · have hout : (s.pc u).holds ≠ true := fun hholds =>
      hu (Option.some.inj (((h.mutex u).mpr hholds).symm.trans ((h.mutex t).mpr ht)))
    simp [hu, hout]

/-- A waiter that is first is not without somebody who will signal it. -/
theorem Inv.woken_keep (hpc : pc ≠ .waiting false) (hin : s.pc t ≠ .inside)
    (hpass : ∀ next, s.pc t ≠ .passing next) (u : T) (hu : q.head? = some u)
    (hwait : Function.update s.pc t pc u = .waiting false) :
    ∃ p, Function.update s.pc t pc p = .inside ∨
      ∃ next, Function.update s.pc t pc p = .passing next := by
  have hut : u ≠ t := by
    rintro rfl
    rw [Function.update_self] at hwait
    exact hpc hwait
  rw [Function.update_of_ne hut] at hwait
  obtain ⟨p, hp⟩ := h.woken u hu hwait
  refine ⟨p, ?_⟩
  have hpt : p ≠ t := by
    rintro rfl
    exact hp.elim hin fun ⟨next, hnext⟩ => hpass next hnext
  rwa [Function.update_of_ne hpt]

omit [DecidableEq T] h in
theorem turn_free (hfree : s.mutex = none) : s.turn = s.head := by
  rw [Fifo.turn, hfree]
  rfl

omit [DecidableEq T] in
theorem Inv.turn_held (ht : (s.pc t).holds = true) (hpass : ∀ next, s.pc t ≠ .passing next) :
    s.turn = s.head := by
  rw [Fifo.turn, (h.mutex t).mpr ht]
  simp only [Option.map_some]
  split
  · rename_i next hpc
    exact absurd (Option.some.inj hpc) (hpass next)
  · rfl

omit [DecidableEq T] in
/-- A queued thread is the first, or it comes after another one. -/
theorem Inv.first_or_follows (ht : t ∈ q) :
    q.head? = some t ∨ ∃ a ∈ q, (s.pc t).Follows a t (s.next a) := by
  obtain ⟨front, back, rfl⟩ := List.append_of_mem ht
  rcases List.eq_nil_or_concat front with rfl | ⟨front, a, rfl⟩
  · exact .inl rfl
  · refine .inr ⟨a, by simp, ?_⟩
    have hchain := h.chain
    rw [List.concat_eq_append, List.append_assoc, List.cons_append, List.nil_append] at hchain
    exact (List.isChain_append_cons_cons.mp hchain).2.1

end

/-! ### One step -/

omit [DecidableEq T] in
theorem Inv.mem_of_queued (h : Inv s q) (ht : (s.pc t).queued = true) : t ∈ q :=
  (h.queued t).mpr ht

omit [DecidableEq T] in
theorem Inv.mutex_unique (h : Inv s q) (ht : (s.pc t).holds = true)
    (hu : (s.pc u).holds = true) : t = u :=
  Option.some.inj (((h.mutex t).mpr ht).symm.trans ((h.mutex u).mpr hu))

section
variable {pc : Pc T}

theorem turn_keep (pc : Pc T) (hpass : ∀ next, s.pc t ≠ .passing next)
    (hnew : ∀ next, pc ≠ .passing next) : (s.setPc t pc).turn = s.turn := by
  unfold Fifo.turn Fifo.setPc
  cases hm : s.mutex with
  | none => rfl
  | some p =>
    by_cases hp : p = t
    · subst hp
      simp only [Option.map_some, Function.update_self]
      split
      · rename_i hnext
        exact absurd (Option.some.inj hnext) (hnew _)
      · split
        · rename_i hnext
          exact absurd (Option.some.inj hnext) (hpass _)
        · rfl
    · simp only [Option.map_some, Function.update_of_ne hp]

theorem turn_take (hfree : s.mutex = none) (hnew : ∀ next, pc ≠ .passing next) :
    Fifo.turn { s.setPc t pc with mutex := some t } = s.turn := by
  rw [turn_free hfree]
  simp only [Fifo.turn, Fifo.setPc, Option.map_some, Function.update_self]
  split
  · rename_i hnext
    exact absurd (Option.some.inj hnext) (hnew _)
  · rfl

theorem Inv.turn_give (h : Inv s q) (ht : (s.pc t).holds = true)
    (hpass : ∀ next, s.pc t ≠ .passing next) :
    Fifo.turn { s.setPc t pc with mutex := none } = s.turn := (h.turn_held ht hpass).symm

end

theorem Inv.lock (h : Inv s q) (hpc : s.pc t = .idle) : Inv (s.setPc t .entering) q := by
  refine h.move s.mutex s.head ?_ (h.mutex_keep ?_) ?_ ?_ (turn_keep _ ?_ ?_) ?_ ?_
    (h.woken_keep ?_ ?_ ?_) ?_
  all_goals simp [hpc, Pc.queued, Pc.holds, Pc.Follows, Pc.first, Pc.behind, Pc.owns]

/-- A thread that found no tail is not behind anybody. -/
theorem Inv.arrive (h : Inv s q) (hpc : s.pc t = .swapped none) :
    Inv (s.setPc t (.arriving false)) q := by
  refine h.move s.mutex s.head ?_ (h.mutex_keep ?_) ?_ ?_ (turn_keep _ ?_ ?_) ?_ ?_
    (h.woken_keep ?_ ?_ ?_) ?_
  all_goals simp [hpc, Pc.queued, Pc.holds, Pc.Follows, Pc.first, Pc.behind, Pc.owns]

theorem Inv.take (h : Inv s q) {queued : Bool} (hpc : s.pc t = .arriving queued)
    (hfree : s.mutex = none) :
    Inv { s.setPc t (.testing queued) with mutex := some t } q := by
  refine h.move (some t) s.head ?_ (h.mutex_take hfree ?_) ?_ ?_ (turn_take hfree ?_) ?_ ?_
    (h.woken_keep ?_ ?_ ?_) ?_
  all_goals cases queued <;>
    simp [hpc, Pc.queued, Pc.holds, Pc.Follows, Pc.first, Pc.behind, Pc.owns]

theorem Inv.resume (h : Inv s q) {signalled : Bool} (hpc : s.pc t = .waiting signalled)
    (hfree : s.mutex = none) :
    Inv { s.setPc t (.testing true) with mutex := some t } q := by
  refine h.move (some t) s.head ?_ (h.mutex_take hfree ?_) ?_ ?_ (turn_take hfree ?_) ?_ ?_
    (h.woken_keep ?_ ?_ ?_) ?_
  all_goals simp [hpc, Pc.queued, Pc.holds, Pc.Follows, Pc.first, Pc.behind, Pc.owns]

theorem Inv.wake (h : Inv s q) {signalled : Bool} (hpc : s.pc t = .waiting signalled) :
    Inv (s.setPc t (.waiting true)) q := by
  refine h.move s.mutex s.head ?_ (h.mutex_keep ?_) ?_ ?_ (turn_keep _ ?_ ?_) ?_ ?_
    (h.woken_keep ?_ ?_ ?_) ?_
  all_goals simp [hpc, Pc.queued, Pc.holds, Pc.Follows, Pc.first, Pc.behind, Pc.owns]

/-- Only a thread that is not the head goes to sleep. -/
theorem Inv.sleep (h : Inv s q) (hpc : s.pc t = .testing true) (hhead : s.head ≠ some t) :
    Inv { s.setPc t (.waiting false) with mutex := none } q := by
  have hholds : (s.pc t).holds = true := by rw [hpc]; rfl
  have hturn : s.turn = s.head := h.turn_held hholds (by simp [hpc])
  have hnot : q.head? ≠ some t := fun hfirst => by
    rcases h.head t hfirst with ⟨-, hfresh⟩ | ⟨hnext, -⟩
    · simp [hpc, Pc.first] at hfresh
    · exact hhead (hturn ▸ hnext)
  refine h.move none s.head ?_ (h.mutex_give hholds ?_) ?_ ?_ (h.turn_give hholds ?_) ?_ ?_ ?_ ?_
  case refine_8 =>
    intro u hu hwait
    have hut : u ≠ t := fun heq => hnot (heq ▸ hu)
    rw [Function.update_of_ne hut] at hwait
    obtain ⟨p, hp⟩ := h.woken u hu hwait
    have hpt : p = t := h.mutex_unique (by rcases hp with hp | ⟨_, hp⟩ <;> rw [hp] <;> rfl) hholds
    subst hpt
    simp [hpc] at hp
  all_goals simp [hpc, hnot, Pc.queued, Pc.holds, Pc.Follows, Pc.first, Pc.behind, Pc.owns]

omit [DecidableEq T] in
/-- A thread leaves the wait as the first of the queue. -/
theorem Inv.served_first (h : Inv s q) {queued : Bool} (hpc : s.pc t = .testing queued)
    (hhead : ¬ (queued = true ∧ s.head ≠ some t)) : q.head? = some t := by
  have hholds : (s.pc t).holds = true := by rw [hpc]; rfl
  have hturn : s.turn = s.head := h.turn_held hholds (by simp [hpc])
  cases queued with
  | false =>
    rcases h.first_or_follows (h.mem_of_queued (by rw [hpc]; rfl)) with hfirst | ⟨a, -, ha⟩
    · exact hfirst
    · simp [hpc, Pc.Follows, Pc.behind] at ha
  | true => exact h.turn t (hturn.trans (not_not.mp fun hne => hhead ⟨rfl, hne⟩))

theorem Inv.leave (h : Inv s q) {queued : Bool} (hpc : s.pc t = .testing queued)
    (hhead : ¬ (queued = true ∧ s.head ≠ some t)) : Inv (s.setPc t .leaving) q := by
  have hfirst := h.served_first hpc hhead
  refine h.move s.mutex s.head ?_ (h.mutex_keep ?_) ?_ ?_ (turn_keep _ ?_ ?_) ?_ ?_
    (h.woken_keep ?_ ?_ ?_) ?_
  all_goals cases queued <;>
    simp [hpc, hfirst, Pc.queued, Pc.holds, Pc.Follows, Pc.first, Pc.behind, Pc.owns]

theorem Inv.spin (h : Inv s q) (hpc : s.pc t = .leaving) (htail : s.tail ≠ some t) :
    Inv (s.setPc t .spinning) q := by
  have hfirst := h.served t (.inl hpc)
  rw [h.tail] at htail
  refine h.move s.mutex s.head ?_ (h.mutex_keep ?_) ?_ ?_ (turn_keep _ ?_ ?_) ?_ ?_
    (h.woken_keep ?_ ?_ ?_) ?_
  all_goals
    simp [hpc, hfirst, htail, Pc.queued, Pc.holds, Pc.Follows, Pc.first, Pc.behind, Pc.owns]

theorem Inv.signal (h : Inv s q) : Inv s.signal q := by
  unfold Fifo.signal
  split
  · exact h
  · split
    · rename_i hpc
      exact h.wake hpc
    · exact h

/-- What a signal changes. -/
theorem signal_pc (s : Fifo T) (u : T) :
    s.signal.pc u = s.pc u ∨ s.head = some u ∧ s.pc u = .waiting false ∧
      s.signal.pc u = .waiting true := by
  unfold Fifo.signal
  split
  · exact .inl rfl
  · rename_i k hhead
    split
    · rename_i signalled hpc
      by_cases hu : u = k
      · subst hu
        cases signalled with
        | false => exact .inr ⟨hhead, hpc, by simp [Fifo.setPc]⟩
        | true => exact .inl (by simp [Fifo.setPc, hpc])
      · exact .inl (by simp [Fifo.setPc, hu])
    · exact .inl rfl

theorem signal_shared (s : Fifo T) : s.signal.head = s.head ∧ s.signal.tail = s.tail ∧
    s.signal.mutex = s.mutex ∧ s.signal.next = s.next ∧ s.signal.arrived = s.arrived ∧
    s.signal.entered = s.entered := by
  unfold Fifo.signal
  split
  · exact ⟨rfl, rfl, rfl, rfl, rfl, rfl⟩
  · split <;> exact ⟨rfl, rfl, rfl, rfl, rfl, rfl⟩

/-- After the signal the first waiter does not depend on anybody. -/
theorem Inv.release (h : Inv s q) (hpc : s.pc t = .inside) (again : Bool) :
    Inv (s.signal.setPc t (.releasing again)) q := by
  have hs := h.signal
  have hpc' : s.signal.pc t = .inside := by
    rcases signal_pc s t with hsame | ⟨-, hwait, -⟩
    · rw [hsame, hpc]
    · cases hpc.symm.trans hwait
  have hholds : (s.pc t).holds = true := by rw [hpc]; rfl
  have hturn : s.turn = s.head := h.turn_held hholds (by simp [hpc])
  refine hs.move s.signal.mutex s.signal.head ?_ (hs.mutex_keep ?_) ?_ ?_ (turn_keep _ ?_ ?_)
    ?_ ?_ ?_ ?_
  case refine_9 =>
    intro u hu hwait
    by_cases hut : u = t
    · subst hut
      rw [Function.update_self] at hwait
      cases hwait
    · rw [Function.update_of_ne hut] at hwait
      rcases signal_pc s u with hsame | ⟨-, -, hsignalled⟩
      · rw [hsame] at hwait
        rcases h.head u hu with ⟨-, hfresh⟩ | ⟨hnext, -⟩
        · simp [hwait, Pc.first] at hfresh
        · have hwoken : s.signal.pc u = .waiting true := by
            simp [Fifo.signal, ← hturn, hnext, hwait, Fifo.setPc]
          rw [hsame, hwait] at hwoken
          cases hwoken
      · cases hwait.symm.trans hsignalled
  case refine_10 =>
    intro _
    exact hs.owner t (by rw [hpc']; rfl)
  all_goals simp [hpc', Pc.queued, Pc.holds, Pc.Follows, Pc.first, Pc.behind]

/-- The mutex is given back when nobody needs a signal any more. -/
theorem Inv.give (h : Inv s q) {again : Bool} (hpc : s.pc t = .releasing again) :
    Inv { s.setPc t (if again then .entering else .idle) with mutex := none } q := by
  have hholds : (s.pc t).holds = true := by rw [hpc]; rfl
  refine h.move none s.head ?_ (h.mutex_give hholds ?_) ?_ ?_ (h.turn_give hholds ?_) ?_ ?_
    (h.woken_keep ?_ ?_ ?_) ?_
  all_goals cases again <;>
    simp [hpc, Pc.queued, Pc.holds, Pc.Follows, Pc.first, Pc.behind, Pc.owns]

/-- The store of the head. -/
theorem Inv.enter (h : Inv s q) {next : Option T} (hpc : s.pc t = .passing next) :
    Inv { s.setPc t .inside with head := next } q := by
  have hholds : (s.pc t).holds = true := by rw [hpc]; rfl
  have hmutex : s.mutex = some t := (h.mutex t).mpr hholds
  have hturn : s.turn = next := by
    rw [Fifo.turn, hmutex]
    simp [hpc]
  have hmove : Fifo.turn { s.setPc t .inside with head := next } = s.turn := by
    rw [hturn]
    simp [Fifo.turn, Fifo.setPc, hmutex]
  refine h.move s.mutex next ?_ (h.mutex_keep ?_) ?_ ?_ hmove ?_ ?_ ?_ ?_
  case refine_7 =>
    intro u hu hwait
    exact ⟨t, .inl (Function.update_self ..)⟩
  case refine_8 =>
    intro _
    exact h.owner t (by rw [hpc]; rfl)
  all_goals simp [hpc, Pc.queued, Pc.holds, Pc.Follows, Pc.first, Pc.behind]

omit [DecidableEq T] in
theorem head?_concat {a : T} (h : (q ++ [t]).head? = some a) :
    q.head? = some a ∨ q = [] ∧ a = t := by
  cases q with
  | nil => exact .inr ⟨rfl, (Option.some.inj h).symm⟩
  | cons b q => exact .inl h

omit [DecidableEq T] in
theorem concat_head? {a : T} (h : q.head? = some a) : (q ++ [t]).head? = some a := by
  cases q with
  | nil => cases h
  | cons b q => exact h

/-- The exchange: a thread comes to the end of the queue. -/
theorem Inv.exchange (h : Inv s q) (hpc : s.pc t = .entering) :
    Inv { s.setPc t (.swapped s.tail) with
      tail := some t, next := Function.update s.next t none, arrived := s.arrived ++ [t] }
      (q ++ [t]) := by
  have hout : t ∉ q := fun hmem => by
    have hqueued := (h.queued t).mp hmem
    simp [hpc, Pc.queued] at hqueued
  have hne : ∀ a ∈ q, a ≠ t := fun a ha heq => hout (heq ▸ ha)
  have hturn : Fifo.turn { s.setPc t (.swapped s.tail) with
      tail := some t, next := Function.update s.next t none, arrived := s.arrived ++ [t] } =
      s.turn := turn_keep (s := s) (.swapped s.tail) (by simp [hpc]) (by simp)
  have hself : (s.setPc t (.swapped s.tail)).pc t = .swapped s.tail := Function.update_self ..
  have hother : ∀ u ≠ t, (s.setPc t (.swapped s.tail)).pc u = s.pc u := fun u hu =>
    Function.update_of_ne hu ..
  refine ⟨?log, ?nodup, ?queued, h.mutex_keep (by rw [hpc]; rfl), ?tail, ?chain, ?last, ?head,
    ?turn, ?served, ?spinning, ?woken, ?owner⟩
  case log => simp [Fifo.setPc, h.log]
  case nodup =>
    refine List.nodup_append.mpr ⟨h.nodup, List.nodup_singleton t, fun a ha b hb => ?_⟩
    exact List.mem_singleton.mp hb ▸ hne a ha
  case queued =>
    intro u
    by_cases hu : u = t
    · subst hu
      simp [hself, Pc.queued]
    · simp [hother u hu, hu, h.queued]
  case tail => simp
  case chain =>
    refine List.isChain_append.mpr ⟨?_, .singleton t, fun a ha b hb => ?_⟩
    · refine h.chain.imp_of_mem_imp fun a b ha hb hab => ?_
      simpa [hother b (hne b hb), hne a ha] using hab
    · obtain rfl : t = b := by simpa using hb
      have hlast : q.getLast? = some a := ha
      refine .inl ⟨by rw [hself, h.tail, hlast], ?_⟩
      exact (Function.update_of_ne (hne a (List.mem_of_getLast? hlast)) ..).trans (h.last a hlast)
  case last =>
    intro u hu
    obtain rfl : t = u := by simpa using hu
    exact Function.update_self ..
  case head =>
    intro u hu
    rw [hturn]
    rcases head?_concat hu with hu | ⟨rfl, rfl⟩
    · simpa [hother u (hne u (List.mem_of_head? hu))] using h.head u hu
    · refine .inl ⟨Option.eq_none_iff_forall_ne_some.mpr fun a ha => ?_, ?_⟩
      · cases h.turn a ha
      · have htail : s.tail = none := h.tail
        have hfresh : ((s.setPc u (.swapped s.tail)).pc u).first = true := by
          rw [hself, htail]
          rfl
        exact hfresh
  case turn =>
    intro u hu
    exact concat_head? (h.turn u (hturn ▸ hu))
  case served =>
    intro u hu
    by_cases hut : u = t
    · subst hut
      simp [hself] at hu
    · exact concat_head? (h.served u (by simpa [hother u hut] using hu))
  case spinning =>
    intro u hu hlast
    obtain rfl : t = u := by simpa using hlast
    simp [hself] at hu
  case woken =>
    intro u hu hwait
    rcases head?_concat hu with hu | ⟨-, rfl⟩
    · exact h.woken_keep (by simp) (by simp [hpc]) (by simp [hpc]) u hu hwait
    · simp [hself] at hwait
  case owner =>
    intro u hu
    by_cases hut : u = t
    · subst hut
      simp [hself, Pc.owns] at hu
    · exact h.owner u (by simpa [hother u hut] using hu)

omit [DecidableEq T] in
/-- A thread that found a tail is not the first, and the tail is the one before it. -/
theorem Inv.swapped_follows (h : Inv s q) {oldTail : T} (hpc : s.pc t = .swapped (some oldTail)) :
    q.head? ≠ some t ∧ ∃ front back, q = front ++ oldTail :: t :: back := by
  have hnot : q.head? ≠ some t := fun hfirst => by
    rcases h.head t hfirst with ⟨-, hfresh⟩ | ⟨-, hbehind⟩
    · simp [hpc, Pc.first] at hfresh
    · simp [hpc, Pc.behind] at hbehind
  refine ⟨hnot, ?_⟩
  obtain ⟨front, back, rfl⟩ := List.append_of_mem (h.mem_of_queued (by rw [hpc]; rfl : _ = true))
  rcases List.eq_nil_or_concat front with rfl | ⟨front, a, rfl⟩
  · exact absurd rfl hnot
  · have hchain := h.chain
    rw [List.concat_eq_append, List.append_assoc, List.cons_append, List.nil_append] at hchain
    have hfollows := (List.isChain_append_cons_cons.mp hchain).2.1
    have hold : oldTail = a ∧ s.next a = none := by
      simpa [hpc, Pc.Follows, Pc.behind] using hfollows
    obtain rfl := hold.1
    exact ⟨front, back, by simp⟩

/-- The store to the `next` of the old tail, which is still in the queue. -/
theorem Inv.store (h : Inv s q) {oldTail : T} (hpc : s.pc t = .swapped (some oldTail)) :
    Inv { s.setPc t (.arriving true) with next := Function.update s.next oldTail (some t) } q := by
  obtain ⟨hnot, front, back, hsplit⟩ := h.swapped_follows hpc
  have hnodup : (front ++ oldTail :: t :: back).Nodup := hsplit ▸ h.nodup
  have hother : ∀ u ≠ t, Function.update s.pc t (.arriving true) u = s.pc u := fun u hu =>
    Function.update_of_ne hu ..
  refine h.change s.mutex s.head (Function.update s.next oldTail (some t)) ?_ (h.mutex_keep ?_) ?_
    ?_ ?_ (turn_keep (s := s) (.arriving true) ?_ ?_) ?_ ?_ (h.woken_keep ?_ ?_ ?_) ?_
  case refine_3 =>
    refine List.isChain_iff_forall_rel_of_append_cons_cons.mpr fun {a b l₁ l₂} hl => ?_
    have hab := List.isChain_iff_forall_rel_of_append_cons_cons.mp h.chain hl
    by_cases ha : a = oldTail
    · subst ha
      have hrest := (List.append_cons_inj_of_notMem (by grind) (by grind)).mp (hl.symm.trans hsplit)
      obtain rfl : b = t := (List.cons.inj hrest.2.2).1
      exact .inr ⟨by simp [Pc.behind], Function.update_self ..⟩
    · have hb : b ≠ t := by
        rintro rfl
        have hold : oldTail = a ∧ s.next a = none := by
          simpa [hpc, Pc.Follows, Pc.behind] using hab
        exact ha hold.1.symm
      rw [hother b hb, Function.update_of_ne ha]
      exact hab
  case refine_4 =>
    intro u hu
    have hne : u ≠ oldTail := by
      rintro rfl
      rw [hsplit, List.getLast?_append, List.getLast?_cons_cons] at hu
      grind
    rw [Function.update_of_ne hne]
    exact h.last u hu
  all_goals simp [hpc, hnot, Pc.queued, Pc.holds, Pc.first, Pc.behind, Pc.owns]

omit [DecidableEq T] in
theorem Pc.holds_of_owns {pc : Pc T} (h : pc.owns = true) : pc.holds = true := by
  cases pc <;> first | rfl | cases h

/-- The first of the queue is let in, and the one behind it is the next. -/
theorem Inv.pass {rest : List T} (h : Inv s (t :: rest)) (ht : (s.pc t).holds = true)
    (hbehind : ∀ b, rest.head? = some b → (s.pc b).behind = true) :
    Inv { s.setPc t (.passing rest.head?) with
      tail := rest.getLast?, entered := s.entered ++ [t] } rest := by
  have hout : t ∉ rest := (List.nodup_cons.mp h.nodup).1
  have hne : ∀ a ∈ rest, a ≠ t := fun a ha heq => hout (heq ▸ ha)
  have hself : (s.setPc t (.passing rest.head?)).pc t = .passing rest.head? :=
    Function.update_self ..
  have hother : ∀ u ≠ t, (s.setPc t (.passing rest.head?)).pc u = s.pc u := fun u hu =>
    Function.update_of_ne hu ..
  have hturn : Fifo.turn { s.setPc t (.passing rest.head?) with
      tail := rest.getLast?, entered := s.entered ++ [t] } = rest.head? := by
    simp only [Fifo.turn, Fifo.setPc, (h.mutex t).mpr ht, Option.map_some, Function.update_self]
  have hserved : ∀ u, u ≠ t → ¬ (s.pc u = .leaving ∨ s.pc u = .spinning) := fun u hu hpc =>
    hu (Option.some.inj (h.served u hpc)).symm
  refine ⟨?log, (List.nodup_cons.mp h.nodup).2, ?queued, h.mutex_keep ht.symm, rfl, ?chain,
    ?last, ?head, ?turn, ?served, ?spinning, ?woken, ?owner⟩
  case log => simp [Fifo.setPc, h.log]
  case queued =>
    intro u
    by_cases hu : u = t
    · subst hu
      simp [hself, Pc.queued, hout]
    · have hqueued := h.queued u
      simp only [List.mem_cons, hu, false_or] at hqueued
      simpa only [hother u hu] using hqueued
  case chain =>
    refine h.chain.tail.imp_of_mem_imp fun a b ha hb hab => ?_
    rw [hother b (hne b hb)]
    exact hab
  case last =>
    intro u hu
    refine h.last u ?_
    cases rest with
    | nil => cases hu
    | cons b rest => rwa [List.getLast?_cons_cons]
  case head =>
    intro u hu
    refine .inr ⟨hturn.trans hu, ?_⟩
    rw [hother u (hne u (List.mem_of_head? hu))]
    exact hbehind u hu
  case turn =>
    intro u hu
    exact hturn.symm.trans hu
  case served =>
    intro u hu
    by_cases hut : u = t
    · subst hut
      simp [hself] at hu
    · exact absurd (by simpa only [hother u hut] using hu) (hserved u hut)
  case spinning =>
    intro u hu
    by_cases hut : u = t
    · subst hut
      simp [hself] at hu
    · exact absurd (.inr (by simpa only [hother u hut] using hu)) (hserved u hut)
  case woken =>
    intro u hu hwait
    exact ⟨t, .inr ⟨_, hself⟩⟩
  case owner =>
    intro u hu
    by_cases hut : u = t
    · subst hut
      simp
    · rw [hother u hut] at hu
      exact absurd (h.mutex_unique (Pc.holds_of_owns hu) ht) hut

theorem Inv.pass_last (h : Inv s q) (hpc : s.pc t = .leaving) (htail : s.tail = some t) :
    Inv { s.setPc t (.passing none) with tail := none, entered := s.entered ++ [t] } [] := by
  have hfirst := h.served t (.inl hpc)
  obtain ⟨rest, rfl⟩ := List.head?_eq_some_iff.mp hfirst
  have hlast := h.tail.symm.trans htail
  obtain rfl : rest = [] := by
    cases rest with
    | nil => rfl
    | cons b rest =>
      rw [List.getLast?_cons_cons] at hlast
      exact absurd (List.mem_of_getLast? hlast) (List.nodup_cons.mp h.nodup).1
  exact h.pass (by rw [hpc]; rfl) (fun b hb => by cases hb)

theorem Inv.pass_next (h : Inv s q) {next : T} (hpc : s.pc t = .spinning)
    (hnext : s.next t = some next) : ∃ rest, q = t :: rest ∧
      Inv { s.setPc t (.passing (some next)) with entered := s.entered ++ [t] } rest := by
  obtain ⟨rest, rfl⟩ := List.head?_eq_some_iff.mp (h.served t (.inr hpc))
  refine ⟨rest, rfl, ?_⟩
  cases rest with
  | nil => exact absurd rfl (h.spinning t hpc)
  | cons b rest =>
    have hfollows := (List.isChain_cons_cons.mp h.chain).1
    obtain ⟨hbehind, hb⟩ : (s.pc b).behind = true ∧ s.next t = some b := by
      simpa [Pc.Follows, hnext] using hfollows
    obtain rfl := Option.some.inj (hnext.symm.trans hb)
    have htail : s.tail = (next :: rest).getLast? := h.tail.trans List.getLast?_cons_cons
    have hpass := h.pass (by rw [hpc]; rfl) fun c hc => by
      obtain rfl : next = c := by simpa using hc
      exact hbehind
    rw [← htail] at hpass
    exact hpass

theorem Inv.go (h : Inv s q) (hgo : s.go t = some s') : ∃ q', Inv s' q' := by
  unfold Fifo.go at hgo
  cases hpc : s.pc t with
  | idle | inside =>
    rw [hpc] at hgo
    cases hgo
  | entering =>
    simp only [hpc, Option.some.injEq] at hgo
    exact ⟨_, hgo ▸ h.exchange hpc⟩
  | swapped oldTail =>
    cases oldTail with
    | none =>
      simp only [hpc, Option.some.injEq] at hgo
      exact ⟨q, hgo ▸ h.arrive hpc⟩
    | some oldTail =>
      simp only [hpc, Option.some.injEq] at hgo
      exact ⟨q, hgo ▸ h.store hpc⟩
  | arriving queued =>
    simp only [hpc] at hgo
    split at hgo
    · exact ⟨q, Option.some.inj hgo ▸ h.take hpc ‹_›⟩
    · cases hgo
  | testing queued =>
    simp only [hpc] at hgo
    split at hgo
    · rename_i hwait
      obtain ⟨rfl, hhead⟩ := hwait
      exact ⟨q, Option.some.inj hgo ▸ h.sleep hpc hhead⟩
    · exact ⟨q, Option.some.inj hgo ▸ h.leave hpc ‹_›⟩
  | waiting signalled =>
    simp only [hpc] at hgo
    split at hgo
    · rename_i hfree
      exact ⟨q, Option.some.inj hgo ▸ h.resume hpc hfree.2⟩
    · cases hgo
  | leaving =>
    simp only [hpc] at hgo
    split at hgo
    · exact ⟨[], Option.some.inj hgo ▸ h.pass_last hpc ‹_›⟩
    · exact ⟨q, Option.some.inj hgo ▸ h.spin hpc ‹_›⟩
  | spinning =>
    simp only [hpc] at hgo
    obtain ⟨next, hnext, rfl⟩ := Option.map_eq_some_iff.mp hgo
    obtain ⟨rest, -, hpass⟩ := h.pass_next hpc hnext
    exact ⟨rest, hpass⟩
  | passing next =>
    simp only [hpc, Option.some.injEq] at hgo
    exact ⟨q, hgo ▸ h.enter hpc⟩
  | releasing again =>
    simp only [hpc, Option.some.injEq] at hgo
    exact ⟨q, hgo ▸ h.give hpc⟩

/-- A call or a wakeup is only taken at its place. -/
theorem step_cases {move : Fifo.Move} (hstep : s.step (t, move) = some s') :
    (move = .lock ∧ s.pc t = .idle ∧ s' = s.setPc t .entering) ∨
    (move = .go ∧ s.go t = some s') ∨
    (move = .unlock ∧ s.pc t = .inside ∧ s' = s.signal.setPc t (.releasing false)) ∨
    (move = .yield ∧ s.pc t = .inside ∧ (s' = s.signal.setPc t (.releasing true) ∨ s' = s)) ∨
    move = .wake ∧ s.pc t = .waiting false ∧ s' = s.setPc t (.waiting true) := by
  cases move with
  | go => exact .inr (.inl ⟨rfl, hstep⟩)
  | lock =>
    simp only [Fifo.step] at hstep
    split at hstep
    · exact .inl ⟨rfl, ‹_›, (Option.some.inj hstep).symm⟩
    · cases hstep
  | unlock =>
    simp only [Fifo.step] at hstep
    split at hstep
    · exact .inr (.inr (.inl ⟨rfl, ‹_›, (Option.some.inj hstep).symm⟩))
    · cases hstep
  | yield =>
    simp only [Fifo.step] at hstep
    split at hstep
    · split at hstep
      · exact .inr (.inr (.inr (.inl ⟨rfl, ‹_›, .inl (Option.some.inj hstep).symm⟩)))
      · exact .inr (.inr (.inr (.inl ⟨rfl, ‹_›, .inr (Option.some.inj hstep).symm⟩)))
    · cases hstep
  | wake =>
    simp only [Fifo.step] at hstep
    split at hstep
    · exact .inr (.inr (.inr (.inr ⟨rfl, ‹_›, (Option.some.inj hstep).symm⟩)))
    · cases hstep

theorem Inv.step (h : Inv s q) {i : T × Fifo.Move} (hstep : s.step i = some s') :
    ∃ q', Inv s' q' := by
  obtain ⟨t, move⟩ := i
  rcases step_cases hstep with ⟨-, hpc, rfl⟩ | ⟨-, hgo⟩ | ⟨-, hpc, rfl⟩ | ⟨-, hpc, rfl | rfl⟩ |
    ⟨-, hpc, rfl⟩
  · exact ⟨q, h.lock hpc⟩
  · exact h.go hgo
  · exact ⟨q, h.release hpc false⟩
  · exact ⟨q, h.release hpc true⟩
  · exact ⟨q, h⟩
  · exact ⟨q, h.wake hpc⟩

theorem inv_run {moves : List (T × Fifo.Move)}
    (hrun : Runs.run Fifo.step (Fifo.initializer : Fifo T) moves = some s) : ∃ q, Inv s q :=
  Runs.run_preserves (I := fun s => ∃ q, Inv s q) (fun _ _ _ hs hstep =>
    hs.elim fun _ hs => hs.step hstep) _ _ moves ⟨[], inv_initializer⟩ hrun

/-- In every interleaving of any threads, one thread has the mutex, the threads are let in in
the order of their exchanges, and the waiters that are written to or signalled are there. -/
theorem fifo_in_order {moves : List (T × Fifo.Move)}
    (hrun : Runs.run Fifo.step (Fifo.initializer : Fifo T) moves = some s) :
    (∀ t u, (s.pc t).holds → (s.pc u).holds → t = u) ∧
    (∃ q, s.arrived = s.entered ++ q ∧ q.Nodup ∧ ∀ t, t ∈ q ↔ (s.pc t).queued) ∧
    (∀ t, s.pc t = .inside → s.entered.getLast? = some t) ∧
    (∀ t oldTail, s.pc t = .swapped (some oldTail) → (s.pc oldTail).queued) ∧
    ∀ t head, s.pc t = .inside → s.head = some head → (s.pc head).queued := by
  obtain ⟨q, h⟩ := inv_run hrun
  refine ⟨fun t u => h.mutex_unique, ⟨q, h.log, h.nodup, h.queued⟩, fun t ht => ?_,
    fun t oldTail ht => ?_, fun t head ht hhead => ?_⟩
  · exact h.owner t (by rw [ht]; rfl)
  · obtain ⟨-, front, back, rfl⟩ := h.swapped_follows ht
    exact (h.queued oldTail).mp (List.mem_append_right _ (.head _))
  · have hturn : s.turn = s.head := h.turn_held (by rw [ht]; rfl) (by simp [ht])
    exact (h.queued head).mp (List.mem_of_head? (h.turn head (hturn.trans hhead)))

/-- The second thread came to the mutex before the first one, but behind it in the queue; the
first one is let in. -/
def contended : List (Bool × Fifo.Move) :=
  [(false, .lock), (true, .lock), (false, .go), (true, .go), (false, .go), (true, .go),
    (true, .go), (true, .go), (false, .go), (false, .go), (false, .go), (false, .go),
    (false, .go)]

def contendedState : Fifo Bool :=
  (Runs.run Fifo.step Fifo.initializer contended).get (by decide)

theorem fifo_in_order_contended : contendedState.entered.getLast? = some false ∧
    (∃ q, [false, true] = contendedState.entered ++ q ∧ true ∈ q) ∧
    (contendedState.pc true).queued := by
  obtain ⟨-, ⟨q, hlog, -, hq⟩, hlast, -, hhead⟩ :=
    fifo_in_order (s := contendedState) (Option.some_get _).symm
  exact ⟨hlast false rfl, ⟨q, hlog, (hq true).mpr rfl⟩, hhead false true rfl rfl⟩

end GracefulMusic.Locking
