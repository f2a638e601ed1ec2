import GracefulMusic.Locking.FifoMutex
import Mathlib.Algebra.Order.BigOperators.Group.List
import Mathlib.Algebra.Order.Ring.Nat

/-! Everybody who asks for the mutex gets it.

Each step of a thread brings it nearer to its end, and none takes another one back. A thread
that has to wait does so for one that can go on, or for one that has the mutex. -/
namespace GracefulMusic.Locking

variable {T : Type}

/-- How far a thread is from its end; one that is tested or wakes in its turn does not wait
again. -/
def Pc.rank (turn : Bool) : Pc T → Nat
  | .idle => 0
  | .releasing false => 1
  | .inside => 2
  | .passing _ => 3
  | .spinning => 4
  | .leaving => 5
  | .testing queued => if queued ∧ !turn then 9 else 6
  | .waiting false => 8
  | .waiting true => if turn then 7 else 10
  | .arriving _ => 11
  | .swapped _ => 12
  | .entering => 13
  | .releasing true => 14

theorem Pc.rank_turn (pc : Pc T) {turn turn' : Bool} (h : turn = true → turn' = true) :
    pc.rank turn' ≤ pc.rank turn := by
  have hle : pc.rank true ≤ pc.rank false := by
    cases pc with
    | testing queued | waiting queued | releasing queued =>
      cases queued
      all_goals simp [Pc.rank]
    | _ => exact le_rfl
  cases turn with
  | true => rw [h rfl]
  | false =>
    cases turn' with
    | true => exact hle
    | false => exact le_rfl

theorem Pc.rank_le (pc : Pc T) (turn : Bool) : pc.rank turn ≤ 14 := by
  cases turn <;> unfold Pc.rank <;> split <;> try split
  all_goals omega

theorem Pc.rank_eq_zero {pc : Pc T} {turn : Bool} : pc.rank turn = 0 ↔ pc = .idle := by
  unfold Pc.rank
  constructor
  · intro h
    split at h <;> try split at h
    all_goals first | rfl | cases h
  · rintro rfl
    rfl

variable [DecidableEq T] {s s' : Fifo T} {q : List T} {t u : T}

def Fifo.rank (s : Fifo T) (t : T) : Nat := (s.pc t).rank (s.turn = some t)

/-- A step of a thread when the turn stays with everybody else who has it. -/
theorem rank_step (pc : Pc T) (hpc : ∀ u, s'.pc u = Function.update s.pc t pc u)
    (hturn : ∀ u ≠ t, s.turn = some u → s'.turn = some u)
    (hless : pc.rank (s'.turn = some t) < (s.pc t).rank (s.turn = some t)) :
    s'.rank t < s.rank t ∧ ∀ u ≠ t, s'.rank u ≤ s.rank u := by
  refine ⟨?_, fun u hu => ?_⟩
  · rw [Fifo.rank, hpc, Function.update_self]
    exact hless
  · rw [Fifo.rank, hpc, Function.update_of_ne hu]
    exact Pc.rank_turn _ fun h => by simpa using hturn u hu (by simpa using h)

theorem Inv.go_rank (h : Inv s q) (hgo : s.go t = some s') :
    s'.rank t < s.rank t ∧ ∀ u ≠ t, s'.rank u ≤ s.rank u := by
  unfold Fifo.go at hgo
  cases hpc : s.pc t with
  | idle | inside =>
    rw [hpc] at hgo
    cases hgo
  | entering =>
    simp only [hpc, Option.some.injEq] at hgo
    subst hgo
    have hturn : Fifo.turn (s.setPc t (.swapped s.tail)) = s.turn :=
      turn_keep _ (by simp [hpc]) (by simp)
    refine rank_step (.swapped s.tail) (fun _ => rfl) (fun u _ hu => hturn.trans hu) ?_
    simp [hpc, Pc.rank]
  | swapped oldTail =>
    cases oldTail with
    | none =>
      simp only [hpc, Option.some.injEq] at hgo
      subst hgo
      refine rank_step (.arriving false) (fun _ => rfl) (fun u _ hu =>
        (turn_keep _ (by simp [hpc]) (by simp)).trans hu) ?_
      simp [hpc, Pc.rank]
    | some oldTail =>
      simp only [hpc, Option.some.injEq] at hgo
      subst hgo
      have hturn : Fifo.turn (s.setPc t (.arriving true)) = s.turn :=
        turn_keep _ (by simp [hpc]) (by simp)
      refine rank_step (.arriving true) (fun _ => rfl) (fun u _ hu => hturn.trans hu) ?_
      simp [hpc, Pc.rank]
  | arriving queued =>
    simp only [hpc] at hgo
    split at hgo
    · rename_i hfree
      obtain rfl := Option.some.inj hgo
      refine rank_step (.testing queued) (fun _ => rfl) (fun u _ hu =>
        (turn_take hfree (by simp)).trans hu) ?_
      simp only [hpc, Pc.rank]
      split <;> omega
    · cases hgo
  | testing queued =>
    have hholds : (s.pc t).holds = true := by rw [hpc]; rfl
    have hhead : s.turn = s.head := h.turn_held hholds (by simp [hpc])
    simp only [hpc] at hgo
    split at hgo
    · rename_i hwait
      obtain rfl := Option.some.inj hgo
      refine rank_step (.waiting false) (fun _ => rfl) (fun u _ hu =>
        (h.turn_give hholds (by simp [hpc])).trans hu) ?_
      simp [hpc, Pc.rank, hhead, hwait]
    · obtain rfl := Option.some.inj hgo
      refine rank_step .leaving (fun _ => rfl) (fun u _ hu =>
        (turn_keep _ (by simp [hpc]) (by simp)).trans hu) ?_
      simp only [hpc, Pc.rank]
      split <;> omega
  | waiting signalled =>
    simp only [hpc] at hgo
    split at hgo
    · rename_i hfree
      obtain ⟨rfl, hfree⟩ := hfree
      obtain rfl := Option.some.inj hgo
      have hturn : Fifo.turn { s.setPc t (.testing true) with mutex := some t } = s.turn :=
        turn_take hfree (by simp)
      refine rank_step (.testing true) (fun _ => rfl) (fun u _ hu => hturn.trans hu) ?_
      rw [hturn, hpc]
      by_cases ht : s.turn = some t <;> simp [Pc.rank, ht]
    · cases hgo
  | leaving =>
    simp only [hpc] at hgo
    have hothers : ∀ u ≠ t, s.turn ≠ some u := fun u hu hturn =>
      hu (Option.some.inj ((h.turn u hturn).symm.trans (h.served t (.inl hpc))))
    split at hgo
    · obtain rfl := Option.some.inj hgo
      refine rank_step (.passing none) (fun _ => rfl) (fun u hu hturn =>
        absurd hturn (hothers u hu)) ?_
      simp [hpc, Pc.rank]
    · obtain rfl := Option.some.inj hgo
      refine rank_step .spinning (fun _ => rfl) (fun u hu hturn =>
        absurd hturn (hothers u hu)) ?_
      simp [hpc, Pc.rank]
  | spinning =>
    simp only [hpc] at hgo
    have hothers : ∀ u ≠ t, s.turn ≠ some u := fun u hu hturn =>
      hu (Option.some.inj ((h.turn u hturn).symm.trans (h.served t (.inr hpc))))
    obtain ⟨next, hnext, rfl⟩ := Option.map_eq_some_iff.mp hgo
    refine rank_step (.passing (some next)) (fun _ => rfl) (fun u hu hturn =>
      absurd hturn (hothers u hu)) ?_
    simp [hpc, Pc.rank]
  | passing next =>
    simp only [hpc, Option.some.injEq] at hgo
    subst hgo
    have hmutex : s.mutex = some t := (h.mutex t).mpr (by rw [hpc]; rfl)
    refine rank_step .inside (fun _ => rfl) (fun u _ hu => ?_) ?_
    · simpa [Fifo.turn, Fifo.setPc, hmutex, hpc] using hu
    · simp [hpc, Pc.rank]
  | releasing again =>
    simp only [hpc, Option.some.injEq] at hgo
    subst hgo
    refine rank_step (if again then .entering else .idle) (fun _ => rfl) (fun u _ hu =>
      (h.turn_give (by rw [hpc]; rfl) (by simp [hpc])).trans hu) ?_
    cases again <;> simp [hpc, Pc.rank]

/-- The signal comes to the thread that has the turn. -/
theorem Inv.unlock_rank (h : Inv s q) (hpc : s.pc t = .inside) :
    (s.signal.setPc t (.releasing false)).rank t < s.rank t ∧
      ∀ u ≠ t, (s.signal.setPc t (.releasing false)).rank u ≤ s.rank u := by
  have hhead : s.turn = s.head := h.turn_held (by rw [hpc]; rfl) (by simp [hpc])
  have hafter := h.release hpc false
  have hself : (s.signal.setPc t (.releasing false)).pc t = .releasing false :=
    Function.update_self ..
  have hturn : (s.signal.setPc t (.releasing false)).turn = s.turn := by
    rw [hafter.turn_held (t := t) (by rw [hself]; rfl) (by simp [hself]), hhead]
    exact (signal_shared s).1
  refine ⟨?_, fun u hu => ?_⟩
  · rw [Fifo.rank, Fifo.rank, hself, hpc]
    exact Nat.lt_succ_self 1
  · have hother : (s.signal.setPc t (.releasing false)).pc u = s.signal.pc u :=
      Function.update_of_ne hu ..
    rw [Fifo.rank, Fifo.rank, hturn, hother]
    rcases signal_pc s u with hsame | ⟨hnext, hwait, hsignalled⟩
    · rw [hsame]
    · rw [hsignalled, hwait, hhead, hnext]
      simp [Pc.rank]

/-- Where nothing can be done, and nobody has the mutex to give it back, nobody waits. -/
theorem Inv.idle_of_stuck (h : Inv s q) (hgo : ∀ t, s.go t = none) (hin : ∀ t, s.pc t ≠ .inside)
    (t : T) : s.pc t = .idle := by
  have hentering : ∀ t, s.pc t ≠ .entering := fun t hpc => by
    have := hgo t
    simp [Fifo.go, hpc] at this
  have hswapped : ∀ t oldTail, s.pc t ≠ .swapped oldTail := fun t oldTail hpc => by
    have := hgo t
    cases oldTail <;> simp [Fifo.go, hpc] at this
  have htesting : ∀ t queued, s.pc t ≠ .testing queued := fun t queued hpc => by
    have := hgo t
    simp only [Fifo.go, hpc] at this
    split at this <;> cases this
  have hleaving : ∀ t, s.pc t ≠ .leaving := fun t hpc => by
    have := hgo t
    simp only [Fifo.go, hpc] at this
    split at this <;> cases this
  have hpassing : ∀ t next, s.pc t ≠ .passing next := fun t next hpc => by
    have := hgo t
    simp [Fifo.go, hpc] at this
  have hreleasing : ∀ t again, s.pc t ≠ .releasing again := fun t again hpc => by
    have := hgo t
    simp [Fifo.go, hpc] at this
  have hspinning : ∀ t, s.pc t ≠ .spinning := fun t hpc => by
    have hnone : s.next t = none := by
      have := hgo t
      simpa [Fifo.go, hpc] using this
    -- the thread behind it has not stored itself there yet
    obtain ⟨rest, rfl⟩ := List.head?_eq_some_iff.mp (h.served t (.inr hpc))
    cases rest with
    | nil => exact h.spinning t hpc rfl
    | cons b rest =>
      have hfollows := (List.isChain_cons_cons.mp h.chain).1
      rcases hfollows with ⟨hb, -⟩ | ⟨-, hb⟩
      · exact hswapped b _ hb
      · cases hnone.symm.trans hb
  have hfree : s.mutex = none := by
    refine Option.eq_none_iff_forall_ne_some.mpr fun p hp => ?_
    have hholds := (h.mutex p).mp hp
    cases hpc : s.pc p with
    | testing queued => exact htesting p queued hpc
    | leaving => exact hleaving p hpc
    | spinning => exact hspinning p hpc
    | passing next => exact hpassing p next hpc
    | inside => exact hin p hpc
    | releasing again => exact hreleasing p again hpc
    | _ => simp [hpc, Pc.holds] at hholds
  have harriving : ∀ t queued, s.pc t ≠ .arriving queued := fun t queued hpc => by
    have := hgo t
    simp [Fifo.go, hpc, hfree] at this
  have hsignalled : ∀ t, s.pc t ≠ .waiting true := fun t hpc => by
    have := hgo t
    simp [Fifo.go, hpc, hfree] at this
  have hq : q = [] := by
    cases q with
    | nil => rfl
    | cons a q =>
      have hqueued := (h.queued a).mp (.head _)
      cases hpc : s.pc a with
      | waiting signalled =>
        cases signalled with
        | true => exact absurd hpc (hsignalled a)
        | false =>
          obtain ⟨p, hp | ⟨next, hp⟩⟩ := h.woken a rfl hpc
          · exact absurd hp (hin p)
          · exact absurd hp (hpassing p next)
      | swapped oldTail => exact absurd hpc (hswapped a oldTail)
      | arriving queued => exact absurd hpc (harriving a queued)
      | testing queued => exact absurd hpc (htesting a queued)
      | leaving => exact absurd hpc (hleaving a)
      | spinning => exact absurd hpc (hspinning a)
      | _ => simp [hpc, Pc.queued] at hqueued
  have hout : (s.pc t).queued = false := by
    have hmem := h.queued t
    simpa [hq] using hmem
  cases hpc : s.pc t with
  | idle => rfl
  | entering => exact absurd hpc (hentering t)
  | passing next => exact absurd hpc (hpassing t next)
  | inside => exact absurd hpc (hin t)
  | releasing again => exact absurd hpc (hreleasing t again)
  | _ => simp [hpc, Pc.queued] at hout

/-! ### Runs without new calls -/

/-- Threads go on, and those that have the mutex give it back. -/
def Onward (i : T × Fifo.Move) : Prop := i.2 = .go ∨ i.2 = .unlock

theorem Inv.onward_rank (h : Inv s q) {i : T × Fifo.Move} (hi : Onward i)
    (hstep : s.step i = some s') :
    s'.rank i.1 < s.rank i.1 ∧ ∀ u ≠ i.1, s'.rank u ≤ s.rank u := by
  obtain ⟨t, move⟩ := i
  rcases step_cases hstep with ⟨rfl, -⟩ | ⟨-, hgo⟩ | ⟨-, hpc, rfl⟩ | ⟨rfl, -⟩ | ⟨rfl, -⟩
  · rcases hi with hi | hi <;> cases hi
  · exact h.go_rank hgo
  · exact h.unlock_rank hpc
  · rcases hi with hi | hi <;> cases hi
  · rcases hi with hi | hi <;> cases hi

/-- Every step costs some of the rank of the threads that are not idle. -/
theorem Inv.onward_run {moves : List (T × Fifo.Move)} {threads : List T} (h : Inv s q)
    (hmoves : ∀ i ∈ moves, Onward i) (hthreads : ∀ t, s.pc t ≠ .idle → t ∈ threads)
    (hrun : Runs.run Fifo.step s moves = some s') :
    moves.length + (threads.map s'.rank).sum ≤ (threads.map s.rank).sum := by
  induction moves generalizing s q with
  | nil =>
    cases hrun
    simp
  | cons i moves ih =>
    obtain ⟨s₁, hstep, hrest⟩ := Option.bind_eq_some_iff.mp hrun
    obtain ⟨q₁, h₁⟩ := h.step hstep
    obtain ⟨hless, hothers⟩ := h.onward_rank (hmoves i (.head _)) hstep
    have hle : ∀ u, s₁.rank u ≤ s.rank u := fun u => by
      by_cases hu : u = i.1
      · exact hu ▸ hless.le
      · exact hothers u hu
    have hactive : ∀ t, s₁.pc t ≠ .idle → t ∈ threads := fun t ht => by
      refine hthreads t fun hidle => ht ?_
      have hzero : s.rank t = 0 := Pc.rank_eq_zero.mpr hidle
      have hzero₁ : s₁.rank t = 0 := Nat.le_zero.mp (hzero ▸ hle t)
      exact Pc.rank_eq_zero.mp hzero₁
    have hi : i.1 ∈ threads := hthreads i.1 fun hidle => by
      have hzero : s.rank i.1 = 0 := Pc.rank_eq_zero.mpr hidle
      omega
    have hsum : (threads.map s₁.rank).sum < (threads.map s.rank).sum :=
      List.sum_lt_sum _ _ (fun u _ => hle u) ⟨i.1, hi, hless⟩
    have hrest := ih h₁ (fun j hj => hmoves j (.tail _ hj)) hactive hrest
    rw [List.length_cons]
    omega

/-- Only the exchange is written down, at the end. -/
theorem arrived_step {i : T × Fifo.Move} (hi : Onward i) (hstep : s.step i = some s') :
    s.arrived <+: s'.arrived := by
  obtain ⟨t, move⟩ := i
  rcases step_cases hstep with ⟨rfl, -⟩ | ⟨-, hgo⟩ | ⟨-, -, rfl⟩ | ⟨rfl, -⟩ | ⟨rfl, -⟩
  · rcases hi with hi | hi <;> cases hi
  · unfold Fifo.go at hgo
    split at hgo
    case h_2 =>
      cases hgo
      exact List.prefix_append ..
    case h_9 =>
      obtain ⟨next, -, rfl⟩ := Option.map_eq_some_iff.mp hgo
      exact List.prefix_refl _
    all_goals try split at hgo
    all_goals
      cases hgo
    all_goals exact List.prefix_refl _
  · rw [← (signal_shared s).2.2.2.2.1]
    exact List.prefix_refl _
  · rcases hi with hi | hi <;> cases hi
  · rcases hi with hi | hi <;> cases hi

theorem arrived_run {moves : List (T × Fifo.Move)} (hmoves : ∀ i ∈ moves, Onward i)
    (hrun : Runs.run Fifo.step s moves = some s') : s.arrived <+: s'.arrived := by
  induction moves generalizing s with
  | nil =>
    cases hrun
    exact List.prefix_refl _
  | cons i moves ih =>
    obtain ⟨s₁, hstep, hrest⟩ := Option.bind_eq_some_iff.mp hrun
    exact (arrived_step (hmoves i (.head _)) hstep).trans
      (ih (fun j hj => hmoves j (.tail _ hj)) hrest)

/-- The first thread gives the mutex back, and the second one comes to its end. -/
def handover : List (Bool × Fifo.Move) :=
  [(false, .unlock), (false, .go), (true, .go), (true, .go), (true, .go), (true, .go),
    (true, .unlock), (true, .go)]

def handedOver : Fifo Bool := (Runs.run Fifo.step contendedState handover).get (by decide)

end GracefulMusic.Locking
