import GracefulMusic.Player.Handshake

/-! When the threads of the player stop.

They do not, as long as the consumer's request and the main thread's need of the player's
locks do not meet. Otherwise the two wait for each other. -/
namespace GracefulMusic.Player.Threads
open Locks

/-- The consumer takes nothing out of the pipe. -/
theorem requested_of_consumer {σ σ' : Shared} {a : Act} {more : Code} {held : Finset Lock}
    (hact : act σ .consumer a = some (σ', more)) (hneed : need .consumer (.act a) held)
    (hrequested : σ.requested = true) : σ'.requested = true := by
  cases a with
  | notify =>
    cases hact
    rfl
  | check =>
    rw [act] at hact
    split at hact
    · cases hact
      exact hrequested
    · cases hact
      exact hrequested
  | sleep =>
    rw [act] at hact
    split at hact
    · cases hact
    · cases hact
      exact hrequested
  | waitPlaying =>
    cases hact
    exact hrequested
  | clearPipe | provide | broadcast => cases hneed

/-! ### Beginning -/

theorem act_not_mem_reports (a : Act) (n : Nat) : .act a ∉ reports n := by
  induction n with
  | zero => simp [reports]
  | succ n ih => simpa [reports] using ih

theorem lock_not_mem_reports {l : Lock} (hl : l ≠ .playerInfo) (n : Nat) :
    .lock l ∉ reports n := by
  induction n with
  | zero => simp [reports]
  | succ n ih => simpa [reports, hl] using ih

theorem act_not_mem_checks (a : Act) (n : Nat) : .act a ∉ checks n := by
  induction n with
  | zero => simp [checks]
  | succ n ih => simpa [checks] using ih

theorem MainCode.mainAt (c : MainCode) : MainAt c.code := by
  cases c with
  | player n =>
    exact .player (by simp [MainCode.code, lock_not_mem_reports])
      (by simp [MainCode.code, act_not_mem_reports])
  | volume => exact .player (by simp [MainCode.code]) (by simp [MainCode.code])
  | info =>
    exact .player (by simp [MainCode.code, reports]) (by simp [MainCode.code, reports])
  | provide => exact .clearPipe

theorem MainCode.not_providing (c : MainCode) : ¬Providing c.code := by
  rintro (h | h) <;> cases c <;> cases h

theorem InnerEnd.quiet (e : InnerEnd) : Quiet e.code := by
  cases e with
  | eof asks n =>
    cases asks <;>
      simp [Quiet, InnerEnd.code, consumerHandleEof, cmusGetNextFromOtherThread,
        act_not_mem_reports]
  | _ => simp [Quiet, InnerEnd.code, act_not_mem_reports]

theorem ConsumerRound.quiet (r : ConsumerRound) : Quiet r.code := by
  cases r with
  | inner n last =>
    obtain ⟨hcheck, hsleep⟩ := last.quiet
    simp [Quiet, ConsumerRound.code, act_not_mem_checks, hcheck, hsleep]
  | _ => simp [Quiet, ConsumerRound.code, act_not_mem_reports]

theorem step_main {s s' : State} {c : MainCode} (hstep : step s (.main c) = some s') :
    s.code .main = [] ∧ s' = begin s .main c.code ∧
      (.act .clearPipe ∈ c.code → s.shared.requested = true) := by
  cases c with
  | provide =>
    obtain ⟨hidle, hs⟩ := Option.ite_none_right_eq_some.mp hstep
    exact ⟨hidle.1, (Option.some.inj hs).symm, fun _ => hidle.2⟩
  | player n =>
    obtain ⟨hidle, hs⟩ := Option.ite_none_right_eq_some.mp hstep
    exact ⟨hidle, (Option.some.inj hs).symm, by simp [MainCode.code, act_not_mem_reports]⟩
  | volume =>
    obtain ⟨hidle, hs⟩ := Option.ite_none_right_eq_some.mp hstep
    exact ⟨hidle, (Option.some.inj hs).symm, by simp [MainCode.code]⟩
  | info =>
    obtain ⟨hidle, hs⟩ := Option.ite_none_right_eq_some.mp hstep
    exact ⟨hidle, (Option.some.inj hs).symm, by simp [MainCode.code, act_not_mem_reports]⟩

theorem step_consumer {s s' : State} {r : ConsumerRound} (hstep : step s (.consumer r) = some s') :
    s.code .consumer = [] ∧ s' = begin s .consumer r.code := by
  obtain ⟨hidle, hs⟩ := Option.ite_none_right_eq_some.mp hstep
  exact ⟨hidle, (Option.some.inj hs).symm⟩

theorem step_producer {s s' : State} {r : ProducerRound} (hstep : step s (.producer r) = some s') :
    s.code .producer = [] ∧ s' = begin s .producer r.code := by
  obtain ⟨hidle, hs⟩ := Option.ite_none_right_eq_some.mp hstep
  exact ⟨hidle, (Option.some.inj hs).symm⟩

namespace Inv
variable {s s' : State}

theorem init : Inv init where
  disciplined t := by
    have hheld : held Threads.init t = ∅ := by
      ext l
      simp [mem_held, Threads.init]
    rw [hheld]
    exact Kept.nil rfl
  main := .player (by simp [Threads.init]) (by simp [Threads.init])
  phase := by
    refine .quiet rfl rfl ?_ ⟨by simp [Threads.init], by simp [Threads.init]⟩
    rintro (h | h) <;> cases h
  locks := nofun
  answer := nofun

/-- The locks are the consumer's as long as it waits. -/
theorem hasLocks_other (h : Inv s) {t : Thread} (ht : t ≠ .consumer)
    (hstep : Locks.step act s t = some s') (hlocks : HasLocks s) : HasLocks s' := by
  have hkeep : ∀ l, s.holder l = some .consumer → s'.holder l = some .consumer := by
    intro l hl
    have hord := h.disciplined t
    obtain ⟨i, rest, hcode, ⟨k, rfl, hfree, rfl⟩ | ⟨k, rfl, rfl⟩ | ⟨a, shared, more, rfl, -, rfl⟩⟩ :=
      step_cases hstep
    · have hne : l ≠ k := fun heq => by simp [← heq, hl] at hfree
      exact (Function.update_of_ne hne ..).trans hl
    · rw [hcode] at hord
      have hk : s.holder k = some t := mem_held.mp hord.2.1
      have hne : l ≠ k := fun heq => by
        rw [heq, hk] at hl
        exact ht (Option.some.inj hl)
      exact (Function.update_of_ne hne ..).trans hl
    · exact hl
  exact ⟨hkeep _ hlocks.1, hkeep _ hlocks.2.1, hkeep _ hlocks.2.2⟩

theorem go_consumer (h : Inv s) (hstep : Locks.step act s .consumer = some s') : Inv s' := by
  have hd := h.disciplined.step kept_act hstep
  have hord := h.disciplined .consumer
  have hphase := h.phase
  obtain ⟨i, rest, hcode, ⟨l, rfl, hfree, rfl⟩ | ⟨l, rfl, rfl⟩ |
    ⟨a, shared, more, rfl, hshared, rfl⟩⟩ := step_cases hstep
  · rw [hcode] at hphase
    refine ⟨hd, h.main, by simpa using hphase.consumer_lock, fun hrequested => ?_, h.answer⟩
    obtain ⟨hc, hp, hr⟩ := h.locks hrequested
    have hkeep : ∀ k, s.holder k = some .consumer →
        Function.update s.holder l (some .consumer) k = some .consumer := fun k hk => by
      by_cases hkl : k = l
      · rw [hkl, Function.update_self]
      · rw [Function.update_of_ne hkl, hk]
    exact ⟨hkeep _ hc, hkeep _ hp, hkeep _ hr⟩
  · rw [hcode] at hphase
    refine ⟨hd, h.main, by simpa using hphase.consumer_unlock, fun hrequested => ?_, h.answer⟩
    obtain ⟨hc, hp, hr⟩ := h.locks hrequested
    -- a consumer that waits gives back nothing but the lock of the file
    have hl : l = .nextFile := by
      cases hphase with
      | asked _ _ _ hw =>
        cases hw
        rfl
      | quiet hn | answering hn | answered hn => exact absurd (hn.symm.trans hrequested) nofun
    subst hl
    exact ⟨by simpa using hc, by simpa using hp, by simpa using hr⟩
  · rw [hcode] at hphase hord
    refine ⟨hd, h.main, by simpa using hphase.consumer_act hshared hord.1, fun hrequested => ?_,
      fun hclear => requested_of_consumer hshared hord.1 (h.answer hclear)⟩
    by_cases ha : a = .notify
    · subst ha
      obtain ⟨hc, hp, hr, -⟩ := hord.1
      exact ⟨mem_held.mp hc, mem_held.mp hp, mem_held.mp hr⟩
    · exact h.locks (requested_of_act hshared ha hrequested)

theorem go_main (h : Inv s) (hstep : Locks.step act s .main = some s') :
    Inv s' ∧ Begun (s'.code .main) := by
  have hd := h.disciplined.step kept_act hstep
  have hphase := h.phase
  have hmain := h.main
  have hlocks := h.hasLocks_other (t := .main) nofun hstep
  obtain ⟨i, rest, hcode, ⟨l, rfl, hfree, rfl⟩ | ⟨l, rfl, rfl⟩ |
    ⟨a, shared, more, rfl, hshared, rfl⟩⟩ := step_cases hstep
  · rw [hcode] at hphase hmain
    obtain ⟨hp, hm, hfirst⟩ := hphase.main_lock hmain
    exact ⟨⟨hd, by simpa using hm, by simpa using hp, fun hr => hlocks (h.locks hr),
      fun hclear => absurd (by simpa using hclear) hfirst.2⟩, by simpa using hfirst⟩
  · rw [hcode] at hphase hmain
    obtain ⟨hp, hm, hfirst⟩ := hphase.main_unlock hmain
    exact ⟨⟨hd, by simpa using hm, by simpa using hp, fun hr => hlocks (h.locks hr),
      fun hclear => absurd (by simpa using hclear) hfirst.2⟩, by simpa using hfirst⟩
  · rw [hcode] at hphase hmain
    obtain ⟨hp, hm, hfirst, hr⟩ := hphase.main_act hmain hshared
    exact ⟨⟨hd, by simpa using hm, by simpa using hp, fun hr' => hlocks (h.locks (hr hr')),
      fun hclear => absurd (by simpa using hclear) hfirst.2⟩, by simpa using hfirst⟩

/-- The producer takes no part in the handshake. -/
theorem go_producer (h : Inv s) (hstep : Locks.step act s .producer = some s') :
    Inv s' ∧ s'.shared = s.shared ∧ s'.code .main = s.code .main := by
  have hd := h.disciplined.step kept_act hstep
  have hord := h.disciplined .producer
  have hlocks := h.hasLocks_other (t := .producer) nofun hstep
  obtain ⟨i, rest, hcode, ⟨l, rfl, hfree, rfl⟩ | ⟨l, rfl, rfl⟩ |
    ⟨a, shared, more, rfl, hshared, rfl⟩⟩ := step_cases hstep
  · exact ⟨⟨hd, h.main, h.phase, fun hr => hlocks (h.locks hr), h.answer⟩, rfl, rfl⟩
  · exact ⟨⟨hd, h.main, h.phase, fun hr => hlocks (h.locks hr), h.answer⟩, rfl, rfl⟩
  · rw [hcode] at hord
    cases a with
    | waitPlaying =>
      cases hshared
      exact ⟨⟨hd, h.main, h.phase, fun hr => hlocks (h.locks hr), h.answer⟩, rfl, rfl⟩
    | _ => cases hord.1

theorem begin_main (h : Inv s) (hidle : s.code .main = []) (c : MainCode)
    (hanswer : .act .clearPipe ∈ c.code → s.shared.requested = true) :
    Inv (begin s .main c.code) := by
  have hphase := h.phase
  rw [hidle] at hphase
  have hp : ¬Providing ([] : Code) := by rintro (h | h) <;> cases h
  have hw : ¬Waking ([] : Code) := by rintro (h | h) <;> cases h
  exact ⟨h.disciplined.begin hidle c.kept, by simpa [begin] using c.mainAt,
    by simpa [begin] using hphase.main_goes hp hw c.not_providing, h.locks,
    by simpa [begin] using hanswer⟩

theorem begin_consumer (h : Inv s) (hidle : s.code .consumer = []) (r : ConsumerRound) :
    Inv (begin s .consumer r.code) := by
  have hphase := h.phase
  rw [hidle] at hphase
  exact ⟨h.disciplined.begin hidle r.kept, h.main,
    by simpa [begin] using hphase.consumer_goes (fun _ => r.quiet) nofun, h.locks, h.answer⟩

theorem begin_producer (h : Inv s) (hidle : s.code .producer = []) (r : ProducerRound) :
    Inv (begin s .producer r.code) :=
  ⟨h.disciplined.begin hidle r.kept, h.main, h.phase, h.locks, h.answer⟩

/-! ### The deadlock -/

/-- Of what the consumer does, only its call makes a request; it leaves the main thread's code
alone. -/
theorem requested_consumer (hstep : Locks.step act s .consumer = some s') :
    s'.code .main = s.code .main ∧
      ((s.code .consumer).head? = some (.act .notify) → s'.shared.requested = true) ∧
      ((s.code .consumer).head? ≠ some (.act .notify) → s'.shared.requested = true →
        s.shared.requested = true) := by
  obtain ⟨i, rest, hcode, ⟨l, rfl, -, rfl⟩ | ⟨l, rfl, rfl⟩ |
    ⟨a, shared, more, rfl, hshared, rfl⟩⟩ := step_cases hstep
  · exact ⟨rfl, by simp [hcode], fun _ => id⟩
  · exact ⟨rfl, by simp [hcode], fun _ => id⟩
  · refine ⟨rfl, fun hn => ?_, fun hn => requested_of_act hshared ?_⟩
    · have ha : a = .notify := by simpa [hcode] using hn
      subst ha
      cases hshared
      rfl
    · simpa [hcode] using hn

/-- While the consumer waits, the main thread waits for it exactly when it asks for a lock
of the player. -/
theorem deadlock_iff (h : Inv s) :
    Deadlock s ↔ s.shared.requested = true ∧
      (wants s .main = some .consumer ∨ wants s .main = some .producer) := by
  constructor
  · rintro ⟨hr, l, rfl | rfl, hwants, -⟩
    · exact ⟨hr, .inl hwants⟩
    · exact ⟨hr, .inr hwants⟩
  · rintro ⟨hr, hwants | hwants⟩
    · exact ⟨hr, _, .inl rfl, hwants, (h.locks hr).1⟩
    · exact ⟨hr, _, .inr rfl, hwants, (h.locks hr).2.1⟩

theorem code_of_wants {t : Thread} {l : Lock} (hwants : wants s t = some l) :
    ∃ rest, s.code t = .lock l :: rest := by
  unfold wants firstLock at hwants
  split at hwants
  · rename_i k rest hcode
    obtain rfl := Option.some.inj hwants
    exact ⟨rest, hcode⟩
  · cases hwants

/-- The main thread asks for the producer's lock when it has the consumer's. -/
theorem wants_producer (h : Inv s) (hwants : wants s .main = some .producer) :
    s.holder .consumer = some .main := by
  obtain ⟨rest, hcode⟩ := code_of_wants hwants
  have hord := h.disciplined .main
  rw [hcode] at hord
  exact mem_held.mp hord.1

theorem not_wants_producer (h : Inv s) (hr : s.shared.requested = true) :
    wants s .main ≠ some .producer := fun hwants => by
  have hmain := h.wants_producer hwants
  rw [(h.locks hr).1] at hmain
  cases hmain

/-- **A step leads to the deadlock exactly when it lets the request and the need of the
locks meet.** -/
theorem step (h : Inv s) (hgood : ¬Deadlock s) {i : Input} (hstep : step s i = some s') :
    Inv s' ∧ (¬Deadlock s' ↔ NoClash s i) := by
  cases i with
  | go t =>
    cases t with
    | main =>
      obtain ⟨h', hfirst⟩ := h.go_main hstep
      refine ⟨h', iff_of_true (fun hd => ?_) trivial⟩
      obtain ⟨hr, hwants | hwants⟩ := h'.deadlock_iff.mp hd
      · obtain ⟨rest, hcode⟩ := code_of_wants hwants
        rw [hcode] at hfirst
        exact hfirst.1 (List.mem_cons_self ..)
      · exact h'.not_wants_producer hr hwants
    | producer =>
      obtain ⟨h', hshared, hcode⟩ := h.go_producer hstep
      refine ⟨h', iff_of_true (fun hd => hgood ?_) trivial⟩
      rw [h'.deadlock_iff] at hd
      rw [h.deadlock_iff]
      simpa only [wants, hshared, hcode] using hd
    | consumer =>
      have h' := h.go_consumer hstep
      obtain ⟨hcode, hnotify, hother⟩ := requested_consumer hstep
      have hwants : wants s' .main = wants s .main := by simp only [wants, hcode]
      refine ⟨h', ?_⟩
      show _ ↔ (_ → _)
      by_cases hn : (s.code .consumer).head? = some (.act .notify)
      · have hr := hnotify hn
        rw [h'.deadlock_iff, hwants]
        constructor
        · intro hd _ hw
          exact hd ⟨hr, .inl hw⟩
        · rintro hw ⟨-, hw' | hw'⟩
          · exact hw hn hw'
          · exact h'.not_wants_producer hr (hwants.trans hw')
      · refine iff_of_true (fun hd => hgood ?_) fun hn' => absurd hn' hn
        rw [h'.deadlock_iff, hwants] at hd
        rw [h.deadlock_iff]
        exact ⟨hother hn hd.1, hd.2⟩
  | main c =>
    obtain ⟨hidle, rfl, hanswer⟩ := step_main hstep
    have h' := h.begin_main hidle c hanswer
    refine ⟨h', ?_⟩
    have hwants : wants (begin s .main c.code) .main = firstLock c.code := by
      simp only [wants, begin, Function.update_self]
    rw [h'.deadlock_iff, hwants]
    show ¬(s.shared.requested = true ∧ _) ↔ _
    cases c with
    | player n => simp [MainCode.code, NoClash, firstLock]
    | volume => simp [MainCode.code, NoClash, firstLock]
    | info => simp [MainCode.code, NoClash, firstLock, reports]
    | provide => simp [MainCode.code, NoClash, firstLock]
  | consumer r =>
    obtain ⟨hidle, rfl⟩ := step_consumer hstep
    have h' := h.begin_consumer hidle r
    refine ⟨h', iff_of_true (fun hd => hgood ?_) trivial⟩
    rw [h'.deadlock_iff] at hd
    rw [h.deadlock_iff]
    exact hd
  | producer r =>
    obtain ⟨hidle, rfl⟩ := step_producer hstep
    have h' := h.begin_producer hidle r
    refine ⟨h', iff_of_true (fun hd => hgood ?_) trivial⟩
    rw [h'.deadlock_iff] at hd
    rw [h.deadlock_iff]
    exact hd

/-! ### Progress -/

/-- A thread can go on where it does not wait for a lock and is not asleep. -/
theorem able_of_running {t : Thread} {i : Instr Lock Act} {rest : Code}
    (hcode : s.code t = i :: rest) (hfree : ∀ l, i = .lock l → s.holder l = none)
    (hsleep : i = .act .sleep → s.shared.waiting = false)
    (hclear : i = .act .clearPipe → s.shared.requested = true) (hidle : i ≠ .act .waitPlaying) :
    Able s t := by
  refine ⟨by simp [hcode], by simpa [hcode] using hidle, ?_⟩
  unfold Locks.step
  rw [hcode]
  cases i with
  | lock l =>
    dsimp only
    rw [if_pos (hfree l rfl)]
    rfl
  | unlock l => rfl
  | act a =>
    show (Option.map _ (act s.shared t a)).isSome = true
    rw [Option.isSome_map]
    cases a with
    | sleep =>
      rw [act, hsleep rfl]
      rfl
    | clearPipe =>
      rw [act, hclear rfl]
      rfl
    | check =>
      rw [act]
      split <;> rfl
    | waitPlaying => exact absurd rfl hidle
    | notify | provide | broadcast => rfl

/-- A consumer that is asleep is not what the main thread waits for. -/
theorem awake (h : Inv s) (hgood : ¬Deadlock s) {l k : Lock} {rest rest' : Code}
    (hmain : s.code .main = .lock l :: rest) (hlk : l ≤ k) (hk : s.holder k = some .consumer)
    (hconsumer : s.code .consumer = .act .sleep :: rest') : s.shared.waiting = false := by
  have hordc := h.disciplined .consumer
  have hordm := h.disciplined .main
  have hphase := h.phase
  rw [hconsumer] at hordc hphase
  rw [hmain] at hordm hphase
  have hbelow : l < .nextFile := hlk.trans_lt (hordc.1 k (mem_held.mpr hk))
  cases hwaiting : s.shared.waiting with
  | false => rfl
  | true =>
    exfalso
    cases hphase with
    | quiet _ _ _ hq => exact hq.2 (List.mem_cons_self ..)
    | asked hr =>
      cases l with
      | consumer => exact hgood (h.deadlock_iff.mpr ⟨hr, .inl (by rw [wants, hmain]; rfl)⟩)
      | producer => exact hgood (h.deadlock_iff.mpr ⟨hr, .inr (by rw [wants, hmain]; rfl)⟩)
      | request => exact hordm.1
      | nextFile => exact lt_irrefl _ hbelow
      | playerInfo => exact absurd hbelow (by decide)
    | answering _ _ hp =>
      rcases hp with hp | hp
      · cases hp
        exact lt_irrefl _ hbelow
      · cases hp
    | answered _ _ _ _ hw => rcases hw hwaiting with hw | hw <;> cases hw

/-- **As long as there is no deadlock, a main thread that is in the middle of something is
not stuck**: some thread goes on, be it another one that has the lock it asks for. -/
theorem progress (h : Inv s) (hgood : ¬Deadlock s) (hbusy : s.code .main ≠ []) :
    ∃ t, Able s t := by
  obtain ⟨i, rest, hcode⟩ := List.exists_cons_of_ne_nil hbusy
  have hord := h.disciplined .main
  rw [hcode] at hord
  by_cases hfree : ∀ l, i = .lock l → s.holder l = none
  · refine ⟨.main, able_of_running hcode hfree ?_ ?_ ?_⟩
    · intro heq
      subst heq
      cases hord.1
    · intro heq
      subst heq
      exact h.answer (hcode ▸ List.mem_cons_self ..)
    · intro heq
      subst heq
      cases hord.1
  · push Not at hfree
    obtain ⟨l, rfl, hl⟩ := hfree
    obtain ⟨u, hu⟩ := Option.ne_none_iff_exists'.mp hl
    obtain ⟨t, k, j, rest', hlk, hk, hcode', hfree'⟩ := h.disciplined.exists_running hu
    have hord' := h.disciplined t
    rw [hcode'] at hord'
    have hholds : held s t ≠ ∅ := Finset.ne_empty_of_mem (mem_held.mpr hk)
    refine ⟨t, able_of_running hcode' hfree' ?_ ?_ ?_⟩
    · intro heq
      subst heq
      cases t with
      | consumer => exact h.awake hgood hcode hlk hk hcode'
      | main | producer => cases hord'.1
    · intro heq
      subst heq
      cases t with
      | main => exact absurd hord'.1 hholds
      | consumer | producer => cases hord'.1
    · intro heq
      subst heq
      cases t with
      | main => cases hord'.1
      | consumer | producer => exact absurd hord'.1 hholds

end Inv

/-! ### Runs -/

/-- **The threads of the player stop exactly where a request and the need of the player's
locks meet**: no state of a run is a deadlock exactly when none of its steps lets them
meet, and after a run without that a busy main thread never finds all the threads stuck. -/
theorem player_no_deadlock (history : List Input) (s : State)
    (hrun : Runs.run step init history = some s) :
    (Runs.Always step (fun s => ¬Deadlock s) init history ↔
      Runs.Along step NoClash init history) ∧
    (Runs.Along step NoClash init history → s.code .main ≠ [] → ∃ t, Able s t) := by
  have hgood : ¬Deadlock init := nofun
  constructor
  · refine Runs.always_iff_along (I := Inv) (fun s i hinv hgood hdefined => ?_) init history .init
      hgood (Runs.along_of_run hrun)
    obtain ⟨t, ht⟩ := hdefined
    obtain ⟨hinv', hstep⟩ := hinv.step hgood ht
    exact ⟨t, ht, hinv', hstep⟩
  · intro halong
    have hkept : ∀ s i t, Inv s ∧ ¬Deadlock s → NoClash s i → step s i = some t →
        Inv t ∧ ¬Deadlock t := fun s i t h hok hstep => by
      obtain ⟨hinv, hiff⟩ := h.1.step h.2 hstep
      exact ⟨hinv, hiff.mpr hok⟩
    obtain ⟨hinv, hgood⟩ := halong.preserves hkept ⟨.init, hgood⟩ hrun
    exact hinv.progress hgood

/-- The consumer asks for the next track, and the main thread takes the request. -/
theorem player_no_deadlock_asked :
    ∃ s, Runs.run step init [.consumer (.inner 0 (.eof true 0)), .go .consumer, .go .consumer,
        .go .consumer, .go .consumer, .main .provide, .go .main] = some s ∧
      Runs.Always step (fun s => ¬Deadlock s) init [.consumer (.inner 0 (.eof true 0)),
        .go .consumer, .go .consumer, .go .consumer, .go .consumer, .main .provide, .go .main] ∧
      s.code .main ≠ [] ∧ ∃ t, Able s t := by
  obtain ⟨s, hs, hcheck⟩ := (Option.any_eq_true _ _).mp
    (show (Runs.run step init [.consumer (.inner 0 (.eof true 0)), .go .consumer, .go .consumer,
      .go .consumer, .go .consumer, .main .provide, .go .main]).any
      (fun s => decide (s.code .main ≠ [])) = true by decide +kernel)
  have hbusy := of_decide_eq_true hcheck
  obtain ⟨hiff, hprogress⟩ := player_no_deadlock _ s hs
  have hclash : Runs.Along step NoClash init [.consumer (.inner 0 (.eof true 0)), .go .consumer,
      .go .consumer, .go .consumer, .go .consumer, .main .provide, .go .main] := by
    decide +kernel
  exact ⟨s, hs, hiff.mpr hclash, hbusy, hprogress hclash hbusy⟩

/-- At the end of a track, with the user stopping the player. -/
def deadlockHistory : List Input :=
  [.consumer (.inner 0 (.eof true 0)), .go .consumer, .go .consumer, .main (.player 1),
    .go .consumer, .go .consumer, .go .consumer, .go .consumer, .go .consumer,
    .producer (.fill 0)]

/-- The main thread asks for the consumer's lock, which waits for its answer, and the
producer for its own. -/
theorem end_of_track_deadlock :
    ∃ s, Runs.run step init deadlockHistory = some s ∧ Deadlock s ∧
      (∀ t, s.code t ≠ [] ∧ (s.code t).head? ≠ some (.act .waitPlaying)) ∧ ¬∃ t, Able s t := by
  obtain ⟨s, hs, hcheck⟩ := (Option.any_eq_true _ _).mp
    (show (Runs.run step init deadlockHistory).any (fun s => s.shared.requested &&
      (decide (wants s .main = some .consumer) && decide (s.holder .consumer = some .consumer) &&
      [Thread.main, .consumer, .producer].all fun t => decide (s.code t ≠ []) &&
        decide ((s.code t).head? ≠ some (.act .waitPlaying)) &&
        !(Locks.step act s t).isSome)) = true by decide +kernel)
  simp only [Bool.and_eq_true, decide_eq_true_eq, List.all_eq_true, Bool.not_eq_true',
    List.mem_cons, List.not_mem_nil, or_false] at hcheck
  obtain ⟨hrequested, ⟨hwants, hholder⟩, hstuck⟩ := hcheck
  have hall : ∀ t : Thread, t = .main ∨ t = .consumer ∨ t = .producer := fun t => by
    cases t <;> simp
  refine ⟨s, hs, ⟨hrequested, _, .inl rfl, hwants, hholder⟩, fun t => (hstuck t (hall t)).1, ?_⟩
  intro h
  obtain ⟨t, -, -, hable⟩ := h
  rw [(hstuck t (hall t)).2] at hable
  cases hable

end GracefulMusic.Player.Threads
