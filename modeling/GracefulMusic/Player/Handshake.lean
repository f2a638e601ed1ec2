import GracefulMusic.Player.Threads

/-! The consumer's request and the main thread's answer.

The locks are taken in one order, so that only the request itself can stop the threads:
the consumer keeps its locks while it waits for the main thread. Where in the handshake
the two threads are is `Phase`; each step of a thread leads from one phase to the next. -/
namespace GracefulMusic.Player.Threads
open Locks

/-! ### The order of the locks -/

/-- What a thread needs for an instruction besides the order. -/
def need : Thread → Instr Lock Act → Finset Lock → Prop
  | .main, .lock .producer, held => .consumer ∈ held
  | .main, .lock .request, _ => False
  | .main, .act .clearPipe, held => held = ∅
  | .main, .act .provide, _ | .main, .act .broadcast, _ => True
  | .consumer, .act .notify, held =>
    .consumer ∈ held ∧ .producer ∈ held ∧ .request ∈ held ∧ ∀ k ∈ held, k < .nextFile
  | .consumer, .act .check, held => .nextFile ∈ held ∧ ∀ k ∈ held, k ≤ .nextFile
  | .consumer, .act .sleep, held => ∀ k ∈ held, k < .nextFile
  | .consumer, .act .waitPlaying, held | .producer, .act .waitPlaying, held => held = ∅
  | _, .act _, _ => False
  | _, _, _ => True

abbrev Kept (t : Thread) (held : Finset Lock) (code : Code) : Prop := Ordered need t held code

section Order
variable {t : Thread} {held : Finset Lock} {rest : Code}

theorem Kept.nil (hheld : held = ∅) : Kept t held [] := hheld

/-- A lock above all that are held is taken and given back. -/
theorem Kept.within {l : Lock} (hl : need t (.lock l) held) (habove : ∀ k ∈ held, k < l)
    (hrest : Kept t held rest) : Kept t held (.lock l :: .unlock l :: rest) := by
  have hnot : l ∉ held := fun hmem => lt_irrefl l (habove l hmem)
  refine ⟨hl, habove, ?_, Finset.mem_insert_self l held, ?_⟩
  · cases t <;> trivial
  · rw [Finset.erase_insert hnot]
    exact hrest

theorem Kept.reports (habove : ∀ k ∈ held, k < .playerInfo) (hrest : Kept t held rest) (n : Nat) :
    Kept t held (Threads.reports n ++ rest) := by
  induction n with
  | zero => exact hrest
  | succ n ih => exact Kept.within (by cases t <;> trivial) habove ih

theorem Kept.checks (habove : ∀ k ∈ held, k < .producer)
    (hrest : Kept .consumer held rest) (n : Nat) :
    Kept .consumer held (Threads.checks n ++ rest) := by
  induction n with
  | zero => exact hrest
  | succ n ih => exact Kept.within trivial habove ih

theorem Kept.reports_nil (n : Nat) : Kept t ∅ (Threads.reports n) := by
  have h : Kept t ∅ (Threads.reports n ++ []) := Kept.reports (by decide) (Kept.nil rfl) n
  rwa [List.append_nil] at h

end Order

theorem MainCode.kept (c : MainCode) : Kept .main ∅ c.code := by
  cases c with
  | player n =>
    have hboth : Kept .main {.producer, .consumer} [.unlock .producer, .unlock .consumer] :=
      ⟨trivial, by decide, trivial, by decide, Kept.nil (by decide)⟩
    exact ⟨trivial, by decide, (by decide : Lock.consumer ∈ insert Lock.consumer ∅), by decide,
      Kept.reports (by decide) hboth n⟩
  | volume => exact Kept.within trivial (by decide) (Kept.nil rfl)
  | info => exact Kept.reports_nil 1
  | provide => exact ⟨rfl, Kept.nil rfl⟩

theorem kept_unlockConsumer : Kept .consumer {.consumer} [.unlock .consumer] :=
  ⟨trivial, by decide, Kept.nil (by decide)⟩

theorem kept_unlockBoth :
    Kept .consumer {.producer, .consumer} [.unlock .producer, .unlock .consumer] :=
  ⟨trivial, by decide, trivial, by decide, Kept.nil (by decide)⟩

theorem kept_consumerHandleEof (asks : Bool) (n : Nat) :
    Kept .consumer {.producer, .consumer}
      (consumerHandleEof asks n ++ [.unlock .producer, .unlock .consumer]) := by
  have hreports := Kept.reports (by decide) kept_unlockBoth n
  cases asks with
  | false => exact hreports
  | true =>
    have herase : ({.request, .producer, .consumer} : Finset Lock).erase .request =
        {.producer, .consumer} := by decide
    refine ⟨trivial, by decide, ⟨by decide, by decide, by decide, by decide⟩, trivial, by decide, ?_⟩
    rw [herase]
    exact hreports

theorem InnerEnd.kept (e : InnerEnd) :
    Kept .consumer {.consumer} (e.code ++ [.unlock .consumer]) := by
  cases e with
  | noSpace moved => exact Kept.reports (by decide) kept_unlockConsumer _
  | notPlaying => exact Kept.within trivial (by decide) kept_unlockConsumer
  | underrun moved =>
    exact Kept.within trivial (by decide) (Kept.reports (by decide) kept_unlockConsumer _)
  | reopen failed => exact Kept.reports (by decide) kept_unlockConsumer _
  | eof asks n =>
    have heof := kept_consumerHandleEof asks n
    refine ⟨trivial, by decide, ?_⟩
    rw [List.append_eq, List.append_assoc]
    exact heof

theorem ConsumerRound.kept (r : ConsumerRound) : Kept .consumer ∅ r.code := by
  cases r with
  | leave => exact Kept.within trivial (by decide) (Kept.nil rfl)
  | wait =>
    exact Kept.within trivial (by decide) ⟨rfl, Kept.within trivial (by decide) (Kept.nil rfl)⟩
  | reopen failed =>
    exact ⟨trivial, by decide, Kept.reports (by decide) kept_unlockConsumer _⟩
  | inner n last =>
    refine ⟨trivial, by decide, ?_⟩
    rw [List.append_assoc]
    exact Kept.checks (by decide) last.kept n

theorem ProducerRound.kept (r : ProducerRound) : Kept .producer ∅ r.code := by
  cases r with
  | leave => exact Kept.within trivial (by decide) (Kept.nil rfl)
  | wait =>
    exact Kept.within trivial (by decide) ⟨rfl, Kept.within trivial (by decide) (Kept.nil rfl)⟩
  | fill n =>
    have hlast : Kept .producer {.producer} (.unlock .producer :: Threads.reports 1) :=
      ⟨trivial, by decide, Kept.reports_nil 1⟩
    exact ⟨trivial, by decide, Kept.reports (by decide) hlast n⟩

/-- The code that an act goes on with keeps to the order as well. -/
theorem kept_act (shared : Shared) (t : Thread) (a : Act) (shared' : Shared) (more : Code)
    (held : Finset Lock) (rest : Code) (hact : act shared t a = some (shared', more))
    (hneed : need t (.act a) held) (hrest : Kept t held rest) : Kept t held (more ++ rest) := by
  cases a with
  | notify =>
    cases t with
    | consumer =>
      cases hact
      obtain ⟨hc, hp, hr, habove⟩ := hneed
      have hnot : Lock.nextFile ∉ held := fun hmem => lt_irrefl _ (habove _ hmem)
      refine ⟨trivial, habove, ⟨Finset.mem_insert_self _ _, fun k hk => ?_⟩, trivial,
        Finset.mem_insert_self _ _, ?_⟩
      · rcases Finset.mem_insert.mp hk with rfl | hk
        · exact le_refl _
        · exact (habove k hk).le
      · rw [Finset.erase_insert hnot]
        exact hrest
    | _ => cases hneed
  | check =>
    cases t with
    | consumer =>
      obtain ⟨hmem, hle⟩ := hneed
      have habove : ∀ k ∈ held.erase .nextFile, k < .nextFile := fun k hk =>
        lt_of_le_of_ne (hle k (Finset.mem_of_mem_erase hk)) (Finset.ne_of_mem_erase hk)
      rw [act] at hact
      split at hact
      · cases hact
        exact hrest
      · cases hact
        refine ⟨trivial, hmem, habove, trivial, habove, ?_, ?_⟩
        · rw [Finset.insert_erase hmem]
          exact ⟨hmem, hle⟩
        · rw [Finset.insert_erase hmem]
          exact hrest
    | _ => cases hneed
  | sleep =>
    rw [act] at hact
    split at hact
    · cases hact
    · cases hact
      exact hrest
  | clearPipe =>
    cases t with
    | main =>
      obtain rfl : held = ∅ := hneed
      rw [act] at hact
      split at hact
      · cases hact
        exact ⟨trivial, by decide, trivial, trivial, by decide, trivial, hrest⟩
      · cases hact
    | _ => cases hneed
  | provide =>
    cases hact
    exact hrest
  | broadcast =>
    cases hact
    exact hrest
  | waitPlaying =>
    cases hact
    exact hrest

/-- Only the consumer's call makes a request. -/
theorem requested_of_act {σ σ' : Shared} {t : Thread} {a : Act} {more : Code}
    (hact : act σ t a = some (σ', more)) (ha : a ≠ .notify) (hrequested : σ'.requested = true) :
    σ.requested = true := by
  cases a with
  | notify => exact absurd rfl ha
  | check =>
    rw [act] at hact
    split at hact
    · cases hact
      exact hrequested
    · cases hact
      exact hrequested
  | sleep =>
    rw [act] at hact
    split at hact
    · cases hact
    · cases hact
      exact hrequested
  | clearPipe =>
    rw [act] at hact
    split at hact
    · assumption
    · cases hact
  | provide | broadcast | waitPlaying =>
    cases hact
    exact hrequested

/-! ### Where the two threads are -/

/-- Code that has nothing to wait for. -/
def Quiet (code : Code) : Prop := .act .check ∉ code ∧ .act .sleep ∉ code

theorem Quiet.tail {i : Instr Lock Act} {rest : Code} (h : Quiet (i :: rest)) : Quiet rest :=
  ⟨fun hmem => h.1 (List.mem_cons_of_mem i hmem), fun hmem => h.2 (List.mem_cons_of_mem i hmem)⟩

/-- The consumer waits for the answer. -/
inductive Waiting : Code → Prop
  | lockFile {rest : Code} (h : Quiet rest) : Waiting (.lock .nextFile :: .act .check :: rest)
  | check {rest : Code} (h : Quiet rest) : Waiting (.act .check :: rest)
  | unlockFile {rest : Code} (h : Quiet rest) :
    Waiting (.unlock .nextFile :: .act .sleep :: .lock .nextFile :: .act .check :: rest)
  | sleep {rest : Code} (h : Quiet rest) :
    Waiting (.act .sleep :: .lock .nextFile :: .act .check :: rest)

/-- What the main thread does, and how much of `cmus_provide_next_track` it has done. -/
inductive MainAt : Code → Prop
  | player {code : Code} (first : .lock .consumer ∉ code.tail) (acts : ∀ a, .act a ∉ code) :
    MainAt code
  | clearPipe : MainAt [.act .clearPipe]
  | lockFile : MainAt provideNextTrack
  | provide : MainAt (provideNextTrack.drop 1)
  | unlockFile : MainAt (provideNextTrack.drop 2)
  | broadcast : MainAt (provideNextTrack.drop 3)

/-- Code of the main thread that is not at its beginning. -/
def Begun (code : Code) : Prop := .lock .consumer ∉ code ∧ .act .clearPipe ∉ code

/-- The main thread has still to give the next track. -/
def Providing (code : Code) : Prop := code = provideNextTrack ∨ code = provideNextTrack.drop 1

/-- It has given it, and has still to wake the consumer. -/
def Waking (code : Code) : Prop := code = provideNextTrack.drop 2 ∨ code = provideNextTrack.drop 3

/-- The locks that the consumer has while it waits. -/
def HasLocks (s : State) : Prop :=
  s.holder .consumer = some .consumer ∧ s.holder .producer = some .consumer ∧
    s.holder .request = some .consumer

/-- Nothing is asked for; the consumer has asked, the main thread answers, it has
answered. -/
inductive Phase (σ : Shared) (main consumer : Code) : Prop
  | quiet (requested : σ.requested = false) (provided : σ.provided = false)
    (hmain : ¬Providing main) (hconsumer : Quiet consumer)
  | asked (requested : σ.requested = true) (provided : σ.provided = false)
    (hmain : ¬Providing main) (hconsumer : Waiting consumer)
  | answering (requested : σ.requested = false) (provided : σ.provided = false)
    (hmain : Providing main) (hconsumer : Waiting consumer)
  | answered (requested : σ.requested = false) (provided : σ.provided = true)
    (hmain : ¬Providing main) (hconsumer : Waiting consumer)
    (waking : σ.waiting = true → Waking main)

structure Inv (s : State) : Prop where
  disciplined : Disciplined need s
  main : MainAt (s.code .main)
  phase : Phase s.shared (s.code .main) (s.code .consumer)
  locks : s.shared.requested = true → HasLocks s
  answer : .act .clearPipe ∈ s.code .main → s.shared.requested = true

/-! ### Steps of the consumer -/

namespace Phase
variable {σ σ' : Shared} {main main' consumer rest more : Code} {l : Lock} {a : Act}

/-- The code of the consumer is replaced where it stays as quiet, or in its wait. -/
theorem consumer_goes (h : Phase σ main consumer) {consumer' : Code}
    (hquiet : Quiet consumer → Quiet consumer') (hwaiting : Waiting consumer → Waiting consumer') :
    Phase σ main consumer' := by
  cases h with
  | quiet hr hp hm hc => exact .quiet hr hp hm (hquiet hc)
  | asked hr hp hm hc => exact .asked hr hp hm (hwaiting hc)
  | answering hr hp hm hc => exact .answering hr hp hm (hwaiting hc)
  | answered hr hp hm hc hw => exact .answered hr hp hm (hwaiting hc) hw

theorem consumer_lock (h : Phase σ main (.lock l :: rest)) : Phase σ main rest := by
  refine h.consumer_goes (fun hq => hq.tail) fun hw => ?_
  cases hw with
  | lockFile hq => exact .check hq

theorem consumer_unlock (h : Phase σ main (.unlock l :: rest)) : Phase σ main rest := by
  refine h.consumer_goes (fun hq => hq.tail) fun hw => ?_
  cases hw with
  | unlockFile hq => exact .sleep hq

/-- What the consumer does besides locking: it asks, it sees the answer and takes it or
waits, and it wakes up. -/
theorem consumer_act {held : Finset Lock} (h : Phase σ main (.act a :: rest))
    (hact : act σ .consumer a = some (σ', more)) (hneed : need .consumer (.act a) held) :
    Phase σ' main (more ++ rest) := by
  cases a with
  | notify =>
    cases hact
    cases h with
    | quiet hr hp hm hc => exact .asked rfl hp hm (.lockFile (by simpa [Quiet] using hc))
    | asked _ _ _ hc | answering _ _ _ hc | answered _ _ _ hc => cases hc
  | check =>
    rw [act] at hact
    split at hact
    · rename_i hprovided
      cases hact
      cases h with
      | answered hr _ hm hc =>
        cases hc with
        | check hq => exact .quiet hr rfl hm hq
      | quiet _ hp | asked _ hp | answering _ hp => simp [hp] at hprovided
    · rename_i hprovided
      cases hact
      have hwaits : Waiting (.act .check :: rest) → Waiting (waitProvided ++ rest) := fun hw => by
        cases hw with
        | check hq => exact .unlockFile hq
      cases h with
      | quiet _ _ _ hc => exact absurd (List.mem_cons_self ..) hc.1
      | asked hr hp hm hc => exact .asked hr hp hm (hwaits hc)
      | answering hr hp hm hc => exact .answering hr hp hm (hwaits hc)
      | answered _ hp => exact absurd hp hprovided
  | sleep =>
    rw [act] at hact
    split at hact
    · cases hact
    · cases hact
      refine h.consumer_goes (fun hq => hq.tail) fun hw => ?_
      cases hw with
      | sleep hq => exact .lockFile hq
  | waitPlaying =>
    cases hact
    refine h.consumer_goes (fun hq => hq.tail) fun hw => ?_
    cases hw
  | clearPipe | provide | broadcast => cases hneed

/-! ### Steps of the main thread -/

theorem not_providing_of_no_act (hacts : ∀ a, .act a ∉ main) : ¬Providing main := by
  rintro (rfl | rfl)
  · exact hacts .provide (by decide)
  · exact hacts .provide (by decide)

theorem not_waking_of_no_act (hacts : ∀ a, .act a ∉ main) : ¬Waking main := by
  rintro (rfl | rfl)
  · exact hacts .broadcast (by decide)
  · exact hacts .broadcast (by decide)

/-- Outside its answer the main thread may do anything. -/
theorem main_goes (h : Phase σ main consumer) (hmain : ¬Providing main) (hwaking : ¬Waking main)
    (hmain' : ¬Providing main') : Phase σ main' consumer := by
  cases h with
  | quiet hr hp _ hc => exact .quiet hr hp hmain' hc
  | asked hr hp _ hc => exact .asked hr hp hmain' hc
  | answering _ _ hm _ => exact absurd hm hmain
  | answered hr hp _ hc hw => exact .answered hr hp hmain' hc fun hwait => absurd (hw hwait) hwaking

/-- A function of the player goes on, with a lock taken or given back. -/
theorem player_goes {i : Instr Lock Act} (h : Phase σ (i :: rest) consumer)
    (hfirst : .lock .consumer ∉ rest) (hacts : ∀ a, .act a ∉ i :: rest) :
    Phase σ rest consumer ∧ MainAt rest ∧ Begun rest := by
  have hrest : ∀ a, .act a ∉ rest := fun a ha => hacts a (List.mem_cons_of_mem _ ha)
  have hphase : Phase σ rest consumer :=
    h.main_goes (not_providing_of_no_act hacts) (not_waking_of_no_act hacts)
      (not_providing_of_no_act hrest)
  exact ⟨hphase, .player (fun hmem => hfirst (List.mem_of_mem_tail hmem)) hrest, hfirst, hrest _⟩

theorem main_lock (h : Phase σ (.lock l :: rest) consumer) (hat : MainAt (.lock l :: rest)) :
    Phase σ rest consumer ∧ MainAt rest ∧ Begun rest := by
  generalize hcode : Instr.lock l :: rest = code at hat
  cases hat with
  | player hfirst hacts =>
    subst hcode
    exact h.player_goes hfirst hacts
  | lockFile =>
    cases hcode
    refine ⟨?_, .provide, by decide, by decide⟩
    cases h with
    | answering hr hp _ hc => exact .answering hr hp (.inr rfl) hc
    | quiet _ _ hm | asked _ _ hm | answered _ _ hm => exact absurd (.inl rfl) hm
  | clearPipe | provide | unlockFile | broadcast => cases hcode

theorem main_unlock (h : Phase σ (.unlock l :: rest) consumer) (hat : MainAt (.unlock l :: rest)) :
    Phase σ rest consumer ∧ MainAt rest ∧ Begun rest := by
  generalize hcode : Instr.unlock l :: rest = code at hat
  cases hat with
  | player hfirst hacts =>
    subst hcode
    exact h.player_goes hfirst hacts
  | unlockFile =>
    cases hcode
    have hnot : ¬Providing (provideNextTrack.drop 3) := by
      rintro (h | h) <;> cases h
    refine ⟨?_, .broadcast, by decide, by decide⟩
    cases h with
    | quiet hr hp _ hc => exact .quiet hr hp hnot hc
    | asked hr hp _ hc => exact .asked hr hp hnot hc
    | answering _ _ hm => rcases hm with hm | hm <;> cases hm
    | answered hr hp _ hc hw => exact .answered hr hp hnot hc fun _ => .inr rfl
  | clearPipe | lockFile | provide | broadcast => cases hcode

/-- The main thread takes the request, gives the track, and wakes the consumer. -/
theorem main_act (h : Phase σ (.act a :: rest) consumer) (hat : MainAt (.act a :: rest))
    (hact : act σ .main a = some (σ', more)) :
    Phase σ' (more ++ rest) consumer ∧ MainAt (more ++ rest) ∧ Begun (more ++ rest) ∧
      (σ'.requested = true → σ.requested = true) := by
  generalize hcode : Instr.act a :: rest = code at hat
  cases hat with
  | player hfirst hacts =>
    subst hcode
    exact absurd (List.mem_cons_self ..) (hacts a)
  | clearPipe =>
    cases hcode
    rw [act] at hact
    split at hact
    · rename_i hrequested
      cases hact
      refine ⟨?_, .lockFile, ⟨by decide, by decide⟩, nofun⟩
      cases h with
      | asked _ hp _ hc => exact .answering rfl hp (.inl rfl) hc
      | quiet hr | answering hr | answered hr => simp [hr] at hrequested
    · cases hact
  | provide =>
    cases hcode
    cases hact
    refine ⟨?_, .unlockFile, ⟨by decide, by decide⟩, id⟩
    cases h with
    | answering hr _ _ hc =>
      exact .answered hr rfl (by rintro (h | h) <;> cases h) hc fun _ => .inl rfl
    | quiet _ _ hm | asked _ _ hm | answered _ _ hm => exact absurd (.inr rfl) hm
  | broadcast =>
    cases hcode
    cases hact
    have hnot : ¬Providing ([] : Code) := by rintro (h | h) <;> cases h
    refine ⟨?_, .player (by simp) (by simp), ⟨by simp, by simp⟩, id⟩
    cases h with
    | quiet hr hp _ hc => exact .quiet hr hp hnot hc
    | asked hr hp _ hc => exact .asked hr hp hnot hc
    | answering _ _ hm => rcases hm with hm | hm <;> cases hm
    | answered hr hp _ hc _ => exact .answered hr hp hnot hc nofun
  | lockFile | unlockFile => cases hcode

end Phase

end GracefulMusic.Player.Threads
