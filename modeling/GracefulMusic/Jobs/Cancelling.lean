import GracefulMusic.Foundation.Runs
import GracefulMusic.Jobs.Worker

/-! Removals and the worker thread (`worker.c`).

The main thread schedules and removes jobs, the worker thread takes them up. A step is what
a thread does while it holds the mutex. In `worker_remove_jobs_by_cb` the main thread sleeps until
the current job has ended; another thread neither schedules nor removes jobs. -/
namespace GracefulMusic.Jobs.Threads

/-! ### The threads -/

/-- `struct worker_job` -/
structure WorkerJob (D : Type) where
  type : UInt32
  data : D

/-- `worker_match_cb`, with its `opaque`. -/
abbrev MatchCb (D : Type) := UInt32 → D → Bool

def WorkerJob.matches {D : Type} (job : WorkerJob D) (cb : MatchCb D) : Bool := cb job.type job.data

inductive WorkerState where
  | paused | running | stopped
  deriving DecidableEq

/-- The main thread, when it does not hold the mutex. -/
inductive MainThread where
  | free
  /-- In the loop of `worker_remove_jobs_by_cb`. -/
  | waiting (asleep : Bool)
  deriving DecidableEq

structure Worker (D : Type) where
  jobs : List (WorkerJob D)
  curJob : Option (WorkerJob D)
  cancelCurrent : Bool
  state : WorkerState
  /-- `worker_loop` has returned. -/
  left : Bool
  main : MainThread

def initial (D : Type) : Worker D := ⟨[], none, false, .paused, false, .free⟩

def workerMatchesType {D : Type} (pat : UInt32) : MatchCb D := fun type _ => type &&& pat ≠ 0

section
variable {D : Type}

namespace Worker
variable (w : Worker D)

/-- Where no job of the list matches, `job` is behind its end: `past` is what is read there. -/
def workerHasJobByCb (cb : MatchCb D) (past : WorkerJob D) : Bool :=
  let found := w.jobs.find? fun job => job.matches cb
  let job := found.getD past
  found.isSome || w.curJob.isSome && job.matches cb

def workerHasJobByType (pat : UInt32) (past : WorkerJob D) : Bool :=
  w.workerHasJobByCb (workerMatchesType pat) past

/-- Up to where the main thread waits or returns. -/
def workerRemoveJobsByCb (cb : MatchCb D) : Worker D :=
  let w := {w with jobs := w.jobs.filter fun job => !job.matches cb}
  if w.curJob.any fun job => job.matches cb then
    {w with cancelCurrent := true, main := .waiting true}
  else w

end Worker

inductive Step (D : Type) where
  | setState (state : WorkerState)
  | addJob (job : WorkerJob D)
  | removeJobs (cb : MatchCb D)
  /-- A wakeup without a signal. -/
  | wakeUp
  /-- The main thread is awake and finds `cancel_current` set. -/
  | sleepOn
  /-- The main thread is awake and returns from `worker_remove_jobs_by_cb`. -/
  | resume
  /-- The worker takes a job up. -/
  | take
  /-- The callback of the current job has returned. -/
  | finish
  /-- The worker leaves its loop. -/
  | leave

def step (w : Worker D) : Step D → Option (Worker D)
  | .setState state => if w.main = .free then some {w with state} else none
  | .addJob job => if w.main = .free then some {w with jobs := w.jobs ++ [job]} else none
  | .removeJobs cb => if w.main = .free then some (w.workerRemoveJobsByCb cb) else none
  | .wakeUp => if w.main = .waiting true then some {w with main := .waiting false} else none
  | .sleepOn =>
    if w.main = .waiting false ∧ w.cancelCurrent then some {w with main := .waiting true} else none
  | .resume =>
    if w.main = .waiting false ∧ ¬ w.cancelCurrent then some {w with main := .free} else none
  | .take =>
    match w.curJob, w.jobs with
    | none, job :: rest =>
      if w.state = .running ∧ ¬ w.left then some {w with curJob := some job, jobs := rest} else none
    | _, _ => none
  | .finish =>
    match w.curJob with
    | none => none
    | some _ =>
      if w.cancelCurrent then
        -- the signal goes to the main thread: the worker does not wait
        some {w with
          curJob := none
          cancelCurrent := false
          main := if w.main = .waiting true then .waiting false else w.main}
      else some {w with curJob := none}
  | .leave =>
    if w.curJob = none ∧ w.state = .stopped ∧ ¬ w.left then some {w with left := true} else none

variable {w w' : Worker D} {cb : MatchCb D}

/-- What a step can do. -/
def Does (w w' : Worker D) : Step D → Prop
  | .setState state => w.main = .free ∧ w' = {w with state}
  | .addJob job => w.main = .free ∧ w' = {w with jobs := w.jobs ++ [job]}
  | .removeJobs cb => w.main = .free ∧ w' = w.workerRemoveJobsByCb cb
  | .wakeUp => w' = {w with main := .waiting false}
  | .sleepOn => w.cancelCurrent = true ∧ w' = {w with main := .waiting true}
  | .resume => w.cancelCurrent = false ∧ w' = {w with main := .free}
  | .take => w.curJob = none ∧ ∃ job rest, w.jobs = job :: rest ∧
      w' = {w with curJob := some job, jobs := rest}
  | .finish =>
    (w.cancelCurrent = true ∧ w' = {w with
      curJob := none
      cancelCurrent := false
      main := if w.main = .waiting true then .waiting false else w.main}) ∨
    (w.cancelCurrent = false ∧ w' = {w with curJob := none})
  | .leave => w.curJob = none ∧ w' = {w with left := true}

theorem step_does {i : Step D} (hstep : step w i = some w') : Does w w' i := by
  cases i with
  | setState state =>
    obtain ⟨hmain, heq⟩ := Option.ite_none_right_eq_some.mp hstep
    exact ⟨hmain, (Option.some.inj heq).symm⟩
  | addJob job =>
    obtain ⟨hmain, heq⟩ := Option.ite_none_right_eq_some.mp hstep
    exact ⟨hmain, (Option.some.inj heq).symm⟩
  | removeJobs cb =>
    obtain ⟨hmain, heq⟩ := Option.ite_none_right_eq_some.mp hstep
    exact ⟨hmain, (Option.some.inj heq).symm⟩
  | wakeUp =>
    obtain ⟨-, heq⟩ := Option.ite_none_right_eq_some.mp hstep
    exact (Option.some.inj heq).symm
  | sleepOn =>
    obtain ⟨⟨-, hcancel⟩, heq⟩ := Option.ite_none_right_eq_some.mp hstep
    exact ⟨hcancel, (Option.some.inj heq).symm⟩
  | resume =>
    obtain ⟨⟨-, hcancel⟩, heq⟩ := Option.ite_none_right_eq_some.mp hstep
    exact ⟨Bool.eq_false_iff.mpr hcancel, (Option.some.inj heq).symm⟩
  | take =>
    rw [step] at hstep
    split at hstep
    · rename_i job rest hnone hjobs
      obtain ⟨-, heq⟩ := Option.ite_none_right_eq_some.mp hstep
      exact ⟨hnone, job, rest, hjobs, (Option.some.inj heq).symm⟩
    · cases hstep
  | finish =>
    rw [step] at hstep
    split at hstep
    · cases hstep
    split at hstep
    · rename_i hcancel
      exact .inl ⟨hcancel, (Option.some.inj hstep).symm⟩
    · rename_i hcancel
      exact .inr ⟨Bool.eq_false_iff.mpr hcancel, (Option.some.inj hstep).symm⟩
  | leave =>
    obtain ⟨⟨hnone, -⟩, heq⟩ := Option.ite_none_right_eq_some.mp hstep
    exact ⟨hnone, (Option.some.inj heq).symm⟩

/-! ### A removal -/

/-- No job of the list matches. -/
def Purged (cb : MatchCb D) (w : Worker D) : Prop := ∀ job ∈ w.jobs, job.matches cb = false

/-- The current job is asked to cancel. -/
def Asked (job : WorkerJob D) (w : Worker D) : Prop :=
  w.curJob = some job ∧ w.cancelCurrent = true

/-- Nothing matches. -/
def Rid (cb : MatchCb D) (w : Worker D) : Prop :=
  Purged cb w ∧ ∀ job ∈ w.curJob, job.matches cb = false

/-- The main thread waits for the job to end. -/
structure Waiting (cb : MatchCb D) (job : WorkerJob D) (w : Worker D) : Prop where
  main : w.main ≠ .free
  asked : Asked job w
  purged : Purged cb w

/-- The job that the main thread waited for has ended. -/
structure Over (cb : MatchCb D) (w : Worker D) : Prop where
  main : w.main ≠ .free
  cancel : w.cancelCurrent = false
  rid : Rid cb w

/-- A job that is asked to cancel stays the current one until it ends. -/
theorem step_waiting {job : WorkerJob D} (h : Waiting cb job w) {i : Step D}
    (hstep : step w i = some w') :
    (i = .finish ∧ Over cb w') ∨ (i ≠ .finish ∧ Waiting cb job w') := by
  obtain ⟨hmain, ⟨hcur, hcancel⟩, hpurged⟩ := h
  have hdoes := step_does hstep
  cases i with
  | setState state => exact absurd hdoes.1 hmain
  | addJob job => exact absurd hdoes.1 hmain
  | removeJobs cb => exact absurd hdoes.1 hmain
  | wakeUp =>
    subst hdoes
    exact .inr ⟨nofun, nofun, ⟨hcur, hcancel⟩, hpurged⟩
  | sleepOn =>
    obtain ⟨-, rfl⟩ := hdoes
    exact .inr ⟨nofun, nofun, ⟨hcur, hcancel⟩, hpurged⟩
  | resume => exact nomatch hcancel.symm.trans hdoes.1
  | take => exact nomatch hcur.symm.trans hdoes.1
  | finish =>
    obtain ⟨-, rfl⟩ | ⟨hnot, -⟩ := hdoes
    · refine .inl ⟨rfl, ?_, rfl, hpurged, nofun⟩
      dsimp only
      split
      · exact nofun
      · exact hmain
    · exact nomatch hcancel.symm.trans hnot
  | leave => exact nomatch hcur.symm.trans hdoes.1

/-- The worker takes up jobs that do not match. -/
theorem step_over (h : Over cb w) {i : Step D} (hi : i ≠ .resume) (hstep : step w i = some w') :
    Over cb w' := by
  obtain ⟨hmain, hcancel, hpurged, hcur⟩ := h
  have hdoes := step_does hstep
  cases i with
  | setState state => exact absurd hdoes.1 hmain
  | addJob job => exact absurd hdoes.1 hmain
  | removeJobs cb => exact absurd hdoes.1 hmain
  | wakeUp =>
    subst hdoes
    exact ⟨nofun, hcancel, hpurged, hcur⟩
  | sleepOn => exact nomatch hcancel.symm.trans hdoes.1
  | resume => exact absurd rfl hi
  | take =>
    obtain ⟨-, job, rest, hjobs, rfl⟩ := hdoes
    rw [Purged, hjobs] at hpurged
    refine ⟨hmain, hcancel, fun j hj => hpurged j (List.mem_cons_of_mem _ hj), fun j hj => ?_⟩
    rw [← Option.some.inj hj]
    exact hpurged job List.mem_cons_self
  | finish =>
    obtain ⟨hset, -⟩ | ⟨-, rfl⟩ := hdoes
    · exact nomatch hcancel.symm.trans hset
    · exact ⟨hmain, hcancel, hpurged, nofun⟩
  | leave =>
    obtain ⟨-, rfl⟩ := hdoes
    exact ⟨hmain, hcancel, hpurged, hcur⟩

/-- The job has ended in these steps, after it was asked to cancel. -/
def EndsAsked (job : WorkerJob D) (w : Worker D) (steps : List (Step D)) : Prop :=
  ∃ front rest, steps = front ++ .finish :: rest ∧ Runs.Always step (Asked job) w front

theorem run_over (h : Over cb w) {steps : List (Step D)} (hsteps : .resume ∉ steps)
    (hrun : Runs.run step w steps = some w') : Over cb w' := by
  induction steps generalizing w with
  | nil =>
    cases hrun
    exact h
  | cons i rest ih =>
    obtain ⟨u, hu, hrest⟩ := Option.bind_eq_some_iff.mp hrun
    have hi : i ≠ .resume := fun heq => hsteps (heq ▸ List.mem_cons_self)
    exact ih (step_over h hi hu) (fun hmem => hsteps (List.mem_cons_of_mem _ hmem)) hrest

theorem run_waiting {job : WorkerJob D} (h : Waiting cb job w) {steps : List (Step D)}
    (hsteps : .resume ∉ steps) (hrun : Runs.run step w steps = some w') :
    (Over cb w' ∧ EndsAsked job w steps) ∨ Waiting cb job w' := by
  induction steps generalizing w with
  | nil =>
    cases hrun
    exact .inr h
  | cons i rest ih =>
    obtain ⟨u, hu, hrest⟩ := Option.bind_eq_some_iff.mp hrun
    have hlater : Step.resume ∉ rest := fun hmem => hsteps (List.mem_cons_of_mem _ hmem)
    obtain ⟨rfl, hover⟩ | ⟨-, hwaiting⟩ := step_waiting h hu
    · exact .inl ⟨run_over hover hlater hrest, [], rest, rfl, h.asked⟩
    · obtain ⟨hover, front, later, rfl, halways⟩ | hwaiting := ih hwaiting hlater hrest
      · exact .inl ⟨hover, i :: front, later, rfl, h.asked, u, hu, halways⟩
      · exact .inr hwaiting

/-! ### Queries -/

/-- Some waiting job or the current one matches. -/
def HasJob (cb : MatchCb D) (w : Worker D) : Prop :=
  (∃ job ∈ w.jobs, job.matches cb = true) ∨ ∃ job ∈ w.curJob, job.matches cb = true

/-- A waiting job matches, no job runs, or what is read behind the list is as good as the
current job. -/
def Tells (cb : MatchCb D) (past : WorkerJob D) (w : Worker D) : Prop :=
  (∃ job ∈ w.jobs, job.matches cb = true) ∨ w.curJob = none ∨
    (past.matches cb = true ↔ ∃ job ∈ w.curJob, job.matches cb = true)

theorem workerHasJobByCb_iff (past : WorkerJob D) : w.workerHasJobByCb cb past = true ↔
    (∃ job ∈ w.jobs, job.matches cb = true) ∨ w.curJob ≠ none ∧ past.matches cb = true := by
  unfold Worker.workerHasJobByCb
  cases hfind : w.jobs.find? fun job => job.matches cb with
  | some job =>
    have hmatch : job.matches cb = true := by
      simpa using List.find?_some hfind
    exact iff_of_true rfl
      (.inl ⟨job, List.mem_of_find?_eq_some hfind, hmatch⟩)
  | none =>
    have hnone : ¬ ∃ job ∈ w.jobs, job.matches cb = true := by
      rintro ⟨job, hjob, hmatch⟩
      exact List.find?_eq_none.mp hfind job hjob hmatch
    simp [hnone, Option.isSome_iff_ne_none]

/-- The answer is right exactly where what is read is as good as the current job. -/
theorem hasJobByCb_right (cb : MatchCb D) (past : WorkerJob D) :
    (w.workerHasJobByCb cb past = true ↔ HasJob cb w) ↔ Tells cb past w := by
  rw [workerHasJobByCb_iff, HasJob, Tells]
  by_cases hjobs : ∃ job ∈ w.jobs, job.matches cb = true
  · exact iff_of_true (iff_of_true (.inl hjobs) (.inl hjobs)) (.inl hjobs)
  simp only [hjobs, false_or]
  cases hcur : w.curJob with
  | none => simp
  | some job => simp

/-! ### Any interleaving -/

/-- What holds at any time, with regard to the main thread. -/
structure Orderly (w : Worker D) : Prop where
  free : w.main = .free → w.cancelCurrent = false
  asleep : w.main = .waiting true → w.cancelCurrent = true
  current : w.cancelCurrent = true → ∃ job, w.curJob = some job

theorem step_orderly (h : Orderly w) {i : Step D} (hstep : step w i = some w') : Orderly w' := by
  obtain ⟨hfree, hasleep, hcurrent⟩ := h
  have hdoes := step_does hstep
  cases i with
  | setState state =>
    obtain ⟨-, rfl⟩ := hdoes
    exact ⟨hfree, hasleep, hcurrent⟩
  | addJob job =>
    obtain ⟨-, rfl⟩ := hdoes
    exact ⟨hfree, hasleep, hcurrent⟩
  | removeJobs cb =>
    obtain ⟨-, rfl⟩ := hdoes
    unfold Worker.workerRemoveJobsByCb
    dsimp only
    split
    · rename_i hany
      obtain ⟨job, hjob, -⟩ := (Option.any_eq_true _ _).mp hany
      exact ⟨nofun, fun _ => rfl, fun _ => ⟨job, hjob⟩⟩
    · exact ⟨hfree, hasleep, hcurrent⟩
  | wakeUp =>
    subst hdoes
    exact ⟨nofun, nofun, hcurrent⟩
  | sleepOn =>
    obtain ⟨hcancel, rfl⟩ := hdoes
    exact ⟨nofun, fun _ => hcancel, hcurrent⟩
  | resume =>
    obtain ⟨hcancel, rfl⟩ := hdoes
    exact ⟨fun _ => hcancel, nofun, hcurrent⟩
  | take =>
    obtain ⟨-, job, rest, -, rfl⟩ := hdoes
    exact ⟨hfree, hasleep, fun _ => ⟨job, rfl⟩⟩
  | finish =>
    obtain ⟨-, rfl⟩ | ⟨hcancel, rfl⟩ := hdoes
    · refine ⟨fun _ => rfl, fun hmain => ?_, nofun⟩
      dsimp only at hmain
      split at hmain
      · cases hmain
      · rename_i hawake
        exact absurd hmain hawake
    · exact ⟨hfree, hasleep, fun h => nomatch hcancel.symm.trans h⟩
  | leave =>
    obtain ⟨-, rfl⟩ := hdoes
    exact ⟨hfree, hasleep, hcurrent⟩

theorem run_orderly {steps : List (Step D)} (hrun : Runs.run step (initial D) steps = some w) :
    Orderly w := by
  have hinitial : Orderly (initial D) := ⟨fun _ => rfl, nofun, nofun⟩
  exact Runs.run_preserves (fun _ _ _ h hstep => step_orderly h hstep) _ _ steps hinitial hrun

/-- No wakeup is lost: as long as the main thread waits, there is a step that it waits for. -/
theorem removal_goes_on {steps : List (Step D)}
    (hrun : Runs.run step (initial D) steps = some w) (hmain : w.main ≠ .free) :
    (step w .finish).isSome ∨ (step w .resume).isSome := by
  obtain ⟨-, hasleep, hcurrent⟩ := run_orderly hrun
  by_cases hcancel : w.cancelCurrent = true
  · obtain ⟨job, hjob⟩ := hcurrent hcancel
    refine .inl ?_
    rw [step, hjob]
    dsimp only
    rw [if_pos hcancel]
    rfl
  · have hawake : w.main = .waiting false := by
      cases hw : w.main with
      | free => exact absurd hw hmain
      | waiting asleep =>
        cases asleep with
        | false => rfl
        | true => exact absurd (hasleep hw) hcancel
    refine .inr ?_
    rw [step, if_pos ⟨hawake, hcancel⟩]
    rfl

/-- `worker_remove_jobs_by_cb` returns, after what the threads do while it waits. -/
def Returns (w : Worker D) (meanwhile : List (Step D)) (w' : Worker D) : Prop :=
  if w.main = .free then meanwhile = [] ∧ w' = w
  else .resume ∉ meanwhile ∧ Runs.run step w (meanwhile ++ [.resume]) = some w'

/-- A removal is over when nothing matches, and the job that matched has ended. -/
theorem removal {w₁ w₂ : Worker D} {meanwhile : List (Step D)} (hfree : w.main = .free)
    (hstart : w₁ = w.workerRemoveJobsByCb cb) (hreturns : Returns w₁ meanwhile w₂) :
    Rid cb w₂ ∧ ∀ job ∈ w.curJob, job.matches cb = true → EndsAsked job w₁ meanwhile := by
  have hpurged : ∀ job ∈ w.jobs.filter fun job => !job.matches cb, job.matches cb = false := by
    intro job hjob
    simpa using (List.mem_filter.mp hjob).2
  unfold Worker.workerRemoveJobsByCb at hstart
  dsimp only at hstart
  split at hstart
  · rename_i hany
    obtain ⟨job, hjob, hmatch⟩ := (Option.any_eq_true _ _).mp hany
    have hwaiting : Waiting cb job w₁ := by
      rw [hstart]
      exact ⟨nofun, ⟨hjob, rfl⟩, hpurged⟩
    rw [Returns, if_neg hwaiting.main, Runs.run_append] at hreturns
    obtain ⟨hlater, hrun⟩ := hreturns
    obtain ⟨u, hu, hresume⟩ := Option.bind_eq_some_iff.mp hrun
    obtain ⟨v, hv, heq⟩ := Option.bind_eq_some_iff.mp hresume
    cases heq
    obtain ⟨hcancel, rfl⟩ : Does u w₂ .resume := step_does hv
    obtain ⟨hover, hends⟩ | hwaiting := run_waiting hwaiting hlater hu
    · refine ⟨hover.rid, fun j hj _ => ?_⟩
      obtain rfl := Option.some.inj (hjob.symm.trans hj)
      exact hends
    · exact nomatch hcancel.symm.trans hwaiting.asked.2
  · rename_i hany
    have hmain : w₁.main = .free := by
      rw [hstart]
      exact hfree
    have hcur : ∀ job ∈ w.curJob, job.matches cb = false := by
      intro job hjob
      by_contra hmatch
      exact hany ((Option.any_eq_true _ _).mpr ⟨job, hjob, Bool.not_eq_false _ ▸ hmatch⟩)
    rw [Returns, if_pos hmain] at hreturns
    rw [hreturns.2, hstart]
    exact ⟨⟨hpurged, hcur⟩, fun job hjob hmatch => absurd hmatch (by rw [hcur job hjob]; decide)⟩

/-- **The jobs of the worker**, whatever the threads have done. A query is right exactly where it
does not depend on what is behind the list. When a removal returns, nothing matches and the
current job, if it did, was asked to cancel and has ended; and while it waits, a step that it
waits for can be taken. -/
theorem worker_jobs {steps : List (Step D)} (hrun : Runs.run step (initial D) steps = some w) :
    (∀ cb past, (w.workerHasJobByCb cb past = true ↔ HasJob cb w) ↔ Tells cb past w) ∧
    (∀ pat past, (w.workerHasJobByType pat past = true ↔ HasJob (workerMatchesType pat) w) ↔
      Tells (workerMatchesType pat) past w) ∧
    (∀ cb w₁ meanwhile w₂, step w (.removeJobs cb) = some w₁ → Returns w₁ meanwhile w₂ →
      Rid cb w₂ ∧ ∀ job ∈ w.curJob, job.matches cb = true → EndsAsked job w₁ meanwhile) ∧
    (w.main ≠ .free → (step w .finish).isSome ∨ (step w .resume).isSome) := by
  refine ⟨hasJobByCb_right, fun pat => hasJobByCb_right _, ?_, removal_goes_on hrun⟩
  intro cb w₁ meanwhile w₂ hstep hreturns
  rw [step] at hstep
  split at hstep
  · rename_i hfree
    exact removal hfree (Option.some.inj hstep).symm hreturns
  · cases hstep

end

/-! ### A job of the library -/

def libJob : WorkerJob Unit := ⟨jobTypeLib ||| jobTypeAdd, ()⟩

def libRunning : Worker Unit := ⟨[], some libJob, false, .running, false, .free⟩

def libSteps : List (Step Unit) := [.setState .running, .addJob libJob, .take]

/-- While it runs, the jobs of the library are removed. -/
theorem worker_jobs_lib :
    ((libRunning.workerHasJobByType jobTypeLib libJob = true ↔
        HasJob (workerMatchesType jobTypeLib) libRunning) ↔
      Tells (workerMatchesType jobTypeLib) libJob libRunning) ∧
    Rid (D := Unit) (workerMatchesType jobTypeLib) ⟨[], none, false, .running, false, .free⟩ ∧
    EndsAsked libJob ⟨[], some libJob, true, .running, false, .waiting true⟩ [.finish] := by
  have hrun : Runs.run step (initial Unit) libSteps = some libRunning := rfl
  obtain ⟨-, hquery, hremove, -⟩ := worker_jobs hrun
  obtain ⟨hrid, hends⟩ := hremove (workerMatchesType jobTypeLib)
    ⟨[], some libJob, true, .running, false, .waiting true⟩ [.finish]
    ⟨[], none, false, .running, false, .free⟩ rfl ⟨by simp, rfl⟩
  exact ⟨hquery jobTypeLib libJob, hrid, hends libJob rfl (by decide)⟩

/-- The job runs, and there is none where zeros are behind the list. -/
theorem worker_jobs_missed : Runs.run step (initial Unit) libSteps = some libRunning ∧
    HasJob (workerMatchesType jobTypeLib) libRunning ∧
    libRunning.workerHasJobByType jobTypeLib ⟨0, ()⟩ = false :=
  ⟨rfl, .inr ⟨libJob, rfl, by decide⟩, by decide⟩

/-! ### Removals in one step -/

def ofJob (job : Job) : WorkerJob Job := ⟨job.type, job⟩

/-- The worker with its results left out, when the main thread does not wait. -/
def ofWorker (w : Jobs.Worker) : Worker Job where
  jobs := w.workerJobs.map ofJob
  curJob := w.curJob.map fun running => ofJob running.job
  cancelCurrent := false
  state := .running
  left := false
  main := .free

theorem ofWorker_hasJobByType (w : Jobs.Worker) (pat : UInt32) (past : WorkerJob Job) :
    (ofWorker w).workerHasJobByType pat past = w.workerHasJobByType pat past.type := by
  have hmatch (job : Job) :
      (ofJob job).matches (workerMatchesType pat) = job.workerMatchesType pat := rfl
  have hpast : past.matches (workerMatchesType pat) = decide (past.type &&& pat ≠ 0) := rfl
  rw [Bool.eq_iff_iff, Worker.workerHasJobByType, workerHasJobByCb_iff]
  cases hcur : w.curJob with
  | none => simp [ofWorker, hcur, hmatch, Jobs.Worker.workerHasJobByType]
  | some running => simp [ofWorker, hcur, hmatch, hpast, Jobs.Worker.workerHasJobByType]

theorem workerRemoveJobs_left (w : Jobs.Worker) (cb : Job → Bool) (more : Nat) :
    (w.workerRemoveJobs cb more).workerJobs = w.workerJobs.filter (fun job => !cb job) ∧
    (w.workerRemoveJobs cb more).curJob =
      if w.curJob.any fun running => cb running.job then none else w.curJob := by
  unfold Jobs.Worker.workerRemoveJobs
  cases hcur : w.curJob with
  | none => exact ⟨rfl, rfl⟩
  | some running =>
    by_cases hmatch : cb running.job = true
    · cases running <;> simp [hmatch]
    · simp [hmatch]

/-- A removal in one step is what the threads come to when the worker takes up no other job before
the main thread goes on. -/
theorem ofWorker_removeJobs (w : Jobs.Worker) (cb : Job → Bool) (more : Nat) :
    Returns ((ofWorker w).workerRemoveJobsByCb fun _ job => cb job)
      (if w.curJob.any fun running => cb running.job then [.finish] else [])
      (ofWorker (w.workerRemoveJobs cb more)) := by
  obtain ⟨hjobs, hcur⟩ := workerRemoveJobs_left w cb more
  have hmatch (job : Job) : (ofJob job).matches (fun _ job => cb job) = cb job := rfl
  have hfilter : (w.workerJobs.map ofJob).filter (fun job => !job.matches fun _ job => cb job) =
      (w.workerJobs.filter fun job => !cb job).map ofJob := by
    rw [List.filter_map]
    rfl
  have hany : ((ofWorker w).curJob.any fun job => job.matches fun _ job => cb job) =
      w.curJob.any fun running => cb running.job := by
    cases hw : w.curJob <;> simp [ofWorker, hw, hmatch]
  unfold Worker.workerRemoveJobsByCb
  dsimp only
  rw [hany]
  split
  · rename_i hmatching
    obtain ⟨running, hw, -⟩ := (Option.any_eq_true _ _).mp hmatching
    have hended : ofWorker (w.workerRemoveJobs cb more) =
        {ofWorker w with
          jobs := (w.workerJobs.filter fun job => !cb job).map ofJob
          curJob := none} := by
      rw [if_pos hmatching] at hcur
      simp [ofWorker, hjobs, hcur]
    rw [Returns, if_neg nofun, hended, ← hfilter]
    refine ⟨by simp, ?_⟩
    simp [Runs.run, step, ofWorker, hw]
  · rename_i hmatching
    rw [if_neg hmatching] at hcur
    refine ⟨rfl, ?_⟩
    simp only [ofWorker, hjobs, hcur, hfilter]

end GracefulMusic.Jobs.Threads
