import GracefulMusic.Jobs.Deletion

/-! What a clear leaves behind of the jobs before it.

It takes the waiting jobs out of the list and stops the current one, but the results that
are not handled stay, and the buffer of the stopped job becomes another one. Their tracks
come in after the clear. -/
namespace GracefulMusic.Jobs
open Tracks GracefulMusic.Expr

/-! ### After the removal of the jobs -/

/-- There are no results of add jobs for the target, and the current job, if it is one,
has flushed all it came to and comes to nothing more. -/
structure NothingInFlight (w : Worker) (target : Target) (more : Nat) : Prop where
  results : ∀ data tis, .add data tis ∈ w.results → data.target ≠ target
  current : ∀ data remaining buffer, w.curJob = some (.add data remaining buffer) →
    data.target = target → buffer ++ remaining.take more = []

namespace Worker
variable {w : Worker} {cb : Job → Bool} {more : Nat}

theorem mem_jobs_add {data : AddData} : .add data ∈ w.jobs ↔ (∃ tis, .add data tis ∈ w.results) ∨
    (∃ remaining buffer, w.curJob = some (.add data remaining buffer)) ∨
      .add data ∈ w.workerJobs := by
  constructor
  · intro hmem
    rcases List.mem_append.mp hmem with hmem | hmem
    · rcases List.mem_append.mp hmem with hmem | hmem
      · obtain ⟨r, hr, hjob⟩ := List.mem_map.mp hmem
        cases r <;> cases hjob
        exact .inl ⟨_, hr⟩
      · obtain ⟨r, hr, hjob⟩ := Option.map_eq_some_iff.mp (Option.mem_toList.mp hmem)
        cases r <;> cases hjob
        exact .inr (.inl ⟨_, _, hr⟩)
    · exact .inr (.inr hmem)
  · rintro (⟨tis, hr⟩ | ⟨remaining, buffer, hr⟩ | hjob)
    · exact job_of_result hr
    · exact job_of_current hr
    · exact job_of_waiting hjob

theorem mem_jobs_update {entries : List UpdateEntry} : .update entries ∈ w.jobs ↔
    .update entries ∈ w.results ∨ w.curJob = some (.update entries) ∨
      .update entries ∈ w.workerJobs := by
  constructor
  · intro hmem
    rcases List.mem_append.mp hmem with hmem | hmem
    · rcases List.mem_append.mp hmem with hmem | hmem
      · obtain ⟨r, hr, hjob⟩ := List.mem_map.mp hmem
        cases r <;> cases hjob
        exact .inl hr
      · obtain ⟨r, hr, hjob⟩ := Option.map_eq_some_iff.mp (Option.mem_toList.mp hmem)
        cases r <;> cases hjob
        exact .inr (.inl hr)
    · exact .inr (.inr hmem)
  · rintro (hr | hr | hjob)
    · exact List.mem_append_left _ (List.mem_append_left _ (List.mem_map.mpr ⟨_, hr, rfl⟩))
    · simp [jobs, hr, Running.job]
    · exact job_of_waiting hjob

/-- A removal that leaves deletions alone: the list loses what matches, the current job
if it does ends, and what is left of it becomes the last results. -/
theorem removal_shape (w : Worker) (hspare : ∀ pl, cb (.delete pl) = false) (more : Nat) :
    (w.workerRemoveJobs cb more).workerJobs = w.workerJobs.filter (fun job => !cb job) ∧
    (∀ r, (w.workerRemoveJobs cb more).curJob = some r → w.curJob = some r ∧ cb r.job = false) ∧
    ∃ last, (w.workerRemoveJobs cb more).results = w.results ++ last ∧
      (∀ data, (∃ tis, .add data tis ∈ last) ↔ ∃ remaining buffer,
        w.curJob = some (.add data remaining buffer) ∧ cb (.add data) = true ∧
          buffer ++ remaining.take more ≠ []) ∧
      ∀ entries, .update entries ∈ last ↔
        w.curJob = some (.update entries) ∧ cb (.update entries) = true := by
  have hfree : (w.workerJobs.filter cb).flatMap Job.freeCb = [] := freeCb_spared hspare _
  rcases w with ⟨workerJobs, _ | running, results⟩
  · simp only [workerRemoveJobs, hfree, List.append_nil]
    exact ⟨trivial, fun r hr => by simp at hr, [], by simp⟩
  by_cases hmatch : cb running.job = true
  · cases running with
    | add data remaining buffer =>
      obtain ⟨batches, hresults, hne, hflat⟩ :=
        flush_foldl_addTi_spec data (remaining.take more) (results, buffer)
      simp only [workerRemoveJobs, hfree, List.append_nil, if_pos hmatch, hresults]
      refine ⟨trivial, fun r hr => by simp at hr, _, rfl, fun d => ?_, fun entries => by simp⟩
      constructor
      · intro h
        obtain ⟨tis, htis⟩ := h
        obtain ⟨batch, hbatch, heq⟩ := List.mem_map.mp htis
        cases heq
        refine ⟨remaining, buffer, rfl, hmatch, fun hnil => ?_⟩
        rw [hnil] at hflat
        exact hne (List.flatten_eq_nil_iff.mp hflat _ hbatch ▸ hbatch)
      · intro h
        obtain ⟨_, _, heq, -, hsome⟩ := h
        cases heq
        cases batches with
        | nil => exact absurd hflat.symm hsome
        | cons batch batches => exact ⟨batch, .head _⟩
    | update entries =>
      simp only [workerRemoveJobs, hfree, List.append_nil, if_pos hmatch]
      refine ⟨trivial, fun r hr => by simp at hr, _, rfl, fun d => by simp, fun entries' => ?_⟩
      constructor
      · intro hmem
        cases List.mem_singleton.mp hmem
        exact ⟨rfl, hmatch⟩
      · intro h
        obtain ⟨heq, -⟩ := h
        cases heq
        exact .head _
    | delete pl =>
      rw [Running.job, hspare] at hmatch
      cases hmatch
  · simp only [workerRemoveJobs, hfree, List.append_nil, if_neg hmatch]
    refine ⟨trivial, fun r hr => ⟨hr, ?_⟩, [], by simp, fun d => ?_, fun entries => ?_⟩
    · obtain rfl := Option.some.inj hr
      simpa using hmatch
    · refine iff_of_false (by simp) ?_
      intro h
      obtain ⟨_, _, heq, hcb, -⟩ := h
      cases heq
      exact hmatch hcb
    · refine iff_of_false (by simp) ?_
      intro h
      obtain ⟨heq, hcb⟩ := h
      cases heq
      exact hmatch hcb

/-- What is left of the jobs of the target after its clear. -/
theorem add_after_removal {target : Target} (hcb : ∀ job, cb job = true ↔ job.target = some target)
    {data : AddData} (htarget : data.target = target) :
    .add data ∈ (w.workerRemoveJobs cb more).jobs ↔
      ∃ tis, .add data tis ∈ (w.workerRemoveJobs cb more).results := by
  have hspare : ∀ pl, cb (.delete pl) = false := fun pl =>
    Bool.eq_false_iff.mpr fun h => nomatch (hcb _).mp h
  have hmatch : cb (.add data) = true := (hcb _).mpr (congrArg some htarget)
  obtain ⟨hwait, hcur, -⟩ := w.removal_shape hspare more
  rw [mem_jobs_add]
  refine or_iff_left ?_
  rintro (⟨remaining, buffer, hr⟩ | hjob)
  · have := (hcur _ hr).2
    rw [Running.job, hmatch] at this
    cases this
  · rw [hwait, List.mem_filter, hmatch] at hjob
    cases hjob.2

theorem nothingInFlight_iff {target : Target}
    (hcb : ∀ job, cb job = true ↔ job.target = some target) :
    NothingInFlight w target more ↔
      ∀ data tis, .add data tis ∈ (w.workerRemoveJobs cb more).results → data.target ≠ target := by
  have hspare : ∀ pl, cb (.delete pl) = false := fun pl =>
    Bool.eq_false_iff.mpr fun h => nomatch (hcb _).mp h
  obtain ⟨-, -, last, hresults, hadd, -⟩ := w.removal_shape hspare more
  rw [hresults]
  constructor
  · intro h data tis hmem htarget
    rcases List.mem_append.mp hmem with hmem | hmem
    · exact h.results data tis hmem htarget
    · obtain ⟨remaining, buffer, hcur, -, hsome⟩ := (hadd data).mp ⟨tis, hmem⟩
      exact hsome (h.current data remaining buffer hcur htarget)
  · intro h
    refine ⟨fun data tis hmem => h data tis (List.mem_append_left _ hmem),
      fun data remaining buffer hcur htarget => ?_⟩
    by_contra hsome
    obtain ⟨tis, hmem⟩ := (hadd data).mpr
      ⟨remaining, buffer, hcur, (hcb _).mpr (congrArg some htarget), hsome⟩
    exact h data tis (List.mem_append_right _ hmem) htarget

end Worker

/-! ### Numbers of jobs -/

section
variable {P : Type} {s t u : System P}

/-- Add jobs that come in have new numbers. -/
structure Grows (s t : System P) : Prop where
  serial : s.nextSerial ≤ t.nextSerial
  jobs : ∀ data, .add data ∈ t.worker.jobs → .add data ∈ s.worker.jobs ∨ s.nextSerial ≤ data.serial

theorem Grows.trans (h : Grows s t) (h' : Grows t u) : Grows s u where
  serial := h.serial.trans h'.serial
  jobs data hdata := by
    rcases h'.jobs data hdata with hdata | hserial
    · exact h.jobs data hdata
    · exact .inr (h.serial.trans hserial)

/-- Nothing comes in. -/
theorem Grows.of_subset (hserial : t.nextSerial = s.nextSerial)
    (hjobs : t.worker.jobs ⊆ s.worker.jobs) : Grows s t :=
  ⟨Nat.le_of_eq hserial.symm, fun _ hdata => .inl (hjobs hdata)⟩

theorem cmusAdd_grows (s : System P) (target : Target) (prepend : Bool)
    (tracks : List TrackInfo) : Grows s (s.cmusAdd target prepend tracks) := by
  refine ⟨Nat.le_succ _, fun data hdata => ?_⟩
  simp only [System.cmusAdd, Worker.workerAddJob_jobs, List.mem_append, List.mem_singleton]
    at hdata
  rcases hdata with hdata | hdata
  · exact .inl hdata
  · cases hdata
    exact .inr (Nat.le_refl _)

theorem workerAddJob_grows (s : System P) (job : Job) (hjob : ∀ data, job ≠ .add data) :
    Grows s {s with worker := s.worker.workerAddJob job} := by
  refine ⟨Nat.le_refl _, fun data hdata => .inl ?_⟩
  rw [Worker.workerAddJob_jobs, List.mem_append, List.mem_singleton] at hdata
  exact hdata.resolve_right fun heq => hjob data heq.symm

theorem workerRemoveJobs_grows (s : System P) (cb : Job → Bool)
    (hspare : ∀ pl, cb (.delete pl) = false) (more : Nat) : Grows s (s.workerRemoveJobs cb more) :=
  .of_subset rfl (s.worker.workerRemoveJobs_spec hspare more).1.subset

theorem plDeleteSelectedPl_grows (s : System P) (answer : Bool) (more : Nat) :
    Grows s (s.plDeleteSelectedPl answer more) := by
  have hcut := workerRemoveJobs_grows s (Job.plMatchAddJob s.visible) (fun _ => rfl) more
  have hadd := hcut.trans (workerAddJob_grows _ (.delete s.visible) nofun)
  unfold System.plDeleteSelectedPl
  split
  · exact ⟨Nat.le_refl _, fun _ => .inl⟩
  split
  · dsimp only
    split <;> exact ⟨hadd.serial, hadd.jobs⟩
  · exact ⟨Nat.le_refl _, fun _ => .inl⟩

end

section
variable {P : Type} [DecidableEq P] (cfg : Lib.Config P) {s t : System P}

theorem removeMatchingTracks_worker {target : Target} {cb : TrackInfo → Bool}
    (hrun : s.removeMatchingTracks cfg target cb = some t) :
    t.worker = s.worker ∧ t.nextSerial = s.nextSerial := by
  obtain ⟨stores, -, rfl⟩ := Option.map_eq_some_iff.mp hrun
  exact ⟨rfl, rfl⟩

theorem foldl_handTrack_worker (data : AddData) (tis : List TrackInfo) (s : System P) :
    (tis.foldl (System.handTrack cfg data) s).worker = s.worker ∧
      (tis.foldl (System.handTrack cfg data) s).nextSerial = s.nextSerial := by
  induction tis generalizing s with
  | nil => exact ⟨rfl, rfl⟩
  | cons ti tis ih => exact ih (s.handTrack cfg data ti)

theorem foldlM_handleUpdateEntry_grows {entries : List UpdateEntry}
    (hrun : entries.foldlM (System.handleUpdateEntry cfg) s = some t) :
    Grows s t ∧ t.worker.results = s.worker.results := by
  induction entries generalizing s with
  | nil =>
    cases hrun
    exact ⟨.of_subset rfl (List.Subset.refl _), rfl⟩
  | cons entry entries ih =>
    rw [List.foldlM_cons] at hrun
    obtain ⟨s₁, hentry, hrun⟩ := Option.bind_eq_some_iff.mp hrun
    obtain ⟨lib, -, rfl⟩ := Option.map_eq_some_iff.mp hentry
    have hrem : Grows s {s with
        stores := {s.stores with lib}, history := s.history.lose .lib [entry.ti]} :=
      .of_subset rfl (List.Subset.refl _)
    cases hreadd : entry.readd with
    | none =>
      rw [hreadd] at hrun
      obtain ⟨hgrows, hresults⟩ := ih hrun
      exact ⟨hrem.trans hgrows, hresults⟩
    | some tracks =>
      rw [hreadd] at hrun
      obtain ⟨hgrows, hresults⟩ := ih hrun
      exact ⟨hrem.trans ((cmusAdd_grows _ _ _ _).trans hgrows), hresults⟩

/-- Handling takes the first result. -/
theorem jobHandle_grows (hrun : s.jobHandle cfg = some t) :
    Grows s t ∧ t.worker.results = s.worker.results.tail := by
  rw [System.jobHandle] at hrun
  cases hresults : s.worker.results with
  | nil =>
    rw [hresults] at hrun
    cases hrun
    exact ⟨.of_subset rfl (List.Subset.refl _), hresults⟩
  | cons result results =>
    rw [hresults] at hrun
    obtain ⟨-, hrun⟩ := Option.ite_none_left_eq_some.mp hrun
    have hpop : Grows s {s with worker := {s.worker with results}} := by
      refine .of_subset rfl fun job hjob => ?_
      simp only [Worker.jobs, hresults, List.map_cons, List.cons_append] at hjob ⊢
      exact .tail _ hjob
    cases result with
    | add data tis =>
      obtain rfl := Option.some.inj hrun
      obtain ⟨hworker, hserial⟩ :=
        foldl_handTrack_worker cfg data tis {s with worker := {s.worker with results}}
      refine ⟨hpop.trans (.of_subset hserial fun job hjob => ?_), ?_⟩
      · rwa [hworker] at hjob
      · rw [hworker, List.tail_cons]
    | update entries =>
      obtain ⟨hgrows, hsame⟩ := foldlM_handleUpdateEntry_grows cfg hrun
      exact ⟨hpop.trans hgrows, hsame⟩
    | plDelete pl =>
      obtain ⟨s₁, hclear, rfl⟩ := Option.map_eq_some_iff.mp hrun
      obtain ⟨hworker, hserial⟩ := removeMatchingTracks_worker cfg hclear
      refine ⟨hpop.trans (.of_subset hserial fun job hjob => ?_), ?_⟩
      · exact hworker ▸ hjob
      · show s₁.worker.results = _
        rw [hworker, List.tail_cons]

/-- The lists after a clear. -/
theorem clear_worker {c : Clear} {more : Nat} (hrun : s.clear cfg more c = some t) :
    ∃ cb, (∀ job, cb job = true ↔ job.target = some (s.target c.view)) ∧
      s.nextSerial ≤ t.nextSerial ∧
      t.worker = match c.loads with
        | some tracks => (s.worker.workerRemoveJobs cb more).workerAddJob
          (.add ⟨s.nextSerial, s.target c.view, false, tracks⟩)
        | none => s.worker.workerRemoveJobs cb more := by
  rcases c with ⟨_ | _ | _⟩ | tracks | tracks
  · obtain ⟨s₁, hclear, rfl⟩ := Option.map_eq_some_iff.mp hrun
    obtain ⟨hworker, hserial⟩ := removeMatchingTracks_worker cfg hclear
    exact ⟨_, Job.workerMatchesType_lib, Nat.le_of_eq hserial.symm, hworker⟩
  · obtain ⟨hworker, hserial⟩ := removeMatchingTracks_worker cfg hrun
    exact ⟨_, Job.workerMatchesType_queue, Nat.le_of_eq hserial.symm, hworker⟩
  · obtain ⟨s₁, hclear, rfl⟩ := Option.map_eq_some_iff.mp hrun
    obtain ⟨hworker, hserial⟩ := removeMatchingTracks_worker cfg hclear
    refine ⟨_, Job.plMatchAddJob_iff s.visible, Nat.le_of_eq hserial.symm, ?_⟩
    have hsame := removeMatchingTracks_same cfg hclear
    show s₁.worker.workerRemoveJobs (Job.plMatchAddJob s₁.visible) more = _
    rw [hworker, hsame.visible]
    rfl
  · obtain ⟨s₁, hclear, rfl⟩ := Option.map_eq_some_iff.mp hrun
    obtain ⟨hworker, hserial⟩ := removeMatchingTracks_worker cfg hclear
    refine ⟨_, Job.workerMatchesType_lib, Nat.le_trans (Nat.le_of_eq hserial.symm) (Nat.le_succ _),
      ?_⟩
    show s₁.worker.workerAddJob (.add ⟨s₁.nextSerial, .lib, false, tracks⟩) = _
    rw [hworker, hserial]
    rfl
  · obtain ⟨s₁, hclear, rfl⟩ := Option.map_eq_some_iff.mp hrun
    obtain ⟨s₂, hempty, rfl⟩ := Option.map_eq_some_iff.mp hclear
    obtain ⟨hworker, hserial⟩ := removeMatchingTracks_worker cfg hempty
    have hsame := removeMatchingTracks_same cfg hempty
    refine ⟨_, Job.plMatchAddJob_iff s.visible, Nat.le_trans (Nat.le_of_eq hserial.symm)
      (Nat.le_succ _), ?_⟩
    show (s₂.worker.workerRemoveJobs (Job.plMatchAddJob s₂.visible) more).workerAddJob
      (.add ⟨s₂.nextSerial, .playlist s₂.visible, false, tracks⟩) = _
    rw [hworker, hserial, hsame.visible]
    rfl

theorem clear_grows {c : Clear} {more : Nat} (hrun : s.clear cfg more c = some t) : Grows s t := by
  obtain ⟨cb, hcb, hserial, hworker⟩ := clear_worker cfg hrun
  have hspare : ∀ pl, cb (.delete pl) = false := fun pl =>
    Bool.eq_false_iff.mpr fun h => nomatch (hcb _).mp h
  have hsub := (s.worker.workerRemoveJobs_spec hspare more).1.subset
  refine ⟨hserial, fun data hdata => ?_⟩
  rw [hworker] at hdata
  cases hloads : c.loads with
  | none =>
    rw [hloads] at hdata
    exact .inl (hsub hdata)
  | some tracks =>
    simp only [hloads, Worker.workerAddJob_jobs, List.mem_append, List.mem_singleton] at hdata
    rcases hdata with hdata | hdata
    · exact .inl (hsub hdata)
    · cases hdata
      exact .inr (Nat.le_refl _)

theorem step_grows {op : Op} (hrun : step cfg s op = some t) : Grows s t := by
  have hmoved : ∀ w : Worker, s.worker.Moved w → Grows s {s with worker := w} := fun w hw =>
    .of_subset rfl hw.jobs.subset
  have hkeep : ∀ u : System P, u.worker = s.worker → u.nextSerial = s.nextSerial → Grows s u :=
    fun u hworker hserial => .of_subset hserial (hworker ▸ List.Subset.refl _)
  cases op with
  | take => exact Option.some.inj hrun ▸ hmoved _ s.worker.take_moved
  | produce => exact Option.some.inj hrun ▸ hmoved _ s.worker.produce_moved
  | finish => exact Option.some.inj hrun ▸ hmoved _ s.worker.finish_moved
  | handle => exact (jobHandle_grows cfg hrun).1
  | add view prepend tracks =>
    obtain rfl := Option.some.inj hrun
    cases view <;> exact cmusAdd_grows s _ _ tracks
  | update entries => exact Option.some.inj hrun ▸ workerAddJob_grows s _ nofun
  | clear c more => exact clear_grows cfg hrun
  | remove view cb =>
    obtain ⟨hworker, hserial⟩ := removeMatchingTracks_worker cfg hrun
    exact hkeep t hworker hserial
  | plCreate => exact Option.some.inj hrun ▸ hkeep _ rfl rfl
  | plImport tracks =>
    obtain rfl := Option.some.inj hrun
    exact (hkeep s.plCreate rfl rfl).trans (cmusAdd_grows _ _ _ tracks)
  | select pl =>
    obtain rfl := Option.some.inj hrun
    unfold System.select
    split <;> exact hkeep _ rfl rfl
  | markSelectedPl => exact Option.some.inj hrun ▸ hkeep _ rfl rfl
  | deleteSelectedPl answer more =>
    exact Option.some.inj hrun ▸ plDeleteSelectedPl_grows s answer more
  | setFilter expr =>
    obtain ⟨lib, -, rfl⟩ := Option.map_eq_some_iff.mp hrun
    exact hkeep _ rfl rfl
  | setAddFilter expr => exact Option.some.inj hrun ▸ hkeep _ rfl rfl
  | setLiveFilter text =>
    obtain ⟨lib, -, rfl⟩ := Option.map_eq_some_iff.mp hrun
    exact hkeep _ rfl rfl

/-! ### The barrier -/

/-- A result that is handled now does not add tracks of a job below `n` to the target. -/
def KeepsOut (n : Nat) (target : Target) (s : System P) : Op → Prop
  | .handle => ∀ data tis rest, s.worker.results = .add data tis :: rest →
    data.target = target → n ≤ data.serial
  | _ => True

/-- Results are handled in turn. -/
theorem handled_in_turn {front rest : List Result} (h : Reached s)
    (hresults : s.worker.results = front ++ rest) :
    ∃ t, Runs.run (step cfg) s (List.replicate front.length .handle) = some t ∧
      t.worker.results = rest := by
  induction front generalizing s with
  | nil => exact ⟨s, rfl, hresults⟩
  | cons result front ih =>
    obtain ⟨s₁, hrun₁, h₁⟩ := step_reached cfg h .handle
    have htail := (jobHandle_grows cfg hrun₁).2
    rw [hresults, List.cons_append, List.tail_cons] at htail
    obtain ⟨t, hrun, ht⟩ := ih h₁ htail
    exact ⟨t, by rw [List.length_cons, List.replicate_succ, Runs.run, hrun₁]; exact hrun, ht⟩

theorem clear_keepsOut_iff {c : Clear} {more : Nat} (h : Reached s) (ht : Reached t)
    (hrun : s.clear cfg more c = some t) :
    (∀ later, Runs.Along (step cfg) (KeepsOut s.nextSerial (s.target c.view)) t later) ↔
      NothingInFlight s.worker (s.target c.view) more := by
  obtain ⟨cb, hcb, hserial, hworker⟩ := clear_worker cfg hrun
  have hspare : ∀ pl, cb (.delete pl) = false := fun pl =>
    Bool.eq_false_iff.mpr fun h => nomatch (hcb _).mp h
  have hresults : t.worker.results = (s.worker.workerRemoveJobs cb more).results := by
    rw [hworker]
    split <;> rfl
  rw [Worker.nothingInFlight_iff hcb]
  constructor
  · intro hall data tis hmem htarget
    -- the results up to the one in question are handled
    obtain ⟨front, rest, hsplit⟩ := List.append_of_mem hmem
    obtain ⟨u, hu, hures⟩ := handled_in_turn cfg ht (hresults.trans hsplit)
    have hnow := ((hall (List.replicate front.length .handle ++ [.handle])).of_append hu).1
    have hknown := h.accounted.known data ((s.worker.workerRemoveJobs_spec hspare more).1.subset
      (Worker.job_of_result hmem))
    exact absurd (hnow data tis rest hures htarget)
      (Nat.not_le_of_lt (h.accounted.serials data hknown))
  · intro hnone later
    refine Runs.along_of_invariant
      (I := fun u : System P => s.nextSerial ≤ u.nextSerial ∧ ∀ data,
        .add data ∈ u.worker.jobs → data.target = s.target c.view → s.nextSerial ≤ data.serial)
      (fun u op hu => ?_) (fun u op v hu hstep => ?_) ⟨hserial, fun data hdata htarget => ?_⟩ later
    · cases op with
      | handle =>
        intro data tis rest hres
        have hmem : Result.add data tis ∈ u.worker.results := by
          rw [hres]
          exact .head _
        exact hu.2 data (Worker.job_of_result hmem)
      | _ => trivial
    · have hgrows := step_grows cfg hstep
      refine ⟨hu.1.trans hgrows.serial, fun data hdata htarget => ?_⟩
      rcases hgrows.jobs data hdata with hdata | hnew
      · exact hu.2 data hdata htarget
      · exact hu.1.trans hnew
    · rcases (clear_grows cfg hrun).jobs data hdata with hold | hnew
      · have hafter : .add data ∈ (s.worker.workerRemoveJobs cb more).jobs ∨
            s.nextSerial ≤ data.serial := by
          rw [hworker] at hdata
          cases hloads : c.loads with
          | none =>
            rw [hloads] at hdata
            exact .inl hdata
          | some tracks =>
            simp only [hloads, Worker.workerAddJob_jobs, List.mem_append, List.mem_singleton]
              at hdata
            refine hdata.imp_right fun heq => ?_
            cases heq
            exact Nat.le_refl _
        refine hafter.elim (fun hafter => ?_) id
        obtain ⟨tis, hres⟩ := (Worker.add_after_removal hcb htarget).mp hafter
        exact absurd htarget (hnone data tis hres)
      · exact hnew

end

end GracefulMusic.Jobs
