import GracefulMusic.Jobs.Worker

/-! What becomes of jobs and their tracks between scheduling and handling.

The worker only moves tracks along: buffer, batches and rest of a job are its tracks in
their order. A removal takes whole jobs out of the list, and of the current job what it
does not come to any more. -/
namespace GracefulMusic.Jobs

variable {w : Worker} {cb : Job → Bool} {more : Nat} {job : Job}

/-! ### Batches of one job -/

theorem AddData.share_append (n : Nat) (data : AddData) (a b : List TrackInfo) :
    data.share n (a ++ b) = data.share n a ++ data.share n b := by
  unfold AddData.share
  split <;> rfl

theorem share_batches (n : Nat) (data : AddData) (batches : List (List TrackInfo)) :
    (batches.map (Result.add data)).flatMap (Result.share n) = data.share n batches.flatten := by
  induction batches with
  | nil =>
    unfold AddData.share
    split <;> rfl
  | cons batch batches ih =>
    rw [List.flatten_cons, AddData.share_append, ← ih]
    rfl

/-- The results of a job are its tracks in their order, cut into batches of at least one. -/
theorem addTi_spec (data : AddData) (s : List Result × List TrackInfo) (ti : TrackInfo) :
    ∃ batches : List (List TrackInfo),
      (addTi data s ti).1 = s.1 ++ batches.map (.add data) ∧ [] ∉ batches ∧
      batches.flatten ++ (addTi data s ti).2 = s.2 ++ [ti] := by
  by_cases hfull : s.2.length = tiCap
  · rw [addTi, if_pos hfull]
    refine ⟨[s.2], rfl, fun hmem => ?_, by simp⟩
    rw [← List.mem_singleton.mp hmem] at hfull
    cases hfull
  · rw [addTi, if_neg hfull]
    exact ⟨[], by simp, List.not_mem_nil, rfl⟩

theorem flushTiBuffer_spec (data : AddData) (s : List Result × List TrackInfo) :
    ∃ batches : List (List TrackInfo),
      flushTiBuffer data s = s.1 ++ batches.map (.add data) ∧ [] ∉ batches ∧
      batches.flatten = s.2 := by
  by_cases hempty : s.2 = []
  · exact ⟨[], by rw [flushTiBuffer, if_pos hempty]; simp, List.not_mem_nil, hempty.symm⟩
  · refine ⟨[s.2], by rw [flushTiBuffer, if_neg hempty]; rfl, ?_, by simp⟩
    exact fun hmem => hempty (List.mem_singleton.mp hmem).symm

/-- A job that comes to `tis` and ends. -/
theorem flush_foldl_addTi_spec (data : AddData) (tis : List TrackInfo)
    (s : List Result × List TrackInfo) :
    ∃ batches : List (List TrackInfo),
      flushTiBuffer data (tis.foldl (addTi data) s) = s.1 ++ batches.map (.add data) ∧
      [] ∉ batches ∧ batches.flatten = s.2 ++ tis := by
  induction tis generalizing s with
  | nil => simpa using flushTiBuffer_spec data s
  | cons ti tis ih =>
    obtain ⟨first, hresults, hfirst, hflat⟩ := addTi_spec data s ti
    obtain ⟨later, hlater, hne, hrest⟩ := ih (addTi data s ti)
    refine ⟨first ++ later, by rw [List.foldl_cons, hlater, hresults]; simp,
      by simp [hfirst, hne], ?_⟩
    rw [List.flatten_append, hrest, ← List.append_assoc, hflat, List.append_assoc]
    rfl

/-! ### Jobs in their order -/

namespace Job

def deletes : Job → Option Nat
  | .delete pl => some pl
  | _ => none

/-- How jobs change as they are worked off: each stays where it is, an add job as often as
it has results to come, and only a deletion is never lost. -/
inductive Spread : List Job → List Job → Prop where
  | nil : Spread [] []
  | keep {l l' : List Job} (job : Job) (h : Spread l l') : Spread (job :: l) (job :: l')
  | drop {l l' : List Job} {job : Job} (hjob : job.deletes = none) (h : Spread l l') :
    Spread (job :: l) l'
  | again {l l' : List Job} {data : AddData} (h : Spread (.add data :: l) l') :
    Spread (.add data :: l) (.add data :: l')

namespace Spread
variable {a a' b b' : List Job}

theorem refl (l : List Job) : Spread l l := by
  induction l with
  | nil => exact .nil
  | cons job l ih => exact .keep job ih

theorem append (ha : Spread a a') (hb : Spread b b') : Spread (a ++ b) (a' ++ b') := by
  induction ha with
  | nil => exact hb
  | keep job _ ih => exact .keep job ih
  | drop hjob _ ih => exact .drop hjob ih
  | again _ ih => exact .again ih

theorem batches (data : AddData) (n : Nat) : Spread [.add data] (List.replicate n (.add data)) := by
  induction n with
  | zero => exact .drop rfl .nil
  | succ n ih => exact .again ih

theorem filter {cb : Job → Bool} (hcb : ∀ pl, cb (.delete pl) = false) (l : List Job) :
    Spread l (l.filter fun job => !cb job) := by
  induction l with
  | nil => exact .nil
  | cons job l ih =>
    rw [List.filter_cons]
    split
    · exact .keep job ih
    · refine .drop ?_ ih
      cases job with
      | delete pl => simp_all
      | add data => rfl
      | update entries => rfl

theorem subset (h : Spread a a') : a' ⊆ a := by
  induction h with
  | nil => exact List.Subset.refl _
  | keep job _ ih => exact List.cons_subset_cons job ih
  | drop _ _ ih => exact fun job hjob => .tail _ (ih hjob)
  | again _ ih => exact List.cons_subset.mpr ⟨.head _, ih⟩

theorem deletes_eq (h : Spread a a') : a'.filterMap deletes = a.filterMap deletes := by
  induction h with
  | nil => rfl
  | keep job _ ih => rw [List.filterMap_cons, List.filterMap_cons, ih]
  | drop hjob _ ih => rw [List.filterMap_cons, hjob, ih]
  | again _ ih => rw [List.filterMap_cons, ih]; rfl

end Spread

/-- No playlist is referred to behind its deletion. -/
def DeletesLast (l : List Job) : Prop :=
  l.Pairwise fun a b => ∀ pl ∈ a.deletes, ¬ b.refersTo pl

theorem DeletesLast.spread {a a' : List Job} (h : Spread a a') (hlast : DeletesLast a) :
    DeletesLast a' := by
  induction h with
  | nil => exact hlast
  | keep job h ih =>
    obtain ⟨hjob, hlast⟩ := List.pairwise_cons.mp hlast
    exact List.pairwise_cons.mpr ⟨fun b hb => hjob b (h.subset hb), ih hlast⟩
  | drop _ _ ih => exact ih (List.pairwise_cons.mp hlast).2
  | again h ih => exact List.pairwise_cons.mpr ⟨fun b _ => nofun, ih hlast⟩

end Job

/-! ### Moves of the worker -/

namespace Worker

theorem job_of_result {data : AddData} {tis : List TrackInfo}
    (h : Result.add data tis ∈ w.results) : .add data ∈ w.jobs :=
  List.mem_append_left _ (List.mem_append_left _ (List.mem_map_of_mem h))

theorem job_of_current {data : AddData} {remaining buffer : List TrackInfo}
    (h : w.curJob = some (.add data remaining buffer)) : .add data ∈ w.jobs := by
  simp [jobs, h, Running.job]

theorem job_of_waiting (h : job ∈ w.workerJobs) : job ∈ w.jobs := List.mem_append_right _ h

/-- No result of an add job is empty. -/
def Full (w : Worker) : Prop := ∀ data, Result.add data [] ∉ w.results

theorem Full.append {results : List Result} {data : AddData} {batches : List (List TrackInfo)}
    (hfull : w.Full) (hresults : results = w.results ++ batches.map (.add data))
    (hne : [] ∉ batches) (d : AddData) : Result.add d [] ∉ results := by
  intro hmem
  rw [hresults, List.mem_append] at hmem
  rcases hmem with hmem | hmem
  · exact hfull d hmem
  · obtain ⟨batch, hbatch, heq⟩ := List.mem_map.mp hmem
    cases heq
    exact hne hbatch

/-- What the worker does by itself: nothing is lost, nothing comes in. -/
structure Moved (w w' : Worker) : Prop where
  jobs : Job.Spread w.jobs w'.jobs
  inFlight : ∀ n, w'.inFlight n = w.inFlight n
  full : w.Full → w'.Full

theorem Moved.refl (w : Worker) : Moved w w := ⟨.refl _, fun _ => rfl, id⟩

theorem map_job_batches (results : List Result) (data : AddData)
    (batches : List (List TrackInfo)) :
    (results ++ batches.map (Result.add data)).map Result.job =
      results.map Result.job ++ List.replicate batches.length (.add data) := by
  rw [List.map_append, List.map_map]
  exact congrArg _ List.map_const'

theorem take_moved (w : Worker) : Moved w w.take := by
  rcases w with ⟨_ | ⟨job, rest⟩, _ | running, results⟩
  · exact .refl _
  · exact .refl _
  · have hjobs : take ⟨job :: rest, none, results⟩ = ⟨rest, some job.start, results⟩ := rfl
    have hstart : job.start.job = job := by cases job <;> rfl
    rw [hjobs]
    refine ⟨?_, fun n => ?_, id⟩
    · have heq : jobs ⟨rest, some job.start, results⟩ = jobs ⟨job :: rest, none, results⟩ := by
        simp [jobs, hstart]
      exact heq ▸ .refl _
    · have hshare : job.start.share n = job.share n := by cases job <;> rfl
      simp [inFlight, hshare]
  · exact .refl _

theorem produce_moved (w : Worker) : Moved w w.produce := by
  rcases w with ⟨workerJobs, _ | ⟨data, _ | ⟨ti, remaining⟩, buffer⟩ | entries | pl, results⟩
  · exact .refl _
  · exact .refl _
  · obtain ⟨batches, hresults, hne, hflat⟩ := addTi_spec data (results, buffer) ti
    refine ⟨?_, fun n => ?_, fun hfull d => ?_⟩
    · simp only [jobs, produce, hresults, map_job_batches, Running.job, Option.map_some,
        Option.toList_some]
      rw [List.append_assoc (List.map _ _) (List.replicate _ _), ← List.replicate_succ']
      exact ((Job.Spread.refl _).append (.batches data _)).append (.refl _)
    · simp only [inFlight, produce, hresults, List.flatMap_append, share_batches, Option.elim_some,
        Running.share]
      rw [List.append_assoc (List.flatMap _ _), ← AddData.share_append, ← List.append_assoc,
        hflat, List.append_assoc buffer]
      rfl
    · exact hfull.append hresults hne d
  · exact .refl _
  · exact .refl _

theorem finish_moved (w : Worker) : Moved w w.finish := by
  rcases w with ⟨workerJobs, _ | ⟨data, _ | ⟨ti, remaining⟩, buffer⟩ | entries | pl, results⟩
  · exact .refl _
  · obtain ⟨batches, hresults, hne, hflat⟩ := flushTiBuffer_spec data (results, buffer)
    refine ⟨?_, fun n => ?_, fun hfull d => ?_⟩
    · simp only [jobs, finish, hresults, map_job_batches, Running.job, Option.map_some,
        Option.toList_some, Option.map_none, Option.toList_none, List.append_nil]
      exact ((Job.Spread.refl _).append (.batches data _)).append (.refl _)
    · simp only [inFlight, finish, hresults, List.flatMap_append, share_batches, Option.elim_some,
        Option.elim_none, Running.share, hflat, List.append_nil]
    · exact hfull.append hresults hne d
  · exact .refl _
  · refine ⟨?_, fun n => ?_, fun hfull d => ?_⟩
    · simpa [jobs, finish, Running.job, Result.job] using Job.Spread.refl _
    · simp [inFlight, finish, Running.share, Result.share]
    · simpa [finish] using hfull d
  · refine ⟨?_, fun n => ?_, fun hfull d => ?_⟩
    · simpa [jobs, finish, Running.job, Result.job, Job.freeCb] using Job.Spread.refl _
    · simp [inFlight, finish, Running.share, Result.share, Job.freeCb]
    · simpa [finish, Job.freeCb] using hfull d

/-! ### The main thread on the lists -/

theorem workerAddJob_jobs (w : Worker) (job : Job) :
    (w.workerAddJob job).jobs = w.jobs ++ [job] := by
  simp [jobs, workerAddJob]

theorem workerAddJob_inFlight (w : Worker) (job : Job) (n : Nat) :
    (w.workerAddJob job).inFlight n = w.inFlight n ++ job.share n := by
  simp [inFlight, workerAddJob]

theorem mem_cancelled {n : Nat} : n ∈ w.cancelled cb ↔ ∃ data : AddData,
    .add data ∈ (w.curJob.map Running.job).toList ++ w.workerJobs ∧ cb (.add data) = true ∧
      data.serial = n := by
  rw [cancelled, List.mem_filterMap]
  constructor
  · rintro ⟨_ | _ | _, hmem, heq⟩
    · rename_i data
      obtain ⟨hcb, heq⟩ := Option.ite_none_right_eq_some.mp heq
      exact ⟨data, hmem, hcb, Option.some.inj heq⟩
    · cases heq
    · cases heq
  · intro h
    obtain ⟨data, hmem, hcb, rfl⟩ := h
    exact ⟨.add data, hmem, if_pos hcb⟩

theorem filter_share (n : Nat) (l : List Job)
    (h : ∀ data, Job.add data ∈ l → cb (.add data) = true → data.serial ≠ n) :
    (l.filter fun job => !cb job).flatMap (Job.share n) = l.flatMap (Job.share n) := by
  induction l with
  | nil => rfl
  | cons job l ih =>
    have ih := ih fun data hdata => h data (.tail _ hdata)
    rw [List.filter_cons]
    by_cases hcb : cb job = true
    · have hshare : job.share n = [] := by
        cases job with
        | add data => exact if_neg (h data (.head _) hcb)
        | update entries => rfl
        | delete pl => rfl
      simp [hcb, ih, hshare]
    · simp [hcb, ih]

theorem freeCb_spared (hcb : ∀ pl, cb (.delete pl) = false) (l : List Job) :
    (l.filter cb).flatMap Job.freeCb = [] := by
  refine List.flatMap_eq_nil_iff.mpr fun job hjob => ?_
  cases job with
  | add data => rfl
  | update entries => rfl
  | delete pl =>
    have hmatch := (List.mem_filter.mp hjob).2
    rw [hcb] at hmatch
    cases hmatch

/-- A removal of other jobs than deletions. Only cancelled jobs lose tracks. -/
theorem workerRemoveJobs_spec (w : Worker) (hcb : ∀ pl, cb (.delete pl) = false) (more : Nat) :
    Job.Spread w.jobs (w.workerRemoveJobs cb more).jobs ∧
      (∀ n ∉ w.cancelled cb, (w.workerRemoveJobs cb more).inFlight n = w.inFlight n) ∧
      (w.Full → (w.workerRemoveJobs cb more).Full) := by
  have hwait : ∀ n ∉ w.cancelled cb,
      (w.workerJobs.filter fun job => !cb job).flatMap (Job.share n) =
        w.workerJobs.flatMap (Job.share n) := fun n hn =>
    filter_share n _ fun data hmem hdata heq =>
      hn (mem_cancelled.mpr ⟨data, List.mem_append_right _ hmem, hdata, heq⟩)
  have hrun : ∀ n ∉ w.cancelled cb, ∀ data remaining buffer,
      w.curJob = some (.add data remaining buffer) → cb (.add data) = true →
      ∀ tis, data.share n tis = [] := fun n hn data remaining buffer hcur hdata tis =>
    if_neg fun heq => hn (mem_cancelled.mpr ⟨data, by simp [hcur, Running.job], hdata, heq⟩)
  have hfree : (w.workerJobs.filter cb).flatMap Job.freeCb = [] := freeCb_spared hcb _
  have hspread := Job.Spread.filter hcb w.workerJobs
  rcases w with ⟨workerJobs, _ | running, results⟩
  · simp only [workerRemoveJobs, hfree, List.append_nil]
    exact ⟨(Job.Spread.refl _).append hspread, fun n hn => by simp only [inFlight, hwait n hn], id⟩
  by_cases hmatch : cb running.job = true
  · cases running with
    | add data remaining buffer =>
      obtain ⟨batches, hresults, hne, -⟩ :=
        flush_foldl_addTi_spec data (remaining.take more) (results, buffer)
      simp only [workerRemoveJobs, hfree, List.append_nil, if_pos hmatch, hresults]
      refine ⟨?_, fun n hn => ?_, fun hfull d => hfull.append rfl hne d⟩
      · simp only [jobs, map_job_batches, Running.job, Option.map_some, Option.toList_some,
          Option.map_none, Option.toList_none, List.append_nil]
        exact ((Job.Spread.refl _).append (.batches data _)).append hspread
      · have hnone := hrun n hn data remaining buffer rfl hmatch
        simp only [inFlight, List.flatMap_append, share_batches, Option.elim_some,
          Option.elim_none, Running.share, hwait n hn, hnone, List.append_nil]
    | update entries =>
      simp only [workerRemoveJobs, hfree, List.append_nil, if_pos hmatch]
      refine ⟨?_, fun n hn => ?_, fun hfull d => by simpa using hfull d⟩
      · simp only [jobs, List.map_append, List.map_cons, List.map_nil, Option.map_none,
          Option.toList_none, List.append_nil, Option.map_some, Option.toList_some]
        exact (Job.Spread.refl _).append hspread
      · simp only [inFlight, List.flatMap_append, Option.elim_some, Option.elim_none, hwait n hn]
        simp [Result.share, Running.share]
    | delete pl =>
      rw [Running.job, hcb] at hmatch
      cases hmatch
  · simp only [workerRemoveJobs, hfree, List.append_nil, if_neg hmatch]
    exact ⟨(Job.Spread.refl _).append hspread, fun n hn => by simp only [inFlight, hwait n hn], id⟩

end Worker

end GracefulMusic.Jobs
