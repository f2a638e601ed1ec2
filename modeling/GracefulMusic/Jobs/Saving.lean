import GracefulMusic.Jobs.Deletion

/-! Whether a save or a quit finds all tracks that were asked for.

The guard before it looks at the list of jobs only: results that are not handled, and
the current job, are behind its back. -/
namespace GracefulMusic.Jobs
open Tracks GracefulMusic.Expr

/-- Every track of an add job that was not cancelled has been given to its callback, once
and in order, and is among those saved unless its file was kept out or taken out since. -/
def Complete {P : Type} (s : System P) (target : Target) (saved : List TrackInfo) : Prop :=
  ∀ d ∈ s.history.scheduled, d.target = target → d.serial ∉ s.history.cancelled →
    s.history.handedOf d.serial = d.tracks ∧ ∀ ti ∈ d.tracks,
      (∃ x ∈ saved, x.filename = ti.filename) ∨ ti.filename ∈ s.history.missing target

/-- No result of an add job waits for its turn, and the current job is none with tracks
left; cancelled jobs aside. -/
structure Delivered {P : Type} (s : System P) (target : Target) : Prop where
  results : ∀ d tis, .add d tis ∈ s.worker.results → d.target = target →
    d.serial ∈ s.history.cancelled
  current : ∀ d remaining buffer, s.worker.curJob = some (.add d remaining buffer) →
    d.target = target → d.serial ∉ s.history.cancelled → buffer ++ remaining = []

section
variable {P : Type} {s : System P} {aside : Nat → List TrackInfo}

/-- With no job in the list, what is not delivered is under way. -/
theorem Accounted.delivered_iff (h : Accounted s aside) {target : Target}
    (hwait : ∀ d, .add d ∈ s.worker.workerJobs → d.target ≠ target) :
    Delivered s target ↔ ∀ d ∈ s.history.scheduled, d.target = target →
      d.serial ∉ s.history.cancelled → s.worker.inFlight d.serial = [] := by
  constructor
  · intro hdel d hd htarget hn
    -- what has the number belongs to the job
    have hsame : ∀ d', .add d' ∈ s.worker.jobs → d'.serial = d.serial → d' = d :=
      fun d' hd' heq => h.serial_inj (h.known d' hd') hd heq
    refine Worker.inFlight_eq_nil.mpr ⟨fun r hr => ?_, fun r hr => ?_, fun job hjob => ?_⟩
    · cases r with
      | add d' tis =>
        refine AddData.share_of_ne (fun heq => ?_) _
        obtain rfl := hsame d' (Worker.job_of_result hr) heq
        exact hn (hdel.results d' tis hr htarget)
      | update entries => rfl
      | plDelete pl => rfl
    · cases r with
      | add d' remaining buffer =>
        by_cases heq : d'.serial = d.serial
        · obtain rfl := hsame d' (Worker.job_of_current hr) heq
          rw [Running.share, hdel.current d' remaining buffer hr htarget hn, AddData.share_nil]
        · exact AddData.share_of_ne heq _
      | update entries => rfl
      | delete pl => rfl
    · cases job with
      | add d' =>
        refine AddData.share_of_ne (fun heq => ?_) _
        obtain rfl := hsame d' (Worker.job_of_waiting hjob) heq
        exact hwait d' hjob htarget
      | update entries => rfl
      | delete pl => rfl
  · intro hflow
    refine ⟨fun d tis hr htarget => ?_, fun d remaining buffer hr htarget hn => ?_⟩
    · by_contra hn
      have hnone := (Worker.inFlight_eq_nil.mp
        (hflow d (h.known d (Worker.job_of_result hr)) htarget hn)).1 _ hr
      rw [Result.share, AddData.share_self] at hnone
      exact h.full d (hnone ▸ hr)
    · have hnone := (Worker.inFlight_eq_nil.mp
        (hflow d (h.known d (Worker.job_of_current hr)) htarget hn)).2.1 _ hr
      rwa [Running.share, AddData.share_self] at hnone

theorem Accounted.complete_iff (h : Accounted s fun _ => []) {target : Target}
    (hwait : ∀ d, .add d ∈ s.worker.workerJobs → d.target ≠ target) :
    Complete s target (s.stores.contents target) ↔ Delivered s target := by
  have htotal : ∀ d ∈ s.history.scheduled, d.serial ∉ s.history.cancelled →
      (s.history.handedOf d.serial = d.tracks ↔ s.worker.inFlight d.serial = []) := by
    intro d hd hn
    rw [← h.total d hd hn, List.append_nil, List.self_eq_append_right]
  rw [h.delivered_iff hwait]
  constructor
  · exact fun hall d hd htarget hn => (htotal d hd hn).mp (hall d hd htarget hn).1
  · intro hflow d hd htarget hn
    have hhanded := (htotal d hd hn).mpr (hflow d hd htarget hn)
    refine ⟨hhanded, fun ti hti => ?_⟩
    rw [← hhanded] at hti
    obtain ⟨p, hp, rfl⟩ := List.mem_map.mp hti
    obtain ⟨hp, heq⟩ := List.mem_filter.mp hp
    obtain ⟨hknown, hkept⟩ := h.handed p hp
    obtain rfl := h.serial_inj hknown hd (of_decide_eq_true heq)
    rwa [htarget] at hkept

/-- A guard that is false has looked at the list of jobs. -/
theorem no_waiting_job {w : Worker} {pat past : UInt32}
    (h : w.workerHasJobByType pat past = false) : ∀ job ∈ w.workerJobs,
    job.workerMatchesType pat = false :=
  fun job hjob => by simpa using List.any_eq_false.mp (Bool.or_eq_false_iff.mp h).1 job hjob

end

/-- A playlist in the list window. -/
def System.Saves {P : Type} (s : System P) (target : Target) : Prop :=
  ∀ pl, target = .playlist pl → pl ∈ s.plHead

/-- **Saving is complete**, in every state that is reached, exactly when all results are
delivered: for a save of the library or the queue that is not refused, and for a quit
that does not ask, which saves these and all playlists. -/
theorem save_complete {P : Type} [DecidableEq P] (cfg : Lib.Config P) (m : Start P)
    (files : List (List TrackInfo)) (ops : List Op) :
    ∃ s, Runs.run (step cfg) (System.init m files) ops = some s ∧ ∀ past,
      (∀ saved, s.viewSave past .lib = some saved →
        (Complete s .lib saved ↔ Delivered s .lib)) ∧
      (∀ saved, s.viewSave past .queue = some saved →
        (Complete s .queue saved ↔ Delivered s .queue)) ∧
      (s.cmdQuitAsks past = false →
        ((∀ target, s.Saves target → Complete s target (s.stores.contents target)) ↔
          ∀ target, s.Saves target → Delivered s target)) := by
  obtain ⟨s, hrun, h⟩ := run_reached cfg m files ops
  refine ⟨s, hrun, fun past => ⟨fun saved hsave => ?_, fun saved hsave => ?_, fun hquit => ?_⟩⟩
  · obtain ⟨hguard, heq⟩ := Option.ite_none_left_eq_some.mp hsave
    obtain rfl := Option.some.inj heq
    refine h.accounted.complete_iff fun d hd hlib => ?_
    have hmatch := (Job.workerMatchesType_lib (.add d)).mpr (congrArg some hlib)
    rw [no_waiting_job (Bool.eq_false_iff.mpr hguard) _ hd] at hmatch
    cases hmatch
  · obtain ⟨hguard, heq⟩ := Option.ite_none_left_eq_some.mp hsave
    obtain rfl := Option.some.inj heq
    refine h.accounted.complete_iff fun d hd hqueue => ?_
    have hmatch := (Job.workerMatchesType_queue (.add d)).mpr (congrArg some hqueue)
    rw [no_waiting_job (Bool.eq_false_iff.mpr hguard) _ hd] at hmatch
    cases hmatch
  · refine forall_congr' fun target => imp_congr_right fun _ =>
      h.accounted.complete_iff fun d hd _ => ?_
    have hmatch := Job.workerMatchesType_any (.add d)
    rw [no_waiting_job hquit _ hd] at hmatch
    cases hmatch

/-- The one track of a job is found, but its result is not handled, or the job is not
finished: the library is saved without it. -/
theorem save_omits_track :
    (∃ s, Runs.run (step Lib.plainConfig) (System.init plainStart [])
        [.add .lib false [Lib.thirdTrack], .take, .produce, .finish] = some s ∧
      s.viewSave 0 .lib = some [] ∧ s.cmdQuitAsks 0 = false ∧ ¬ Complete s .lib []) ∧
    ∃ s, Runs.run (step Lib.plainConfig) (System.init plainStart [])
        [.add .lib false [Lib.thirdTrack], .take] = some s ∧
      s.viewSave 0 .lib = some [] ∧ ¬ Complete s .lib [] := by
  have hrun : ∀ ops, (Runs.run (step Lib.plainConfig) (System.init plainStart []) ops).any
      (fun s => decide (s.viewSave 0 .lib = some [] ∧ s.cmdQuitAsks 0 = false ∧
        s.history.handedOf 0 = []) && s.history.scheduled.any fun d =>
          decide (d.serial = 0 ∧ d.target = .lib ∧ d.tracks ≠ [] ∧ 0 ∉ s.history.cancelled)) →
      ∃ s, Runs.run (step Lib.plainConfig) (System.init plainStart []) ops = some s ∧
        s.viewSave 0 .lib = some [] ∧ s.cmdQuitAsks 0 = false ∧ ¬ Complete s .lib [] := by
    intro ops hany
    obtain ⟨s, hs, hfacts⟩ := (Option.any_eq_true _ _).mp hany
    obtain ⟨hsave, hjob⟩ := Bool.and_eq_true_iff.mp hfacts
    obtain ⟨hsave, hquit, hhanded⟩ := of_decide_eq_true hsave
    obtain ⟨d, hd, hjob⟩ := List.any_eq_true.mp hjob
    obtain ⟨hserial, htarget, htracks, hn⟩ := of_decide_eq_true hjob
    refine ⟨s, hs, hsave, hquit, fun hcomplete => htracks ?_⟩
    rw [← (hcomplete d hd htarget (hserial ▸ hn)).1, hserial, hhanded]
  refine ⟨hrun _ (by decide +kernel), ?_⟩
  obtain ⟨s, hs, hsave, -, hcomplete⟩ := hrun
    [.add .lib false [Lib.thirdTrack], .take] (by decide +kernel)
  exact ⟨s, hs, hsave, hcomplete⟩

end GracefulMusic.Jobs
