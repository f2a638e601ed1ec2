import GracefulMusic.Jobs.ClearBarrier

/-! What a reload brings.

Behind a clear that leaves nothing in flight, one job for the target is on its way, and
the target holds what its callback was given so far. -/
namespace GracefulMusic.Jobs
open Tracks GracefulMusic.Expr

section
variable {P : Type} [DecidableEq P] (cfg : Lib.Config P)

/-- The target holds the tracks of a list, the library each file of them. -/
def Holds (st : Stores P) (target : Target) (tis : List TrackInfo) : Prop :=
  match target with
  | .lib => (∀ x ∈ st.lib.store, x ∈ tis) ∧ ∀ ti ∈ tis, ∃ x ∈ st.lib.store, x.filename = ti.filename
  | _ => (st.contents target).Perm tis

/-- The operation is not about the target. -/
def Quiet (target : Target) (s : System P) : Op → Prop
  | .add .lib _ _ => target ≠ .lib
  | .add .queue _ _ => target ≠ .queue
  | .add .playlist _ _ => target ≠ .playlist s.marked
  | .update _ => target ≠ .lib
  | .clear c _ => target ≠ s.target c.view
  | .remove view _ => target ≠ s.target view
  | .deleteSelectedPl _ _ => target ≠ .playlist s.visible
  | .setAddFilter _ => target ≠ .lib
  | _ => True

/-- A job of a reload is on its way. -/
structure Loading (d : AddData) (s : System P) : Prop where
  scheduled : d ∈ s.history.scheduled
  running : d.serial ∉ s.history.cancelled
  only : ∀ data, .add data ∈ s.worker.jobs → data.target = d.target → data = d
  noUpdate : d.target = .lib → ∀ entries, .update entries ∈ s.worker.jobs → entries = []
  there : ∀ pl, d.target = .playlist pl → pl ∈ s.plHead
  admitted : ∀ ti ∈ d.tracks, s.stores.excluded cfg d ti = false
  holds : Holds s.stores d.target (s.history.handedOf d.serial)

variable {s t : System P} {d : AddData} {st st' : Stores P}

omit [DecidableEq P] in
theorem holds_congr {target : Target} {tis : List TrackInfo}
    (hsame : st'.contents target = st.contents target) (h : Holds st target tis) :
    Holds st' target tis := by
  cases target with
  | lib =>
    have hsame : st'.lib.store = st.lib.store := hsame
    rw [Holds, hsame]
    exact h
  | queue =>
    show (st'.contents .queue).Perm tis
    rw [hsame]
    exact h
  | playlist pl =>
    show (st'.contents (.playlist pl)).Perm tis
    rw [hsame]
    exact h

theorem excluded_congr (hfilter : st'.lib.inForce.addFilter = st.lib.inForce.addFilter)
    (data : AddData) (ti : TrackInfo) : st'.excluded cfg data ti = st.excluded cfg data ti := by
  rw [Stores.excluded, Stores.excluded, hfilter]

theorem holds_added {data : AddData} {ti : TrackInfo} {tis : List TrackInfo}
    (hadd : Stores.Added cfg data ti st st') (hin : st.excluded cfg data ti = false)
    (h : Holds st data.target tis) : Holds st' data.target (tis ++ [ti]) := by
  obtain ⟨serial, target, prepend, tracks⟩ := data
  cases target with
  | lib =>
    refine ⟨fun x hx => ?_, fun x hx => ?_⟩
    · rcases hadd.mem x hx with rfl | hx
      · exact List.mem_append_right _ (.head _)
      · exact List.mem_append_left _ (h.1 x hx)
    · rcases List.mem_append.mp hx with hx | hx
      · obtain ⟨y, hy, hname⟩ := h.2 x hx
        exact ⟨y, hadd.keep y hy, hname⟩
      · obtain rfl := List.mem_singleton.mp hx
        exact hadd.there hin
  | queue => exact (hadd.perm nofun).trans ((h.cons ti).trans (List.perm_append_singleton _ _).symm)
  | playlist pl =>
    exact (hadd.perm nofun).trans ((h.cons ti).trans (List.perm_append_singleton _ _).symm)

namespace Loading

/-! ### Worker and lists -/

theorem withWorker (h : Loading cfg d s) {w : Worker} (hjobs : w.jobs ⊆ s.worker.jobs) :
    Loading cfg d {s with worker := w} :=
  ⟨h.scheduled, h.running, fun data hdata => h.only data (hjobs hdata),
    fun hlib entries hentries => h.noUpdate hlib entries (hjobs hentries), h.there, h.admitted,
    h.holds⟩

theorem cmusAdd (h : Loading cfg d s) {target : Target} (hne : d.target ≠ target)
    (prepend : Bool) (tracks : List TrackInfo) :
    Loading cfg d (s.cmusAdd target prepend tracks) := by
  refine ⟨List.mem_append_left _ h.scheduled, h.running, fun data hdata htarget => ?_,
    fun hlib entries hentries => ?_, h.there, h.admitted, h.holds⟩
  · simp only [System.cmusAdd, Worker.workerAddJob_jobs, List.mem_append, List.mem_singleton]
      at hdata
    rcases hdata with hdata | hdata
    · exact h.only data hdata htarget
    · cases hdata
      exact absurd htarget.symm hne
  · simp only [System.cmusAdd, Worker.workerAddJob_jobs, List.mem_append, List.mem_singleton]
      at hentries
    rcases hentries with hentries | hentries
    · exact h.noUpdate hlib entries hentries
    · cases hentries

theorem workerAddJob (h : Loading cfg d s) (job : Job) (hadd : ∀ data, job ≠ .add data)
    (hupdate : d.target = .lib → ∀ entries, job ≠ .update entries) :
    Loading cfg d {s with worker := s.worker.workerAddJob job} := by
  refine ⟨h.scheduled, h.running, fun data hdata => ?_, fun hlib entries hentries => ?_, h.there,
    h.admitted, h.holds⟩
  · rw [Worker.workerAddJob_jobs, List.mem_append, List.mem_singleton] at hdata
    exact h.only data (hdata.resolve_right fun heq => hadd data heq.symm)
  · rw [Worker.workerAddJob_jobs, List.mem_append, List.mem_singleton] at hentries
    exact h.noUpdate hlib entries
      (hentries.resolve_right fun heq => hupdate hlib entries heq.symm)

theorem workerRemoveJobs (h : Loading cfg d s)
    (hknown : ∀ data, .add data ∈ s.worker.jobs → data.serial = d.serial → data = d)
    {target : Target} (hne : d.target ≠ target) {cb : Job → Bool}
    (hcb : ∀ job, cb job = true ↔ job.target = some target) (more : Nat) :
    Loading cfg d (s.workerRemoveJobs cb more) := by
  have hspare : ∀ pl, cb (.delete pl) = false := fun pl =>
    Bool.eq_false_iff.mpr fun h => nomatch (hcb _).mp h
  have hw := h.withWorker cfg (s.worker.workerRemoveJobs_spec hspare more).1.subset
  refine ⟨hw.scheduled, fun hcancelled => ?_, hw.only, hw.noUpdate, hw.there, hw.admitted,
    hw.holds⟩
  rcases List.mem_append.mp hcancelled with hcancelled | hcancelled
  · exact h.running hcancelled
  · obtain ⟨data, hdata, hmatch, hserial⟩ := Worker.mem_cancelled.mp hcancelled
    have hmem : .add data ∈ s.worker.jobs := by
      rw [Worker.jobs, List.append_assoc]
      exact List.mem_append_right _ hdata
    obtain rfl := hknown data hmem hserial
    exact hne (Option.some.inj ((hcb _).mp hmatch))

theorem removeMatchingTracks (h : Loading cfg d s) (hsound : s.stores.Sound) {target : Target}
    (hne : d.target ≠ target) {cb : TrackInfo → Bool}
    (hrun : s.removeMatchingTracks cfg target cb = some t) : Loading cfg d t := by
  obtain ⟨stores, hstores, rfl⟩ := Option.map_eq_some_iff.mp hrun
  obtain ⟨st', hst', hr⟩ := Stores.removeMatchingTracks_removed cfg hsound target cb
  obtain rfl := Option.some.inj (hst'.symm.trans hstores)
  refine ⟨h.scheduled, h.running, h.only, h.noUpdate, h.there, fun ti hti => ?_,
    holds_congr (hr.others _ hne) h.holds⟩
  rw [excluded_congr cfg hr.addFilter]
  exact h.admitted ti hti

theorem withLib (h : Loading cfg d s) {lib : Lib.Library P}
    (hstore : ∀ x, x ∈ lib.store ↔ x ∈ s.stores.lib.store)
    (hfilter : d.target = .lib → lib.inForce.addFilter = s.stores.lib.inForce.addFilter) :
    Loading cfg d (s.withLib lib) := by
  refine ⟨h.scheduled, h.running, h.only, h.noUpdate, h.there, fun ti hti => ?_, ?_⟩
  · by_cases hlib : d.target = .lib
    · rw [excluded_congr cfg (hfilter hlib)]
      exact h.admitted ti hti
    · simp [Stores.excluded, hlib]
  · obtain ⟨serial, target, prepend, tracks⟩ := d
    cases target with
    | lib =>
      refine ⟨fun x hx => h.holds.1 x ((hstore x).mp hx), fun ti hti => ?_⟩
      obtain ⟨x, hx, hname⟩ := h.holds.2 ti hti
      exact ⟨x, (hstore x).mpr hx, hname⟩
    | queue => exact h.holds
    | playlist pl => exact h.holds

/-! ### Handling a result -/

theorem foldl_handTrack (h : Loading cfg d s) (hsound : s.stores.Sound) {data : AddData}
    (hserial : data.serial = d.serial → data = d) (htarget : data.target = d.target → data = d)
    {tis : List TrackInfo} (htis : data = d → ∀ ti ∈ tis, ti ∈ d.tracks) :
    Loading cfg d (tis.foldl (System.handTrack cfg data) s) := by
  induction tis generalizing s with
  | nil => exact h
  | cons ti tis ih =>
    have hadd := Stores.addCb_added cfg hsound data ti
    refine ih ⟨h.scheduled, h.running, h.only, h.noUpdate, h.there, fun x hx => ?_, ?_⟩ hadd.sound
      fun hdata x hx => htis hdata x (.tail _ hx)
    · show (s.stores.addCb cfg data ti).excluded cfg d x = false
      rw [excluded_congr cfg hadd.addFilter]
      exact h.admitted x hx
    · rw [Accounted.handedOf_handTrack]
      by_cases hdata : data = d
      · subst hdata
        rw [AddData.share_self]
        exact holds_added cfg hadd (h.admitted ti (htis rfl ti (.head _))) h.holds
      · rw [AddData.share_of_ne fun heq => hdata (hserial heq), List.append_nil]
        exact holds_congr (hadd.others _ fun heq => hdata (htarget heq.symm)) h.holds

theorem foldlM_handleUpdateEntry (h : Loading cfg d s) (hlib : d.target ≠ .lib)
    {entries : List UpdateEntry}
    (hrun : entries.foldlM (System.handleUpdateEntry cfg) s = some t) : Loading cfg d t := by
  induction entries generalizing s with
  | nil =>
    cases hrun
    exact h
  | cons entry entries ih =>
    rw [List.foldlM_cons] at hrun
    obtain ⟨s₁, hentry, hrun⟩ := Option.bind_eq_some_iff.mp hrun
    obtain ⟨lib, -, rfl⟩ := Option.map_eq_some_iff.mp hentry
    have hrem : Loading cfg d {s with
        stores := {s.stores with lib}, history := s.history.lose .lib [entry.ti]} := by
      refine ⟨h.scheduled, h.running, h.only, h.noUpdate, h.there, fun ti hti => ?_,
        holds_congr ?_ h.holds⟩
      · simp [Stores.excluded, hlib]
      · cases htarget : d.target with
        | lib => exact absurd htarget hlib
        | queue => rfl
        | playlist pl => rfl
    cases hreadd : entry.readd with
    | none =>
      rw [hreadd] at hrun
      exact ih hrem hrun
    | some tracks =>
      rw [hreadd] at hrun
      exact ih (hrem.cmusAdd cfg hlib false tracks) hrun

theorem jobHandle (h : Loading cfg d s) (hs : Reached s) (hrun : s.jobHandle cfg = some t) :
    Loading cfg d t := by
  rw [System.jobHandle] at hrun
  cases hresults : s.worker.results with
  | nil =>
    rw [hresults] at hrun
    cases hrun
    exact h
  | cons result results =>
    rw [hresults] at hrun
    obtain ⟨-, hrun⟩ := Option.ite_none_left_eq_some.mp hrun
    have hjobs : s.worker.jobs = result.job :: {s.worker with results}.jobs := by
      simp only [Worker.jobs, hresults, List.map_cons, List.cons_append]
    have hpop : Loading cfg d {s with worker := {s.worker with results}} :=
      h.withWorker cfg fun job hjob => hjobs ▸ .tail _ hjob
    cases result with
    | add data tis =>
      obtain rfl := Option.some.inj hrun
      have hmem : .add data ∈ s.worker.jobs := hjobs ▸ .head _
      refine hpop.foldl_handTrack cfg hs.accounted.sound
        (hs.accounted.serial_inj (hs.accounted.known data hmem) h.scheduled) (h.only data hmem)
        fun hdata ti hti => ?_
      -- the batch is a stretch of the tracks of the job
      rw [← hs.accounted.total d h.scheduled h.running]
      refine List.mem_append_right _ (List.mem_append_left _ (List.mem_append_left _ ?_))
      rw [hresults, List.flatMap_cons, hdata, Result.share, AddData.share_self]
      exact List.mem_append_left _ hti
    | update entries =>
      by_cases hlib : d.target = .lib
      · obtain rfl := h.noUpdate hlib entries (hjobs ▸ .head _)
        cases hrun
        exact hpop
      · exact hpop.foldlM_handleUpdateEntry cfg hlib hrun
    | plDelete pl =>
      obtain ⟨s₁, hclear, rfl⟩ := Option.map_eq_some_iff.mp hrun
      have hmem : .delete pl ∈ s.worker.jobs := by
        rw [hjobs]
        exact .head _
      have hne : d.target ≠ .playlist pl := fun heq =>
        hs.orderly.not_deleting (h.there pl heq) hmem rfl
      have h₁ := hpop.removeMatchingTracks cfg hs.accounted.sound hne hclear
      exact ⟨h₁.scheduled, h₁.running, h₁.only, h₁.noUpdate, h₁.there, h₁.admitted, h₁.holds⟩

/-! ### Other operations -/

theorem known (h : Loading cfg d s) (hs : Reached s) {data : AddData}
    (hdata : .add data ∈ s.worker.jobs) (hserial : data.serial = d.serial) : data = d :=
  hs.accounted.serial_inj (hs.accounted.known data hdata) h.scheduled hserial

theorem plClearVisiblePl (h : Loading cfg d s) (hs : Reached s)
    (hne : d.target ≠ .playlist s.visible) {more : Nat}
    (hrun : s.plClearVisiblePl cfg more = some t) : Loading cfg d t := by
  obtain ⟨s₁, hclear, rfl⟩ := Option.map_eq_some_iff.mp hrun
  have h₁ := h.removeMatchingTracks cfg hs.accounted.sound hne hclear
  have hworker := (removeMatchingTracks_worker cfg hclear).1
  have hvisible := (removeMatchingTracks_same cfg hclear).visible
  exact h₁.workerRemoveJobs cfg (fun data hdata => h.known cfg hs (hworker ▸ hdata))
    (hvisible.symm ▸ hne) (Job.plMatchAddJob_iff s₁.visible) more

/-- A clear of another target. -/
theorem clear (h : Loading cfg d s) (hs : Reached s) {c : Clear}
    (hne : d.target ≠ s.target c.view) {more : Nat} (hrun : s.clear cfg more c = some t) :
    Loading cfg d t := by
  have hcut : ∀ {cb : Job → Bool}, (∀ job, cb job = true ↔ job.target = some (s.target c.view)) →
      Loading cfg d (s.workerRemoveJobs cb more) := fun hcb =>
    h.workerRemoveJobs cfg (fun data hdata => h.known cfg hs hdata) hne hcb more
  rcases c with ⟨_ | _ | _⟩ | tracks | tracks
  · obtain ⟨s₁, hclear, rfl⟩ := Option.map_eq_some_iff.mp hrun
    have h₁ := (hcut Job.workerMatchesType_lib).removeMatchingTracks cfg hs.accounted.sound hne
      hclear
    refine ⟨h₁.scheduled, h₁.running, h₁.only, h₁.noUpdate, h₁.there, h₁.admitted,
      holds_congr ?_ h₁.holds⟩
    cases htarget : d.target with
    | lib => exact absurd htarget hne
    | queue => rfl
    | playlist pl => rfl
  · exact (hcut Job.workerMatchesType_queue).removeMatchingTracks cfg hs.accounted.sound hne hrun
  · exact h.plClearVisiblePl cfg hs hne hrun
  · obtain ⟨s₁, hclear, rfl⟩ := Option.map_eq_some_iff.mp hrun
    exact ((hcut Job.workerMatchesType_lib).removeMatchingTracks cfg hs.accounted.sound hne
      hclear).cmusAdd cfg hne false tracks
  · obtain ⟨s₁, hclear, rfl⟩ := Option.map_eq_some_iff.mp hrun
    obtain ⟨s₂, hempty, rfl⟩ := Option.map_eq_some_iff.mp hclear
    have hvisible := (removeMatchingTracks_same cfg hempty).visible
    exact (h.plClearVisiblePl cfg hs hne hclear).cmusAdd cfg
      (show d.target ≠ .playlist s₂.visible from hvisible.symm ▸ hne) false tracks

theorem plCreate (h : Loading cfg d s) : Loading cfg d s.plCreate :=
  ⟨h.scheduled, h.running, h.only, h.noUpdate,
    fun pl hpl => List.mem_append_left _ (h.there pl hpl), h.admitted, h.holds⟩

theorem plDeleteSelectedPl (h : Loading cfg d s) (hs : Reached s)
    (hne : d.target ≠ .playlist s.visible) (answer : Bool) (more : Nat) :
    Loading cfg d (s.plDeleteSelectedPl answer more) := by
  have hcut := h.workerRemoveJobs cfg (fun data hdata => h.known cfg hs hdata) hne
    (Job.plMatchAddJob_iff s.visible) more
  have hadd := hcut.workerAddJob cfg (.delete s.visible) nofun nofun
  have hthere : ∀ pl, d.target = .playlist pl → pl ∈ s.plHead.erase s.visible := by
    refine fun pl hpl => (List.mem_erase_of_ne fun heq => hne ?_).mpr (h.there pl hpl)
    rw [hpl, heq]
  unfold System.plDeleteSelectedPl
  split
  · exact h
  split
  · dsimp only
    split <;>
    · exact ⟨hadd.scheduled, hadd.running, hadd.only, hadd.noUpdate, hthere, hadd.admitted,
        hadd.holds⟩
  · exact h

theorem step (h : Loading cfg d s) (hs : Reached s) {op : Op} (hquiet : Quiet d.target s op)
    (hrun : step cfg s op = some t) : Loading cfg d t := by
  have hmoved : ∀ w : Worker, s.worker.Moved w → Loading cfg d {s with worker := w} :=
    fun w hw => h.withWorker cfg hw.jobs.subset
  cases op with
  | take => exact Option.some.inj hrun ▸ hmoved _ s.worker.take_moved
  | produce => exact Option.some.inj hrun ▸ hmoved _ s.worker.produce_moved
  | finish => exact Option.some.inj hrun ▸ hmoved _ s.worker.finish_moved
  | handle => exact h.jobHandle cfg hs hrun
  | add view prepend tracks =>
    obtain rfl := Option.some.inj hrun
    cases view <;> exact h.cmusAdd cfg hquiet _ tracks
  | update entries =>
    exact Option.some.inj hrun ▸ h.workerAddJob cfg _ nofun fun hlib => absurd hlib hquiet
  | clear c more => exact h.clear cfg hs hquiet hrun
  | remove view cb => exact h.removeMatchingTracks cfg hs.accounted.sound hquiet hrun
  | plCreate => exact Option.some.inj hrun ▸ h.plCreate cfg
  | plImport tracks =>
    obtain rfl := Option.some.inj hrun
    -- the playlist that is imported is a new one
    refine (h.plCreate cfg).cmusAdd cfg (fun heq => ?_) false tracks
    exact Nat.lt_irrefl _ (hs.orderly.created _ (.inl (h.there _ heq)))
  | select pl =>
    obtain rfl := Option.some.inj hrun
    unfold System.select
    split
    · exact ⟨h.scheduled, h.running, h.only, h.noUpdate, h.there, h.admitted, h.holds⟩
    · exact h
  | markSelectedPl =>
    exact Option.some.inj hrun ▸
      ⟨h.scheduled, h.running, h.only, h.noUpdate, h.there, h.admitted, h.holds⟩
  | deleteSelectedPl answer more =>
    exact Option.some.inj hrun ▸ h.plDeleteSelectedPl cfg hs hquiet answer more
  | setFilter expr =>
    obtain ⟨lib, hlib, -, hkeeps, -⟩ :=
      Lib.libSetFilter_settled cfg hs.accounted.sound.lib expr
    obtain ⟨lib', hlib', rfl⟩ := Option.map_eq_some_iff.mp hrun
    obtain rfl := Option.some.inj (hlib.symm.trans hlib')
    exact h.withLib cfg hkeeps.1 fun _ => hkeeps.2
  | setAddFilter expr =>
    exact Option.some.inj hrun ▸ h.withLib cfg (fun _ => .rfl) fun hlib => absurd hlib hquiet
  | setLiveFilter text =>
    obtain ⟨lib, hlib, -, hkeeps, -⟩ :=
      Lib.libSetLiveFilter_settled cfg hs.accounted.sound.lib text
    obtain ⟨lib', hlib', rfl⟩ := Option.map_eq_some_iff.mp hrun
    obtain rfl := Option.some.inj (hlib.symm.trans hlib')
    exact h.withLib cfg hkeeps.1 fun _ => hkeeps.2

/-- The job has ended, and its results are handled. -/
theorem drained (h : Loading cfg d s) (hs : Reached s) (hjobs : s.worker.jobs = []) :
    Holds s.stores d.target d.tracks := by
  have hflow : s.worker.inFlight d.serial = [] :=
    Worker.inFlight_of_fresh fun data hdata => absurd (hjobs ▸ hdata) List.not_mem_nil
  have htotal := hs.accounted.total d h.scheduled h.running
  rw [hflow, List.append_nil, List.append_nil] at htotal
  rw [← htotal]
  exact h.holds

/-- The job is scheduled for a target that is empty. -/
theorem start (hacc : Accounted s fun _ => []) {target : Target} {tracks : List TrackInfo}
    (hempty : ∀ x, x ∉ s.stores.contents target)
    (hadd : ∀ data, .add data ∈ s.worker.jobs → data.target ≠ target)
    (hupdate : target = .lib → ∀ entries, .update entries ∈ s.worker.jobs → entries = [])
    (hthere : ∀ pl, target = .playlist pl → pl ∈ s.plHead)
    (hin : ∀ ti ∈ tracks, s.stores.excluded cfg ⟨s.nextSerial, target, false, tracks⟩ ti = false) :
    Loading cfg ⟨s.nextSerial, target, false, tracks⟩ (s.cmusAdd target false tracks) := by
  have hhanded : s.history.handedOf s.nextSerial = [] := by
    rw [History.handedOf, List.map_eq_nil_iff, List.filter_eq_nil_iff]
    intro p hp
    simpa using Nat.ne_of_lt (hacc.serials _ (hacc.handed p hp).1)
  refine ⟨List.mem_append_right _ (.head _), fun hn => Nat.lt_irrefl _ (hacc.stopped _ hn),
    fun data hdata htarget => ?_, fun hlib entries hentries => ?_, hthere, hin, ?_⟩
  · simp only [System.cmusAdd, Worker.workerAddJob_jobs, List.mem_append, List.mem_singleton]
      at hdata
    rcases hdata with hdata | hdata
    · exact absurd htarget (hadd data hdata)
    · exact Job.add.inj hdata
  · simp only [System.cmusAdd, Worker.workerAddJob_jobs, List.mem_append, List.mem_singleton]
      at hentries
    rcases hentries with hentries | hentries
    · exact hupdate hlib entries hentries
    · cases hentries
  · show Holds s.stores target (s.history.handedOf s.nextSerial)
    rw [hhanded]
    cases target with
    | lib => exact ⟨fun x hx => absurd hx (hempty x), fun _ hti => absurd hti List.not_mem_nil⟩
    | queue => exact .of_eq (List.eq_nil_iff_forall_not_mem.mpr hempty)
    | playlist pl => exact .of_eq (List.eq_nil_iff_forall_not_mem.mpr hempty)

end Loading

/-! ### Reloads -/

omit [DecidableEq P] in
theorem update_after_removal {w : Worker} {more : Nat}
    (hnone : ∀ entries, .update entries ∈ w.results ∨ w.curJob = some (.update entries) →
      entries = []) {entries : List UpdateEntry}
    (hentries : .update entries ∈
      (w.workerRemoveJobs (Job.workerMatchesType jobTypeLib) more).jobs) : entries = [] := by
  obtain ⟨hwait, hcur, last, hresults, -, hlast⟩ :=
    w.removal_shape (fun pl => (Job.clear_spares_delete pl).1) more
  have hmatch := (Job.workerMatchesType_lib (.update entries)).mpr rfl
  rw [Worker.mem_jobs_update, hresults, hwait, List.mem_append, List.mem_filter, hmatch] at hentries
  rcases hentries with (hres | hres) | hres | hjob
  · exact hnone entries (.inl hres)
  · exact hnone entries (.inr ((hlast entries).mp hres).1)
  · exact hnone entries (.inr (hcur _ hres).1)
  · cases hjob.2

/-- Nothing is in flight at the reload. For the library this goes for update jobs too,
nothing is hidden, and the add filter lets the file's tracks through. -/
structure CleanFor (s : System P) (c : Clear) (more : Nat) (tracks : List TrackInfo) : Prop where
  add : NothingInFlight s.worker (s.target c.view) more
  update : s.target c.view = .lib → ∀ entries, .update entries ∈ s.worker.results ∨
    s.worker.curJob = some (.update entries) → entries = []
  shown : s.target c.view = .lib → ∀ x ∈ s.stores.lib.store, x ∈ s.stores.lib.shown
  admitted : s.target c.view = .lib → ∀ ti ∈ tracks,
    (s.stores.lib.inForce.addFilter.any fun e => !e.eval cfg.env ti) = false

theorem loading_of_clear {c : Clear} {more : Nat} {tracks : List TrackInfo} (hs : Reached s)
    (hrun : s.clear cfg more c = some t) (hloads : c.loads = some tracks)
    (hclean : CleanFor cfg s c more tracks) :
    Loading cfg ⟨s.nextSerial, s.target c.view, false, tracks⟩ t := by
  -- the jobs for the target that the removal leaves
  have hadd : ∀ {cb : Job → Bool}, (∀ job, cb job = true ↔ job.target = some (s.target c.view)) →
      ∀ data, .add data ∈ (s.worker.workerRemoveJobs cb more).jobs →
        data.target ≠ s.target c.view := by
    intro cb hcb data hdata htarget
    obtain ⟨tis, hres⟩ := (Worker.add_after_removal hcb htarget).mp hdata
    exact (Worker.nothingInFlight_iff hcb).mp hclean.add data tis hres htarget
  rcases c with view | loaded | loaded
  · cases hloads
  · cases hloads
    obtain ⟨s₁, hclear, rfl⟩ := Option.map_eq_some_iff.mp hrun
    obtain ⟨stores, hstores, rfl⟩ := Option.map_eq_some_iff.mp hclear
    obtain ⟨st', hst', hr⟩ :=
      Stores.removeMatchingTracks_removed cfg hs.accounted.sound .lib fun _ => true
    obtain rfl := Option.some.inj (hst'.symm.trans hstores)
    have hcut := hs.accounted.workerRemoveJobs (Job.workerMatchesType jobTypeLib)
      (fun pl => (Job.clear_spares_delete pl).1) more
    obtain ⟨s₂, hs₂, hacc⟩ := hcut.removeMatchingTracks cfg .lib fun _ => true
    obtain rfl := Option.some.inj (hs₂.symm.trans hclear)
    refine Loading.start cfg hacc (fun x hx => ?_) (hadd Job.workerMatchesType_lib)
      (fun _ entries hentries => ?_) nofun fun ti hti => ?_
    · have hx' := hclean.shown rfl x (hr.sub x hx)
      exact hr.hidden rfl x hx ⟨hx', rfl⟩
    · exact update_after_removal (hclean.update rfl) hentries
    · rw [excluded_congr cfg hr.addFilter]
      show (_ && _) = false
      rw [hclean.admitted rfl ti hti, Bool.and_false]
  · cases hloads
    obtain ⟨s₁, hclear, rfl⟩ := Option.map_eq_some_iff.mp hrun
    obtain ⟨s₂, hempty, rfl⟩ := Option.map_eq_some_iff.mp hclear
    obtain ⟨stores, hstores, rfl⟩ := Option.map_eq_some_iff.mp hempty
    obtain ⟨st', hst', hr⟩ := Stores.removeMatchingTracks_removed cfg hs.accounted.sound
      (.playlist s.visible) fun _ => true
    obtain rfl := Option.some.inj (hst'.symm.trans hstores)
    obtain ⟨s₃, hs₃, hacc⟩ := hs.accounted.plClearVisiblePl cfg more
    obtain rfl := Option.some.inj (hs₃.symm.trans hclear)
    refine Loading.start cfg hacc (fun x hx => ?_) (hadd (Job.plMatchAddJob_iff s.visible)) nofun
      (fun pl hpl => ?_) fun ti _ => rfl
    · exact nomatch hr.gone nofun x hx
    · obtain rfl := Target.playlist.inj hpl
      exact hs.selected.1

/-- The tracks of an earlier job for the target. -/
def Result.isOld (serial : Nat) (target : Target) : Result → Bool
  | .add d _ => decide (d.target = target ∧ d.serial < serial)
  | _ => false

end

end GracefulMusic.Jobs
