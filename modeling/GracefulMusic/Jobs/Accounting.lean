import GracefulMusic.Jobs.Flow
import GracefulMusic.Jobs.Stores

/-! The tracks of an add job, from its scheduling to its callback.

They are with the callback, in a result, in the buffer or still to be found, in their
order and each once, unless the job is cancelled. What the callback got is there, or was
kept out or taken out since. -/
namespace GracefulMusic.Jobs
open Tracks GracefulMusic.Expr

section
variable {P : Type} {s : System P}

/-- A file is there, or it was kept out or taken out since. -/
def Kept (st : Stores P) (h : History) (target : Target) (name : Text) : Prop :=
  (∃ x ∈ st.contents target, x.filename = name) ∨ name ∈ h.missing target

/-- Every track is accounted for; `aside` is what of a result is not given to the
callback yet. -/
structure Accounted (s : System P) (aside : Nat → List TrackInfo) : Prop where
  sound : s.stores.Sound
  full : s.worker.Full
  serials : ∀ d ∈ s.history.scheduled, d.serial < s.nextSerial
  once : (s.history.scheduled.map AddData.serial).Nodup
  stopped : ∀ n ∈ s.history.cancelled, n < s.nextSerial
  known : ∀ d, .add d ∈ s.worker.jobs → d ∈ s.history.scheduled
  handed : ∀ p ∈ s.history.handed, p.1 ∈ s.history.scheduled ∧
    Kept s.stores s.history p.1.target p.2.filename
  total : ∀ d ∈ s.history.scheduled, d.serial ∉ s.history.cancelled →
    s.history.handedOf d.serial ++ aside d.serial ++ s.worker.inFlight d.serial = d.tracks

theorem Worker.inFlight_eq_nil {w : Worker} {n : Nat} :
    w.inFlight n = [] ↔ (∀ r ∈ w.results, r.share n = []) ∧
      (∀ r, w.curJob = some r → r.share n = []) ∧ ∀ job ∈ w.workerJobs, job.share n = [] := by
  rw [inFlight, List.append_eq_nil_iff, List.append_eq_nil_iff, List.flatMap_eq_nil_iff,
    List.flatMap_eq_nil_iff, and_assoc]
  refine and_congr_right fun _ => and_congr_left fun _ => ?_
  cases w.curJob <;> simp

theorem AddData.share_of_ne {n : Nat} {data : AddData} (h : data.serial ≠ n)
    (tis : List TrackInfo) : data.share n tis = [] := if_neg h

theorem AddData.share_self (data : AddData) (tis : List TrackInfo) :
    data.share data.serial tis = tis := if_pos rfl

theorem AddData.share_nil (data : AddData) (n : Nat) : data.share n [] = [] := by
  unfold share
  split <;> rfl

/-- A number that no job has. -/
theorem Worker.inFlight_of_fresh {w : Worker} {n : Nat}
    (h : ∀ d, Job.add d ∈ w.jobs → d.serial ≠ n) : w.inFlight n = [] := by
  refine inFlight_eq_nil.mpr ⟨fun r hr => ?_, fun r hr => ?_, fun job hjob => ?_⟩
  · cases r with
    | add d tis => exact AddData.share_of_ne (h d (job_of_result hr)) _
    | update entries => rfl
    | plDelete pl => rfl
  · cases r with
    | add d remaining buffer => exact AddData.share_of_ne (h d (job_of_current hr)) _
    | update entries => rfl
    | delete pl => rfl
  · cases job with
    | add d => exact AddData.share_of_ne (h d (job_of_waiting hjob)) _
    | update entries => rfl
    | delete pl => rfl

namespace Accounted
variable {aside : Nat → List TrackInfo}

theorem serial_inj (h : Accounted s aside) {d d' : AddData} (hd : d ∈ s.history.scheduled)
    (hd' : d' ∈ s.history.scheduled) (heq : d.serial = d'.serial) : d = d' :=
  List.inj_on_of_nodup_map h.once hd hd' heq

/-! ### Moves and operations -/

theorem withWorker (h : Accounted s aside) {w : Worker}
    (hjobs : ∀ d, .add d ∈ w.jobs → .add d ∈ s.worker.jobs)
    (hflow : ∀ n, w.inFlight n = s.worker.inFlight n) (hfull : w.Full) :
    Accounted {s with worker := w} aside where
  sound := h.sound
  full := hfull
  serials := h.serials
  once := h.once
  stopped := h.stopped
  known d hd := h.known d (hjobs d hd)
  handed := h.handed
  total d hd hn := by
    rw [hflow]
    exact h.total d hd hn

theorem moved (h : Accounted s aside) {w : Worker} (hw : s.worker.Moved w) :
    Accounted {s with worker := w} aside :=
  h.withWorker (fun _ hd => hw.jobs.subset hd) hw.inFlight (hw.full h.full)

theorem withStores (h : Accounted s aside) {stores : Stores P} (hsound : stores.Sound)
    {missing : Target → List Text}
    (hkept : ∀ target name, Kept s.stores s.history target name →
      Kept stores {s.history with missing} target name) :
    Accounted {s with stores, history := {s.history with missing}} aside where
  sound := hsound
  full := h.full
  serials := h.serials
  once := h.once
  stopped := h.stopped
  known := h.known
  handed p hp := ⟨(h.handed p hp).1, hkept _ _ (h.handed p hp).2⟩
  total := h.total

theorem lose (h : Accounted s aside) {stores : Stores P} (hsound : stores.Sound)
    (target : Target) (tis : List TrackInfo)
    (hothers : ∀ other ≠ target, stores.contents other = s.stores.contents other)
    (hkeep : ∀ x ∈ s.stores.contents target, x ∉ tis → x ∈ stores.contents target) :
    Accounted {s with stores, history := s.history.lose target tis} aside := by
  refine h.withStores hsound fun other name hkept => ?_
  by_cases heq : other = target
  · subst heq
    simp only [Kept, Function.update_self, List.mem_append, List.mem_map]
    rcases hkept with ⟨x, hx, hname⟩ | hmissing
    · by_cases hlost : x ∈ tis
      · exact .inr (.inl ⟨x, hlost, hname⟩)
      · exact .inl ⟨x, hkeep x hx hlost, hname⟩
    · exact .inr (.inr hmissing)
  · simpa only [Kept, Function.update_of_ne heq, hothers other heq] using hkept

theorem cmusAdd (h : Accounted s aside) (haside : ∀ n ≥ s.nextSerial, aside n = [])
    (target : Target) (prepend : Bool) (tracks : List TrackInfo) :
    Accounted (s.cmusAdd target prepend tracks) aside := by
  have hfresh : ∀ d ∈ s.history.scheduled, d.serial ≠ s.nextSerial :=
    fun d hd => Nat.ne_of_lt (h.serials d hd)
  refine ⟨h.sound, h.full, fun d hd => ?_, ?_, fun n hn => Nat.lt_succ_of_lt (h.stopped n hn),
    fun d hd => ?_, fun p hp => ?_, fun d hd hn => ?_⟩
  · rcases List.mem_append.mp hd with hd | hd
    · exact Nat.lt_succ_of_lt (h.serials d hd)
    · obtain rfl := List.mem_singleton.mp hd
      exact Nat.lt_succ_self _
  · simp only [System.cmusAdd, List.map_append, List.map_cons, List.map_nil]
    refine List.nodup_append.mpr ⟨h.once, List.nodup_singleton _, fun n hn m hm => ?_⟩
    obtain ⟨d, hd, rfl⟩ := List.mem_map.mp hn
    obtain rfl := List.mem_singleton.mp hm
    exact hfresh d hd
  · simp only [System.cmusAdd, Worker.workerAddJob_jobs, List.mem_append, List.mem_singleton] at hd ⊢
    exact hd.imp (h.known d) fun heq => Job.add.inj heq
  · exact ⟨List.mem_append_left _ (h.handed p hp).1, (h.handed p hp).2⟩
  · simp only [System.cmusAdd, Worker.workerAddJob_inFlight, Job.share] at hn ⊢
    rcases List.mem_append.mp hd with hd | hd
    · rw [AddData.share_of_ne (hfresh d hd).symm, List.append_nil]
      exact h.total d hd hn
    · obtain rfl := List.mem_singleton.mp hd
      -- nothing of the new job was ever under way
      have hhanded : s.history.handedOf s.nextSerial = [] := by
        rw [History.handedOf, List.map_eq_nil_iff, List.filter_eq_nil_iff]
        intro p hp
        simpa using hfresh _ (h.handed p hp).1
      have hflow : s.worker.inFlight s.nextSerial = [] :=
        Worker.inFlight_of_fresh fun d hd => hfresh d (h.known d hd)
      show s.history.handedOf s.nextSerial ++ aside s.nextSerial ++ (_ ++ _) = tracks
      rw [hhanded, haside _ (Nat.le_refl _), hflow]
      exact AddData.share_self _ _

/-- A job that has no tracks is scheduled. -/
theorem workerAddJob (h : Accounted s aside) (job : Job) (hjob : ∀ d, job ≠ .add d) :
    Accounted {s with worker := s.worker.workerAddJob job} aside := by
  refine h.withWorker (fun d hd => ?_) (fun n => ?_) h.full
  · rw [Worker.workerAddJob_jobs, List.mem_append, List.mem_singleton] at hd
    exact hd.resolve_right fun heq => hjob d heq.symm
  · rw [Worker.workerAddJob_inFlight]
    cases job with
    | add d => exact absurd rfl (hjob d)
    | update entries => exact List.append_nil _
    | delete pl => exact List.append_nil _

theorem workerRemoveJobs (h : Accounted s aside) (cb : Job → Bool)
    (hcb : ∀ pl, cb (.delete pl) = false) (more : Nat) :
    Accounted (s.workerRemoveJobs cb more) aside := by
  obtain ⟨hjobs, hflow, hfull⟩ := s.worker.workerRemoveJobs_spec hcb more
  have hstop : ∀ n ∈ s.worker.cancelled cb, n < s.nextSerial := by
    intro n hn
    obtain ⟨d, hd, -, rfl⟩ := Worker.mem_cancelled.mp hn
    refine h.serials d (h.known d ?_)
    rw [Worker.jobs, List.append_assoc]
    exact List.mem_append_right _ hd
  refine ⟨h.sound, hfull h.full, h.serials, h.once,
    fun n hn => (List.mem_append.mp hn).elim (h.stopped n) (hstop n),
    fun d hd => h.known d (hjobs.subset hd), h.handed, fun d hd hn => ?_⟩
  obtain ⟨hn, hkept⟩ := not_or.mp fun hmem => hn (List.mem_append.mpr hmem)
  show s.history.handedOf _ ++ _ ++ (s.worker.workerRemoveJobs cb more).inFlight _ = _
  rw [hflow d.serial hkept]
  exact h.total d hd hn

theorem withLib (h : Accounted s aside) {lib : Lib.Library P} (hlib : Lib.Settled lib)
    (hstore : ∀ x, x ∈ lib.store ↔ x ∈ s.stores.lib.store) : Accounted (s.withLib lib) aside := by
  have hsound : Stores.Sound {s.stores with lib} := ⟨hlib, h.sound.queue, h.sound.playlist⟩
  refine h.withStores hsound fun target name hkept => ?_
  cases target with
  | lib => exact hkept.imp_left fun ⟨x, hx, hname⟩ => ⟨x, (hstore x).mpr hx, hname⟩
  | queue => exact hkept
  | playlist pl => exact hkept

end Accounted

end

variable {P : Type} [DecidableEq P] (cfg : Lib.Config P) {s : System P}

namespace Accounted
variable {aside : Nat → List TrackInfo}

theorem removeMatchingTracks (h : Accounted s aside) (target : Target) (cb : TrackInfo → Bool) :
    ∃ s', s.removeMatchingTracks cfg target cb = some s' ∧ Accounted s' aside := by
  obtain ⟨st', hrun, hr⟩ := Stores.removeMatchingTracks_removed cfg h.sound target cb
  refine ⟨_, by rw [System.removeMatchingTracks, hrun]; rfl,
    h.lose hr.sound target _ hr.others fun x hx hlost => hr.keep x hx ?_⟩
  by_contra hcb
  exact hlost (List.mem_filter.mpr ⟨hx, by simpa using hcb⟩)

/-! ### Handling a result -/

theorem handedOf_handTrack (data : AddData) (s : System P) (ti : TrackInfo) (n : Nat) :
    (s.handTrack cfg data ti).history.handedOf n =
      s.history.handedOf n ++ data.share n [ti] := by
  simp only [History.handedOf, System.handTrack, History.hand, List.filter_append,
    List.map_append, AddData.share, List.filter_cons, List.filter_nil, decide_eq_true_eq]
  split <;> rfl

theorem handTrack {data : AddData} {ti : TrackInfo} {tis : List TrackInfo}
    (h : Accounted s fun n => data.share n (ti :: tis)) (hdata : data ∈ s.history.scheduled) :
    Accounted (s.handTrack cfg data ti) fun n => data.share n tis := by
  have hadd := Stores.addCb_added cfg h.sound data ti
  have hkept : ∀ target name, Kept s.stores s.history target name →
      Kept (s.handTrack cfg data ti).stores (s.handTrack cfg data ti).history target name := by
    intro target name hkept
    by_cases heq : target = data.target
    · subst heq
      simp only [Kept, System.handTrack, History.hand, Function.update_self]
      rcases hkept with ⟨x, hx, hname⟩ | hmissing
      · exact .inl ⟨x, hadd.keep x hx, hname⟩
      by_cases hout : s.stores.excluded cfg data ti = true
      · rw [if_pos hout]
        exact .inr (.tail _ hmissing)
      rw [if_neg hout]
      by_cases hname : ti.filename = name
      · obtain ⟨x, hx, hxname⟩ := hadd.there (by simpa using hout)
        exact .inl ⟨x, hx, hxname.trans hname⟩
      · exact .inr (List.mem_filter.mpr ⟨hmissing, by simpa using Ne.symm hname⟩)
    · simp only [Kept, System.handTrack, History.hand, Function.update_of_ne heq,
        hadd.others target heq]
      exact hkept
  refine ⟨hadd.sound, h.full, h.serials, h.once, h.stopped, h.known, fun p hp => ?_,
    fun d hd hn => ?_⟩
  · rcases List.mem_append.mp hp with hp | hp
    · exact ⟨(h.handed p hp).1, hkept _ _ (h.handed p hp).2⟩
    obtain rfl := List.mem_singleton.mp hp
    refine ⟨hdata, ?_⟩
    by_cases hout : s.stores.excluded cfg data ti = true
    · refine .inr ?_
      simp [System.handTrack, History.hand, hout]
    · exact .inl (hadd.there (by simpa using hout))
  · rw [handedOf_handTrack, List.append_assoc (History.handedOf _ _), ← AddData.share_append]
    exact h.total d hd hn

theorem foldl_handTrack {data : AddData} {tis : List TrackInfo}
    (h : Accounted s fun n => data.share n tis) (hdata : data ∈ s.history.scheduled) :
    Accounted (tis.foldl (System.handTrack cfg data) s) fun _ => [] := by
  induction tis generalizing s with
  | nil => simpa only [List.foldl_nil, AddData.share_nil] using h
  | cons ti tis ih => exact ih (h.handTrack cfg hdata) hdata

theorem handleUpdateEntry (h : Accounted s fun _ => []) (entry : UpdateEntry) :
    ∃ s', s.handleUpdateEntry cfg entry = some s' ∧ Accounted s' fun _ => [] := by
  obtain ⟨lib, hrun, hlib, -, -, hstore⟩ := Lib.libRemove_settled cfg h.sound.lib entry.ti
  have hsound : Stores.Sound {s.stores with lib} := ⟨hlib, h.sound.queue, h.sound.playlist⟩
  have hrem : Accounted {s with
      stores := {s.stores with lib}, history := s.history.lose .lib [entry.ti]} fun _ => [] := by
    refine h.lose hsound .lib _ (fun other hne => ?_)
      fun x hx hlost => (hstore x).mpr ⟨hx, fun hgone => hlost ?_⟩
    · cases other with
      | lib => exact absurd rfl hne
      | queue => rfl
      | playlist pl => rfl
    · exact List.mem_singleton.mpr hgone.1
  refine ⟨_, by rw [System.handleUpdateEntry, hrun]; rfl, ?_⟩
  dsimp only
  split
  · exact hrem.cmusAdd (fun _ _ => rfl) _ _ _
  · exact hrem

theorem foldlM_handleUpdateEntry (h : Accounted s fun _ => []) (entries : List UpdateEntry) :
    ∃ s', entries.foldlM (System.handleUpdateEntry cfg) s = some s' ∧
      Accounted s' fun _ => [] := by
  induction entries generalizing s with
  | nil => exact ⟨s, rfl, h⟩
  | cons entry entries ih =>
    obtain ⟨s₁, hrun₁, h₁⟩ := h.handleUpdateEntry cfg entry
    obtain ⟨s', hrun, h'⟩ := ih h₁
    exact ⟨s', by rw [List.foldlM_cons, hrun₁]; exact hrun, h'⟩

theorem plFree (h : Accounted s aside) (pl : Nat) :
    ∃ s', s.plFree cfg pl = some s' ∧ Accounted s' aside := by
  obtain ⟨s₁, hrun, h₁⟩ := h.removeMatchingTracks cfg (.playlist pl) fun _ => true
  refine ⟨{s₁ with history := {s₁.history with freed := pl :: s₁.history.freed}}, ?_,
    ⟨h₁.sound, h₁.full, h₁.serials, h₁.once, h₁.stopped, h₁.known, h₁.handed, h₁.total⟩⟩
  rw [System.plFree, System.editableClear, hrun]
  rfl

theorem jobHandle (h : Accounted s fun _ => [])
    (hlive : ∀ pl ∈ s.history.freed, ∀ job ∈ s.worker.jobs, ¬ job.refersTo pl) :
    ∃ s', s.jobHandle cfg = some s' ∧ Accounted s' fun _ => [] := by
  rw [System.jobHandle]
  cases hresults : s.worker.results with
  | nil => exact ⟨s, rfl, h⟩
  | cons result results =>
    have hjobs : s.worker.jobs = result.job :: {s.worker with results}.jobs := by
      simp only [Worker.jobs, hresults, List.map_cons, List.cons_append]
    have hnone : ¬ ∃ pl ∈ s.history.freed, result.job.refersTo pl := by
      intro hrefers
      obtain ⟨pl, hpl, hrefers⟩ := hrefers
      exact hlive pl hpl _ (hjobs ▸ .head _) hrefers
    simp only [if_neg hnone]
    have hflow : ∀ n, s.worker.inFlight n =
        result.share n ++ {s.worker with results}.inFlight n := by
      intro n
      simp only [Worker.inFlight, hresults, List.flatMap_cons, List.append_assoc]
    have hpop : Accounted {s with worker := {s.worker with results}} fun n => result.share n := by
      refine ⟨h.sound, fun d hd => h.full d (hresults ▸ .tail _ hd), h.serials, h.once, h.stopped,
        fun d hd => h.known d (hjobs ▸ .tail _ hd), h.handed, fun d hd hn => ?_⟩
      have htotal := h.total d hd hn
      rwa [hflow, List.append_nil, ← List.append_assoc] at htotal
    cases result with
    | add data tis =>
      exact ⟨_, rfl, hpop.foldl_handTrack cfg (h.known data (hjobs ▸ .head _))⟩
    | update entries => exact hpop.foldlM_handleUpdateEntry cfg entries
    | plDelete pl => exact hpop.plFree cfg pl

/-! ### Clears -/

theorem plClearVisiblePl (h : Accounted s aside) (more : Nat) :
    ∃ s', s.plClearVisiblePl cfg more = some s' ∧ Accounted s' aside := by
  obtain ⟨s₁, hrun, h₁⟩ := h.removeMatchingTracks cfg (.playlist s.visible) fun _ => true
  exact ⟨_, by rw [System.plClearVisiblePl, System.editableClear, hrun]; rfl,
    h₁.workerRemoveJobs _ (fun _ => rfl) more⟩

theorem clear (h : Accounted s fun _ => []) (more : Nat) (c : Clear) :
    ∃ s', s.clear cfg more c = some s' ∧ Accounted s' fun _ => [] := by
  have hcut := h.workerRemoveJobs (Job.workerMatchesType jobTypeLib)
    (fun pl => (Job.clear_spares_delete pl).1) more
  rcases c with ⟨_ | _ | _⟩ | tracks | tracks
  · obtain ⟨st', hrun, hr⟩ :=
      Stores.removeMatchingTracks_removed cfg hcut.sound .lib fun _ => true
    have hempty : ∀ x, x ∉ st'.lib.shown := fun x hx => nomatch hr.shown rfl x hx
    have hsound : Stores.Sound {st' with lib := st'.lib.libClearStore} :=
      ⟨Stores.libClearStore_settled hr.sound.lib hempty, hr.sound.queue, hr.sound.playlist⟩
    refine ⟨_, by rw [System.clear, System.editableClear, System.removeMatchingTracks, hrun]; rfl,
      hcut.lose hsound .lib _ (fun other hne => ?_) fun x hx hlost => ?_⟩
    · refine Eq.trans ?_ (hr.others other hne)
      cases other with
      | lib => exact absurd rfl hne
      | queue => rfl
      | playlist pl => rfl
    · exact absurd (List.mem_filter.mpr ⟨hx, rfl⟩) hlost
  · have hcut := h.workerRemoveJobs (Job.workerMatchesType jobTypeQueue)
      (fun pl => (Job.clear_spares_delete pl).2) more
    exact hcut.removeMatchingTracks cfg .queue fun _ => true
  · exact h.plClearVisiblePl cfg more
  · obtain ⟨s₁, hrun, h₁⟩ := hcut.removeMatchingTracks cfg .lib fun _ => true
    exact ⟨_, by rw [System.clear, System.editableClear, hrun]; rfl,
      h₁.cmusAdd (fun _ _ => rfl) _ _ _⟩
  · obtain ⟨s₁, hrun, h₁⟩ := h.plClearVisiblePl cfg more
    exact ⟨_, by rw [System.clear, hrun]; rfl, h₁.cmusAdd (fun _ _ => rfl) _ _ _⟩

/-! ### Playlists that come and go -/

omit [DecidableEq P] in
theorem plCreate (h : Accounted s aside) : Accounted s.plCreate aside :=
  ⟨h.sound, h.full, h.serials, h.once, h.stopped, h.known, h.handed, h.total⟩

omit [DecidableEq P] in
theorem plImport (h : Accounted s fun _ => []) (tracks : List TrackInfo) :
    Accounted (s.plImport tracks) fun _ => [] :=
  h.plCreate.cmusAdd (fun _ _ => rfl) _ _ _

omit [DecidableEq P] in
theorem plDeleteSelectedPl (h : Accounted s aside) (answer : Bool) (more : Nat) :
    Accounted (s.plDeleteSelectedPl answer more) aside := by
  unfold System.plDeleteSelectedPl
  split
  · exact h
  split
  · dsimp only
    split <;>
    · have hcut := h.workerRemoveJobs (Job.plMatchAddJob s.visible) (fun _ => rfl) more
      have hadd := hcut.workerAddJob (.delete s.visible) nofun
      exact ⟨hadd.sound, hadd.full, hadd.serials, hadd.once, hadd.stopped, hadd.known,
        hadd.handed, hadd.total⟩
  · exact h

end Accounted

/-! ### Steps -/

theorem step_accounted (h : Accounted s fun _ => [])
    (hlive : ∀ pl ∈ s.history.freed, ∀ job ∈ s.worker.jobs, ¬ job.refersTo pl) (op : Op) :
    ∃ s', step cfg s op = some s' ∧ Accounted s' fun _ => [] := by
  cases op with
  | take => exact ⟨_, rfl, h.moved s.worker.take_moved⟩
  | produce => exact ⟨_, rfl, h.moved s.worker.produce_moved⟩
  | finish => exact ⟨_, rfl, h.moved s.worker.finish_moved⟩
  | handle => exact h.jobHandle cfg hlive
  | add view prepend tracks =>
    refine ⟨_, rfl, ?_⟩
    cases view <;> exact h.cmusAdd (fun _ _ => rfl) _ _ tracks
  | update entries => exact ⟨_, rfl, h.workerAddJob _ nofun⟩
  | clear c more => exact h.clear cfg more c
  | remove view cb => exact h.removeMatchingTracks cfg (s.target view) cb
  | plCreate => exact ⟨_, rfl, h.plCreate⟩
  | plImport tracks => exact ⟨_, rfl, h.plImport tracks⟩
  | select pl =>
    refine ⟨_, rfl, ?_⟩
    unfold System.select
    split
    · exact ⟨h.sound, h.full, h.serials, h.once, h.stopped, h.known, h.handed, h.total⟩
    · exact h
  | markSelectedPl =>
    exact ⟨_, rfl, ⟨h.sound, h.full, h.serials, h.once, h.stopped, h.known, h.handed, h.total⟩⟩
  | deleteSelectedPl answer more => exact ⟨_, rfl, h.plDeleteSelectedPl answer more⟩
  | setFilter expr =>
    obtain ⟨lib, hrun, hlib, hkeeps, -⟩ := Lib.libSetFilter_settled cfg h.sound.lib expr
    exact ⟨_, by rw [step, hrun]; rfl, h.withLib hlib hkeeps.1⟩
  | setAddFilter expr =>
    have hlib := h.sound.lib
    exact ⟨_, rfl, h.withLib ⟨⟨hlib.index, hlib.shuffle, hlib.tree, hlib.table, hlib.once,
      hlib.stored⟩, hlib.flag, hlib.expr⟩ fun _ => .rfl⟩
  | setLiveFilter text =>
    obtain ⟨lib, hrun, hlib, hkeeps, -⟩ := Lib.libSetLiveFilter_settled cfg h.sound.lib text
    exact ⟨_, by rw [step, hrun]; rfl, h.withLib hlib hkeeps.1⟩

omit [DecidableEq P] in
/-- `pl_init`. -/
theorem Accounted.plInit (h : Accounted s fun _ => []) (files : List (List TrackInfo)) :
    Accounted (s.plInit files) fun _ => [] := by
  have hload : Accounted (files.foldl System.plImport s) fun _ => [] := by
    induction files generalizing s with
    | nil => exact h
    | cons tracks files ih => exact ih (h.plImport tracks)
  unfold System.plInit
  dsimp only
  split
  · exact ⟨hload.sound, hload.full, hload.serials, hload.once, hload.stopped, hload.known,
      hload.handed, hload.total⟩
  · exact ⟨hload.sound, hload.full, hload.serials, hload.once, hload.stopped, hload.known,
      hload.handed, hload.total⟩

omit [DecidableEq P] in
theorem init_accounted (m : Start P) (files : List (List TrackInfo)) :
    Accounted (System.init m files) fun _ => [] := by
  have hsound : (System.empty m).stores.Sound :=
    ⟨Lib.init_settled .., Linked.init .., fun _ => Linked.init ..⟩
  have hempty : Accounted (System.empty m) fun _ => [] :=
    ⟨hsound, fun _ hd => absurd hd List.not_mem_nil, fun _ hd => absurd hd List.not_mem_nil,
      List.nodup_nil, fun _ hd => absurd hd List.not_mem_nil, fun _ hd => absurd hd List.not_mem_nil,
      fun _ hd => absurd hd List.not_mem_nil, fun _ hd => absurd hd List.not_mem_nil⟩
  exact hempty.plInit files

end GracefulMusic.Jobs
