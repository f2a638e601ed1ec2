import GracefulMusic.Jobs.Accounting

/-! Deleting a playlist while jobs refer to it.

The deletion goes through the list of jobs and the list of results like the jobs before
it, and nothing is scheduled for a playlist that is gone from the list window. So no
reference stands behind a deletion, and the result that frees the playlist is the last
one with a pointer to it. -/
namespace GracefulMusic.Jobs
open Tracks GracefulMusic.Expr

section
variable {P : Type} {s s' : System P}

/-- Deleted playlists are freed or have their deletion on its way, each once, and no job
behind a deletion refers to its playlist. -/
structure Orderly (s : System P) : Prop where
  nodup : s.plHead.Nodup
  created : ∀ pl, pl ∈ s.plHead ∨ pl ∈ s.history.deleted → pl < s.nextPl
  gone : ∀ pl ∈ s.history.deleted, pl ∉ s.plHead
  once : s.history.deleted.Nodup
  last : Job.DeletesLast s.worker.jobs
  onWay : (s.history.freed ++ s.worker.jobs.filterMap Job.deletes).Perm s.history.deleted
  live : ∀ pl ∈ s.history.freed, ∀ job ∈ s.worker.jobs, ¬ job.refersTo pl

/-- The list window is on a playlist, and so is the mark. -/
def Selected (s : System P) : Prop := s.visible ∈ s.plHead ∧ s.marked ∈ s.plHead

/-- Playlists and deletions are as before, while jobs are worked off. -/
structure SamePlaylists (s s' : System P) : Prop where
  plHead : s'.plHead = s.plHead
  visible : s'.visible = s.visible
  marked : s'.marked = s.marked
  nextPl : s'.nextPl = s.nextPl
  deleted : s'.history.deleted = s.history.deleted
  freed : s'.history.freed = s.history.freed
  jobs : Job.Spread s.worker.jobs s'.worker.jobs

theorem SamePlaylists.selected (h : SamePlaylists s s') (hs : Selected s) : Selected s' := by
  refine ⟨?_, ?_⟩
  · rw [h.visible, h.plHead]
    exact hs.1
  · rw [h.marked, h.plHead]
    exact hs.2

namespace Orderly

theorem same (h : Orderly s) (hsame : SamePlaylists s s') : Orderly s' where
  nodup := hsame.plHead ▸ h.nodup
  created := by
    rw [hsame.plHead, hsame.deleted, hsame.nextPl]
    exact h.created
  gone := by
    rw [hsame.plHead, hsame.deleted]
    exact h.gone
  once := hsame.deleted ▸ h.once
  last := h.last.spread hsame.jobs
  onWay := by
    rw [hsame.freed, hsame.deleted, hsame.jobs.deletes_eq]
    exact h.onWay
  live pl hpl job hjob := h.live pl (hsame.freed ▸ hpl) job (hsame.jobs.subset hjob)

theorem not_deleting (h : Orderly s) {pl : Nat} (hpl : pl ∈ s.plHead) {job : Job}
    (hjob : job ∈ s.worker.jobs) : pl ∉ job.deletes := fun hdel =>
  h.gone pl (h.onWay.mem_iff.mp (List.mem_append_right _
    (List.mem_filterMap.mpr ⟨job, hjob, hdel⟩))) hpl

theorem not_freed (h : Orderly s) {pl : Nat} (hpl : pl ∈ s.plHead) : pl ∉ s.history.freed :=
  fun hfreed => h.gone pl (h.onWay.mem_iff.mp (List.mem_append_left _ hfreed)) hpl

/-- A job that comes in refers to playlists that are there. -/
theorem append_last (h : Orderly s) (job : Job) (hjob : ∀ pl, job.refersTo pl → pl ∈ s.plHead) :
    Job.DeletesLast (s.worker.jobs ++ [job]) ∧
      ∀ pl ∈ s.history.freed, ∀ j ∈ s.worker.jobs ++ [job], ¬ j.refersTo pl := by
  refine ⟨List.pairwise_append.mpr ⟨h.last, List.pairwise_singleton _ _, ?_⟩, ?_⟩
  · intro a ha b hb pl hpl hrefers
    obtain rfl := List.mem_singleton.mp hb
    exact h.not_deleting (hjob pl hrefers) ha hpl
  · intro pl hpl j hj hrefers
    rcases List.mem_append.mp hj with hj | hj
    · exact h.live pl hpl j hj hrefers
    · obtain rfl := List.mem_singleton.mp hj
      exact h.not_freed (hjob pl hrefers) hpl

theorem workerAddJob (h : Orderly s) (job : Job) (hdel : job.deletes = none)
    (hjob : ∀ pl, job.refersTo pl → pl ∈ s.plHead) :
    Orderly {s with worker := s.worker.workerAddJob job} := by
  obtain ⟨hlast, hlive⟩ := h.append_last job hjob
  refine ⟨h.nodup, h.created, h.gone, h.once, ?_, ?_, ?_⟩
  · rwa [Worker.workerAddJob_jobs]
  · rw [Worker.workerAddJob_jobs, List.filterMap_append, List.filterMap_cons, hdel,
      List.filterMap_nil, List.append_nil]
    exact h.onWay
  · rwa [Worker.workerAddJob_jobs]

theorem cmusAdd (h : Orderly s) {target : Target} (prepend : Bool) (tracks : List TrackInfo)
    (htarget : ∀ pl, target = .playlist pl → pl ∈ s.plHead) :
    Orderly (s.cmusAdd target prepend tracks) := by
  have hadd := h.workerAddJob (.add ⟨s.nextSerial, target, prepend, tracks⟩) rfl htarget
  exact ⟨hadd.nodup, hadd.created, hadd.gone, hadd.once, hadd.last, hadd.onWay, hadd.live⟩

theorem plCreate (h : Orderly s) : Orderly s.plCreate := by
  have hnew : s.nextPl ∉ s.plHead := fun hmem => Nat.lt_irrefl _ (h.created _ (.inl hmem))
  refine ⟨List.nodup_append.mpr ⟨h.nodup, List.nodup_singleton _, fun a ha b hb heq => ?_⟩,
    fun pl hpl => ?_, fun pl hpl hmem => ?_, h.once, h.last, h.onWay, h.live⟩
  · obtain rfl := List.mem_singleton.mp hb
    exact hnew (heq ▸ ha)
  · simp only [System.plCreate, List.mem_append, List.mem_singleton] at hpl ⊢
    rcases hpl with (hpl | rfl) | hpl
    · exact Nat.lt_succ_of_lt (h.created pl (.inl hpl))
    · exact Nat.lt_succ_self _
    · exact Nat.lt_succ_of_lt (h.created pl (.inr hpl))
  · rcases List.mem_append.mp hmem with hmem | hmem
    · exact h.gone pl hpl hmem
    · obtain rfl := List.mem_singleton.mp hmem
      exact Nat.lt_irrefl _ (h.created _ (.inr hpl))

theorem plImport (h : Orderly s) (tracks : List TrackInfo) : Orderly (s.plImport tracks) := by
  refine h.plCreate.cmusAdd false tracks fun pl hpl => ?_
  obtain rfl := Target.playlist.inj hpl
  exact List.mem_append_right _ (.head _)

/-- The playlist that leaves the list window gets its deletion. -/
theorem delete (h : Orderly s) {pl : Nat} (hpl : pl ∈ s.plHead) :
    Orderly {s with
      plHead := s.plHead.erase pl
      worker := s.worker.workerAddJob (.delete pl)
      history := {s.history with deleted := pl :: s.history.deleted}} := by
  obtain ⟨hlast, hlive⟩ := h.append_last (.delete pl) fun pl' heq => heq ▸ hpl
  refine ⟨h.nodup.erase pl, fun pl' hpl' => ?_, fun pl' hpl' => ?_,
    List.nodup_cons.mpr ⟨fun hmem => h.gone pl hmem hpl, h.once⟩, ?_, ?_, ?_⟩
  · rcases hpl' with hpl' | hpl'
    · exact h.created pl' (.inl (List.mem_of_mem_erase hpl'))
    · rcases List.mem_cons.mp hpl' with rfl | hpl'
      · exact h.created _ (.inl hpl)
      · exact h.created pl' (.inr hpl')
  · rcases List.mem_cons.mp hpl' with rfl | hpl'
    · exact h.nodup.not_mem_erase
    · exact fun hmem => h.gone pl' hpl' (List.mem_of_mem_erase hmem)
  · rwa [Worker.workerAddJob_jobs]
  · rw [Worker.workerAddJob_jobs, List.filterMap_append, ← List.append_assoc]
    exact (List.perm_append_singleton _ _).trans (h.onWay.cons pl)
  · rwa [Worker.workerAddJob_jobs]

theorem workerRemoveJobs (h : Orderly s) (cb : Job → Bool)
    (hcb : ∀ pl, cb (.delete pl) = false) (more : Nat) : Orderly (s.workerRemoveJobs cb more) :=
  h.same ⟨rfl, rfl, rfl, rfl, rfl, rfl, (s.worker.workerRemoveJobs_spec hcb more).1⟩

theorem plDeleteSelectedPl (h : Orderly s) (hsel : Selected s) (answer : Bool) (more : Nat) :
    Orderly (s.plDeleteSelectedPl answer more) ∧ Selected (s.plDeleteSelectedPl answer more) := by
  unfold System.plDeleteSelectedPl
  split
  · exact ⟨h, hsel⟩
  rename_i next hnext
  split
  · have hcut := h.workerRemoveJobs (Job.plMatchAddJob s.visible) (fun _ => rfl) more
    have hdel := hcut.delete hsel.1
    -- the window moves to a neighbour
    have hother : next ∈ s.plHead.erase s.visible :=
      Sequence.mem_of_neighbour h.nodup hsel.1 hnext
    dsimp only
    split
    · exact ⟨⟨hdel.nodup, hdel.created, hdel.gone, hdel.once, hdel.last, hdel.onWay, hdel.live⟩,
        ⟨hother, hother⟩⟩
    · rename_i hmarked
      exact ⟨⟨hdel.nodup, hdel.created, hdel.gone, hdel.once, hdel.last, hdel.onWay, hdel.live⟩,
        ⟨hother, (List.mem_erase_of_ne hmarked).mpr hsel.2⟩⟩
  · exact ⟨h, hsel⟩

end Orderly

theorem orderly_empty (m : Start P) : Orderly (System.empty m) :=
  ⟨List.nodup_nil, fun _ hpl => absurd hpl (by simp [System.empty]),
    fun _ hpl => absurd hpl List.not_mem_nil, List.nodup_nil, List.Pairwise.nil, .refl _,
    fun _ hpl => absurd hpl List.not_mem_nil⟩

/-- `pl_init`: there is a playlist, the first one is visible and marked. -/
theorem Orderly.plInit (h : Orderly s) (files : List (List TrackInfo)) :
    Orderly (s.plInit files) ∧ Selected (s.plInit files) := by
  have hload : Orderly (files.foldl System.plImport s) := by
    induction files generalizing s with
    | nil => exact h
    | cons tracks files ih => exact ih (h.plImport tracks)
  have hall : ∀ u : System P, Orderly u → u.plHead ≠ [] →
      let u := {u with visible := u.plHead.headD 0, marked := u.plHead.headD 0}
      Orderly u ∧ Selected u := by
    intro u hu hne
    have hhead : u.plHead.headD 0 ∈ u.plHead := by
      cases hpl : u.plHead with
      | nil => exact absurd hpl hne
      | cons pl rest => exact .head _
    exact ⟨⟨hu.nodup, hu.created, hu.gone, hu.once, hu.last, hu.onWay, hu.live⟩, hhead, hhead⟩
  unfold System.plInit
  dsimp only
  split
  · exact hall _ hload.plCreate (by simp [System.plCreate])
  · rename_i hne
    exact hall _ hload hne

end

/-! ### Operations -/

section
variable {P : Type} [DecidableEq P] (cfg : Lib.Config P) {s s' : System P}

theorem removeMatchingTracks_same {target : Target} {cb : TrackInfo → Bool}
    (hrun : s.removeMatchingTracks cfg target cb = some s') : SamePlaylists s s' := by
  obtain ⟨stores, -, rfl⟩ := Option.map_eq_some_iff.mp hrun
  exact ⟨rfl, rfl, rfl, rfl, rfl, rfl, .refl _⟩

theorem foldl_handTrack_same (data : AddData) (tis : List TrackInfo) (s : System P) :
    SamePlaylists s (tis.foldl (System.handTrack cfg data) s) := by
  induction tis generalizing s with
  | nil => exact ⟨rfl, rfl, rfl, rfl, rfl, rfl, .refl _⟩
  | cons ti tis ih =>
    have h := ih (s.handTrack cfg data ti)
    exact ⟨h.plHead, h.visible, h.marked, h.nextPl, h.deleted, h.freed, h.jobs⟩

namespace Orderly

theorem foldlM_handleUpdateEntry (h : Orderly s) (hsel : Selected s) {entries : List UpdateEntry}
    (hrun : entries.foldlM (System.handleUpdateEntry cfg) s = some s') :
    Orderly s' ∧ Selected s' := by
  induction entries generalizing s with
  | nil =>
    cases hrun
    exact ⟨h, hsel⟩
  | cons entry entries ih =>
    rw [List.foldlM_cons] at hrun
    obtain ⟨s₁, hentry, hrun⟩ := Option.bind_eq_some_iff.mp hrun
    obtain ⟨lib, -, rfl⟩ := Option.map_eq_some_iff.mp hentry
    have hrem : Orderly {s with
        stores := {s.stores with lib}, history := s.history.lose .lib [entry.ti]} :=
      ⟨h.nodup, h.created, h.gone, h.once, h.last, h.onWay, h.live⟩
    cases hreadd : entry.readd with
    | none =>
      rw [hreadd] at hrun
      exact ih hrem hsel hrun
    | some tracks =>
      rw [hreadd] at hrun
      have hlib : ∀ pl, Target.lib = .playlist pl → pl ∈ s.plHead := nofun
      exact ih (hrem.cmusAdd false tracks hlib) hsel hrun

theorem jobHandle (h : Orderly s) (hsel : Selected s) (hrun : s.jobHandle cfg = some s') :
    Orderly s' ∧ Selected s' := by
  rw [System.jobHandle] at hrun
  cases hresults : s.worker.results with
  | nil =>
    rw [hresults] at hrun
    cases hrun
    exact ⟨h, hsel⟩
  | cons result results =>
    rw [hresults] at hrun
    obtain ⟨-, hrun⟩ := Option.ite_none_left_eq_some.mp hrun
    have hjobs : s.worker.jobs = result.job :: {s.worker with results}.jobs := by
      simp only [Worker.jobs, hresults, List.map_cons, List.cons_append]
    obtain ⟨hfirst, hlast⟩ := List.pairwise_cons.mp (hjobs ▸ h.last)
    have hlive : ∀ pl ∈ s.history.freed, ∀ job ∈ {s.worker with results}.jobs, ¬ job.refersTo pl :=
      fun pl hpl job hjob => h.live pl hpl job (hjobs ▸ .tail _ hjob)
    have hpop : result.job.deletes = none →
        Orderly {s with worker := {s.worker with results}} := by
      intro hdel
      have honWay := h.onWay
      rw [hjobs, List.filterMap_cons, hdel] at honWay
      exact ⟨h.nodup, h.created, h.gone, h.once, hlast, honWay, hlive⟩
    cases result with
    | add data tis =>
      obtain rfl := Option.some.inj hrun
      have hsame := foldl_handTrack_same cfg data tis {s with worker := {s.worker with results}}
      exact ⟨(hpop rfl).same hsame, hsame.selected hsel⟩
    | update entries => exact (hpop rfl).foldlM_handleUpdateEntry cfg hsel hrun
    | plDelete pl =>
      obtain ⟨s₁, hclear, rfl⟩ := Option.map_eq_some_iff.mp hrun
      have hsame := removeMatchingTracks_same cfg hclear
      -- nothing behind the deletion refers to the playlist
      have hfreed : Orderly {s with
          worker := {s.worker with results}
          history := {s.history with freed := pl :: s.history.freed}} := by
        refine ⟨h.nodup, h.created, h.gone, h.once, hlast, ?_, fun pl' hpl' => ?_⟩
        · have honWay := h.onWay
          rw [hjobs, List.filterMap_cons] at honWay
          exact List.perm_middle.symm.trans honWay
        · rcases List.mem_cons.mp hpl' with rfl | hpl'
          · exact fun job hjob => hfirst job hjob _ rfl
          · exact hlive pl' hpl'
      exact ⟨hfreed.same ⟨hsame.plHead, hsame.visible, hsame.marked, hsame.nextPl, hsame.deleted,
        congrArg (pl :: ·) hsame.freed, hsame.jobs⟩, hsame.selected hsel⟩

theorem plClearVisiblePl (h : Orderly s) (hsel : Selected s) {more : Nat}
    (hrun : s.plClearVisiblePl cfg more = some s') : Orderly s' ∧ Selected s' := by
  obtain ⟨s₁, hclear, rfl⟩ := Option.map_eq_some_iff.mp hrun
  have hsame := removeMatchingTracks_same cfg hclear
  exact ⟨(h.same hsame).workerRemoveJobs _ (fun _ => rfl) more, hsame.selected hsel⟩

theorem clear (h : Orderly s) (hsel : Selected s) {more : Nat} {c : Clear}
    (hrun : s.clear cfg more c = some s') : Orderly s' ∧ Selected s' := by
  have hcut := h.workerRemoveJobs (Job.workerMatchesType jobTypeLib)
    (fun pl => (Job.clear_spares_delete pl).1) more
  rcases c with ⟨_ | _ | _⟩ | tracks | tracks
  · obtain ⟨s₁, hclear, rfl⟩ := Option.map_eq_some_iff.mp hrun
    have hsame := removeMatchingTracks_same cfg hclear
    have h₁ := hcut.same hsame
    exact ⟨⟨h₁.nodup, h₁.created, h₁.gone, h₁.once, h₁.last, h₁.onWay, h₁.live⟩,
      hsame.selected hsel⟩
  · have hcut := h.workerRemoveJobs (Job.workerMatchesType jobTypeQueue)
      (fun pl => (Job.clear_spares_delete pl).2) more
    have hsame := removeMatchingTracks_same cfg hrun
    exact ⟨hcut.same hsame, hsame.selected hsel⟩
  · exact h.plClearVisiblePl cfg hsel hrun
  · obtain ⟨s₁, hclear, rfl⟩ := Option.map_eq_some_iff.mp hrun
    have hsame := removeMatchingTracks_same cfg hclear
    exact ⟨(hcut.same hsame).cmusAdd false tracks fun _ heq => (nomatch heq), hsame.selected hsel⟩
  · obtain ⟨s₁, hclear, rfl⟩ := Option.map_eq_some_iff.mp hrun
    obtain ⟨h₁, hsel₁⟩ := h.plClearVisiblePl cfg hsel hclear
    refine ⟨h₁.cmusAdd false tracks fun pl hpl => ?_, hsel₁⟩
    obtain rfl := Target.playlist.inj hpl
    exact hsel₁.1

end Orderly

theorem step_orderly (h : Orderly s) (hsel : Selected s) {op : Op}
    (hrun : step cfg s op = some s') : Orderly s' ∧ Selected s' := by
  have hmoved : ∀ w : Worker, s.worker.Moved w →
      Orderly {s with worker := w} ∧ Selected {s with worker := w} := fun w hw =>
    ⟨h.same ⟨rfl, rfl, rfl, rfl, rfl, rfl, hw.jobs⟩, hsel⟩
  have hlib : ∀ lib, Orderly (s.withLib lib) ∧ Selected (s.withLib lib) := fun lib =>
    ⟨h.same ⟨rfl, rfl, rfl, rfl, rfl, rfl, .refl _⟩, hsel⟩
  cases op with
  | take => exact Option.some.inj hrun ▸ hmoved _ s.worker.take_moved
  | produce => exact Option.some.inj hrun ▸ hmoved _ s.worker.produce_moved
  | finish => exact Option.some.inj hrun ▸ hmoved _ s.worker.finish_moved
  | handle => exact h.jobHandle cfg hsel hrun
  | add view prepend tracks =>
    obtain rfl := Option.some.inj hrun
    cases view with
    | lib => exact ⟨h.cmusAdd false tracks fun _ heq => (nomatch heq), hsel⟩
    | queue => exact ⟨h.cmusAdd prepend tracks fun _ heq => (nomatch heq), hsel⟩
    | playlist =>
      refine ⟨h.cmusAdd false tracks fun pl hpl => ?_, hsel⟩
      obtain rfl := Target.playlist.inj hpl
      exact hsel.2
  | update entries =>
    obtain rfl := Option.some.inj hrun
    exact ⟨h.workerAddJob _ rfl fun _ hfalse => hfalse.elim, hsel⟩
  | clear c more => exact h.clear cfg hsel hrun
  | remove view cb =>
    have hsame := removeMatchingTracks_same cfg hrun
    exact ⟨h.same hsame, hsame.selected hsel⟩
  | plCreate =>
    obtain rfl := Option.some.inj hrun
    exact ⟨h.plCreate, List.mem_append_left _ hsel.1, List.mem_append_left _ hsel.2⟩
  | plImport tracks =>
    obtain rfl := Option.some.inj hrun
    exact ⟨h.plImport tracks, List.mem_append_left _ hsel.1,
      List.mem_append_left _ hsel.2⟩
  | select pl =>
    obtain rfl := Option.some.inj hrun
    unfold System.select
    split
    · rename_i hpl
      exact ⟨⟨h.nodup, h.created, h.gone, h.once, h.last, h.onWay, h.live⟩, hpl, hsel.2⟩
    · exact ⟨h, hsel⟩
  | markSelectedPl =>
    obtain rfl := Option.some.inj hrun
    exact ⟨⟨h.nodup, h.created, h.gone, h.once, h.last, h.onWay, h.live⟩, hsel.1,
      hsel.1⟩
  | deleteSelectedPl answer more =>
    exact Option.some.inj hrun ▸ h.plDeleteSelectedPl hsel answer more
  | setFilter expr =>
    obtain ⟨lib, -, rfl⟩ := Option.map_eq_some_iff.mp hrun
    exact hlib lib
  | setAddFilter expr => exact Option.some.inj hrun ▸ hlib _
  | setLiveFilter text =>
    obtain ⟨lib, -, rfl⟩ := Option.map_eq_some_iff.mp hrun
    exact hlib lib

/-! ### Runs -/

/-- What holds of every state that is reached. -/
structure Reached (s : System P) : Prop where
  accounted : Accounted s fun _ => []
  orderly : Orderly s
  selected : Selected s

theorem step_reached (h : Reached s) (op : Op) : ∃ s', step cfg s op = some s' ∧ Reached s' := by
  obtain ⟨s', hrun, haccounted⟩ := step_accounted cfg h.accounted h.orderly.live op
  obtain ⟨horderly, hselected⟩ := step_orderly cfg h.orderly h.selected hrun
  exact ⟨s', hrun, haccounted, horderly, hselected⟩

omit [DecidableEq P] in
theorem init_reached (m : Start P) (files : List (List TrackInfo)) :
    Reached (System.init m files) :=
  have hinit := (orderly_empty m).plInit files
  ⟨init_accounted m files, hinit.1, hinit.2⟩

theorem run_reached (m : Start P) (files : List (List TrackInfo)) (ops : List Op) :
    ∃ s, Runs.run (step cfg) (System.init m files) ops = some s ∧ Reached s :=
  have halong : Runs.Along (step cfg) (fun _ _ => True) (System.init m files) ops :=
    Runs.along_true _ ops
  Runs.run_along (fun _ op h _ => step_reached cfg h op) _ ops (init_reached m files) halong

/-- **Deleting a playlist is safe**: no run comes to use a freed playlist or to free one
again, nothing on its way refers to one, and every deleted playlist is freed once or has
its one deletion on the way. -/
theorem pl_delete_safe {P : Type} [DecidableEq P] (cfg : Lib.Config P) (m : Start P)
    (files : List (List TrackInfo)) (ops : List Op) :
    ∃ s, Runs.run (step cfg) (System.init m files) ops = some s ∧
      (∀ pl ∈ s.history.freed, ∀ job ∈ s.worker.jobs, ¬ job.refersTo pl) ∧
      s.history.deleted.Nodup ∧
      (s.history.freed ++ s.worker.jobs.filterMap Job.deletes).Perm s.history.deleted := by
  obtain ⟨s, hrun, h⟩ := run_reached cfg m files ops
  exact ⟨s, hrun, h.orderly.live, h.orderly.once, h.orderly.onWay⟩

end

end GracefulMusic.Jobs
