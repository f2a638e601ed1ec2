import GracefulMusic.Tracks.Linked
import GracefulMusic.Foundation.Runs

/-! The counters of an editable.

They are kept up to date by each operation on its own, whatever the index is like. The
total time depends on the infos of the tracks, and `editable_update_track` swaps an info
without it. -/
namespace GracefulMusic.Tracks

variable {P : Type} [DecidableEq P] (rb : OrderedTree.Balancing P)
  (fieldCmp : SortField → TrackInfo → TrackInfo → Int) {e e' : Editable P}

/-- `editable_update_track`. -/
def Editable.updateTrack (e : Editable P) (old : TrackInfo) (new : Option TrackInfo) :
    Option (Editable P) :=
  match new with
  | some new =>
    some {e with info := fun t => if t ∈ e.head ∧ e.info t = old then new else e.info t}
  | none => e.removeWhere rb fun t => e.info t = old

inductive CounterOp (P : Type) where
  | edit (op : Op P)
  | updateTrack (old : TrackInfo) (new : Option TrackInfo)

def stepCounters (e : Editable P) : CounterOp P → Option (Editable P)
  | .edit op => step rb fieldCmp e op
  | .updateTrack old new => e.updateTrack rb old new

def CounterOp.Legal (e : Editable P) : CounterOp P → Prop
  | .edit op => op.Legal e
  | .updateTrack _ _ => True

/-- The duration, if it is known. -/
def known (ti : TrackInfo) : Int := if ti.duration ≠ -1 then ti.duration else 0

/-- The tracks whose info is swapped for a new one have the same time before and after. -/
def CounterOp.KeepsTime (e : Editable P) : CounterOp P → Prop
  | .updateTrack old (some new) =>
    UInt32.ofInt (e.head.countP (e.info · = old) * known new) =
      UInt32.ofInt (e.head.countP (e.info · = old) * known old)
  | _ => True

instance CounterOp.decidableLegal (e : Editable P) (op : CounterOp P) : Decidable (op.Legal e) := by
  cases op <;> unfold CounterOp.Legal <;> infer_instance

instance CounterOp.decidableKeepsTime (e : Editable P) (op : CounterOp P) :
    Decidable (op.KeepsTime e) :=
  CounterOp.casesOn (motive := fun op => Decidable (op.KeepsTime e)) op
    (fun _ => isTrue trivial)
    fun old new => Option.casesOn
      (motive := fun new => Decidable ((CounterOp.updateTrack (P := P) old new).KeepsTime e)) new
      (isTrue trivial) fun new =>
        inferInstanceAs (Decidable (UInt32.ofInt (e.head.countP (e.info · = old) * known new) =
          UInt32.ofInt (e.head.countP (e.info · = old) * known old)))

/-- What the counters count. -/
structure Counted (e : Editable P) : Prop where
  tracks : e.nrTracks = e.head.length
  marked : e.nrMarked = e.head.countP e.marked
  time : e.totalTime =
    UInt32.ofInt (((e.head.map e.info).filter (·.duration ≠ -1)).map (·.duration)).sum

/-! ### The list -/

theorem insertBefore_perm (x : P) (pos : Option P) (l : List P) :
    (Sequence.insertBefore x pos l).Perm (x :: l) := by
  cases pos with
  | none => exact List.perm_append_singleton x l
  | some a =>
    show (List.takeWhile (· ≠ a) l ++ x :: List.dropWhile (· ≠ a) l).Perm (x :: l)
    refine List.perm_middle.trans ?_
    rw [List.takeWhile_append_dropWhile]

/-- A track is linked wherever the tree says. -/
theorem sortedListAddTrack_head (cmp : P → P → Int) (s : Index P) (track : P) (tiebreak : Int) :
    (sortedListAddTrack rb cmp s track tiebreak).head.Perm (track :: s.head) := by
  unfold sortedListAddTrack
  dsimp only
  split
  · split
    · exact insertBefore_perm track (some _) s.head
    · exact insertBefore_perm track (rbNext s.tree _) s.head
  · exact insertBefore_perm track _ s.head

theorem sortedListRemoveTrack_head {s s' : Index P} {track : P}
    (h : sortedListRemoveTrack rb s track = some s') : s'.head = s.head.erase track := by
  unfold sortedListRemoveTrack at h
  split at h
  · cases h
    rfl
  split at h
  · dsimp only at h
    split at h
    · split at h
      · cases h
        rfl
      · cases h
        rfl
    · cases h
      rfl
  · cases h

theorem rebuild_head {cmp : P → P → Int} (l : List P) {s s' : Index P × Index P}
    (h : l.foldlM (rebuildStep rb cmp) s = some s') : s'.2.head.Perm (l ++ s.2.head) := by
  induction l generalizing s with
  | nil =>
    cases h
    exact .refl _
  | cons t l ih =>
    rw [List.foldlM_cons] at h
    obtain ⟨s₁, hstep, hrest⟩ := Option.bind_eq_some_iff.mp h
    obtain ⟨old, -, hstep⟩ := Option.bind_eq_some_iff.mp hstep
    cases hstep
    refine (ih hrest).trans ?_
    exact ((sortedListAddTrack_head rb cmp _ t 0).append_left l).trans List.perm_middle

theorem sortedListRebuild_head {cmp : P → P → Int} {s s' : Index P}
    (h : sortedListRebuild rb cmp s = some s') : s'.head.Perm s.head := by
  obtain ⟨r, hrun, hs⟩ := Option.bind_eq_some_iff.mp h
  cases hs
  have hhead := rebuild_head rb s.head hrun
  rwa [show (Index.empty s.clear).head = [] from rfl, List.append_nil] at hhead

theorem addAll_head (cmp : P → P → Int) (l : List P) (s : Index P) :
    (l.foldl (fun s t => sortedListAddTrack rb cmp s t 0) s).head.Perm (l ++ s.head) := by
  induction l generalizing s with
  | nil => exact .refl _
  | cons t l ih =>
    refine (ih _).trans ?_
    exact ((sortedListAddTrack_head rb cmp s t 0).append_left l).trans List.perm_middle

theorem randListRebuild_head {s s' : Index P} {shuffled : List P}
    (h : randListRebuild rb s shuffled = some s') : s'.head.Perm shuffled := by
  obtain ⟨r, -, hs⟩ := Option.bind_eq_some_iff.mp h
  cases hs
  have hhead := addAll_head rb (fun _ _ => 0) shuffled (Index.empty r.clear)
  rwa [show (Index.empty r.clear).head = [] from rfl, List.append_nil] at hhead

/-! ### Tallies -/

/-- The sum of the known durations. -/
def knownTime (e : Editable P) : Int := (e.head.map fun t => known (e.info t)).sum

/-- Right counters, with the tracks distinct. -/
structure Tallied (e : Editable P) : Prop where
  nodup : e.head.Nodup
  tracks : e.nrTracks = e.head.length
  marked : e.nrMarked = e.head.countP e.marked
  time : e.totalTime = UInt32.ofInt (knownTime e)

theorem time_eq (ti : TrackInfo) : Editable.time ti = UInt32.ofInt (known ti) := by
  unfold Editable.time known
  split
  · rfl
  · rfl

omit [DecidableEq P] in
/-- The tracks in another order. -/
theorem Tallied.perm (h : Tallied e) (hhead : e'.head.Perm e.head)
    (hinfo : e'.info = e.info) (hmarked : e'.marked = e.marked) (htracks : e'.nrTracks = e.nrTracks)
    (hnr : e'.nrMarked = e.nrMarked) (htime : e'.totalTime = e.totalTime) : Tallied e' := by
  refine ⟨hhead.nodup_iff.mpr h.nodup, ?_, ?_, ?_⟩
  · rw [htracks, h.tracks, hhead.length_eq]
  · rw [hnr, h.marked, hmarked, hhead.countP_eq]
  · rw [htime, h.time, knownTime, knownTime, hinfo, (hhead.map _).sum_eq]

theorem Tallied.doEditableAdd (h : Tallied e) {track : P} (ti : TrackInfo)
    (tiebreak : Int) (hfresh : track ∉ e.head) :
    Tallied ((e.initTrack track ti).doEditableAdd rb fieldCmp track tiebreak) := by
  have hhead : ((e.initTrack track ti).doEditableAdd rb fieldCmp track tiebreak).head.Perm
      (track :: e.head) := sortedListAddTrack_head rb _ (e.initTrack track ti).index track tiebreak
  have hne : ∀ t ∈ e.head, t ≠ track := by
    intro t ht heq
    subst heq
    exact hfresh ht
  have hinfo : ∀ t ∈ e.head, (e.initTrack track ti).info t = e.info t := fun t ht =>
    Function.update_of_ne (hne t ht) _ _
  have hmarked : ∀ t ∈ e.head, (e.initTrack track ti).marked t = e.marked t := fun t ht =>
    Function.update_of_ne (hne t ht) _ _
  have hself : (e.initTrack track ti).marked track = false := Function.update_self ..
  refine ⟨hhead.nodup_iff.mpr (List.nodup_cons.mpr ⟨hfresh, h.nodup⟩), ?_, ?_, ?_⟩
  · show e.nrTracks + 1 = _
    rw [hhead.length_eq, List.length_cons, h.tracks]
  · show e.nrMarked = List.countP (e.initTrack track ti).marked _
    rw [hhead.countP_eq, List.countP_cons_of_neg (by rw [hself]; decide), h.marked]
    exact List.countP_congr fun t ht => by rw [hmarked t ht]
  · show e.totalTime + Editable.time ((e.initTrack track ti).info track) = UInt32.ofInt
      (List.map (fun t => known ((e.initTrack track ti).info t)) _).sum
    have hrest : e.head.map (fun t => known ((e.initTrack track ti).info t)) =
        e.head.map fun t => known (e.info t) :=
      List.map_congr_left fun t ht => by rw [hinfo t ht]
    rw [h.time, time_eq, ← UInt32.ofInt_add, (hhead.map _).sum_eq, List.map_cons, List.sum_cons,
      hrest, knownTime]
    congr 1
    omega

theorem Tallied.removeTrack (h : Tallied e) {t : P} (ht : t ∈ e.head)
    (hrun : e.removeTrack rb t = some e') :
    Tallied e' ∧ e'.head = e.head.erase t ∧ e'.info = e.info := by
  obtain ⟨index, hindex, hrun⟩ := Option.bind_eq_some_iff.mp hrun
  cases hrun
  have hhead := sortedListRemoveTrack_head rb hindex
  have hperm := List.perm_cons_erase ht
  refine ⟨⟨?_, ?_, ?_, ?_⟩, hhead, rfl⟩
  · show index.head.Nodup
    rw [hhead]
    exact h.nodup.erase t
  · show e.nrTracks - 1 = index.head.length
    rw [hhead, List.length_erase_of_mem ht, h.tracks]
  · show e.nrMarked - (e.marked t).toNat = index.head.countP e.marked
    rw [hhead, h.marked, hperm.countP_eq, List.countP_cons]
    cases e.marked t <;> simp
  · show e.totalTime - Editable.time (e.info t) =
      UInt32.ofInt (index.head.map fun t => known (e.info t)).sum
    rw [hhead, h.time, time_eq, knownTime, (hperm.map _).sum_eq, List.map_cons, List.sum_cons,
      UInt32.ofInt_add, UInt32.add_comm, UInt32.add_sub_cancel]

/-- The removal loops: what they come to is left in the list as it was. -/
theorem Tallied.removeWhere (h : Tallied e) (p : P → Bool)
    (hrun : e.removeWhere rb p = some e') : Tallied e' := by
  suffices hwalk : ∀ (l : List P) (e₁ : Editable P), Tallied e₁ → l.Nodup → (∀ t ∈ l, t ∈ e₁.head) →
      l.foldlM (fun e t => if p t then e.removeTrack rb t else some e) e₁ = some e' →
      Tallied e' from hwalk e.head e h h.nodup (fun _ => id) hrun
  intro l
  induction l with
  | nil =>
    intro e₁ h₁ _ _ hrun
    cases hrun
    exact h₁
  | cons t l ih =>
    intro e₁ h₁ hl hsub hrun
    obtain ⟨ht, hl⟩ := List.nodup_cons.mp hl
    rw [List.foldlM_cons] at hrun
    obtain ⟨e₂, hstep, hrest⟩ := Option.bind_eq_some_iff.mp hrun
    by_cases hp : p t = true
    · rw [if_pos hp] at hstep
      obtain ⟨h₂, hhead, -⟩ := h₁.removeTrack rb (hsub t (.head _)) hstep
      refine ih e₂ h₂ hl (fun u hu => ?_) hrest
      rw [hhead]
      refine (List.mem_erase_of_ne ?_).mpr (hsub u (.tail _ hu))
      intro heq
      subst heq
      exact ht hu
    · rw [if_neg hp] at hstep
      cases hstep
      exact ih _ h₁ hl (fun u hu => hsub u (.tail _ hu)) hrest

/-! ### Marks and moves -/

theorem Tallied.setMark (h : Tallied e) {t : P} (ht : t ∈ e.head) (mark : Bool) :
    Tallied (e.setMark t mark) := by
  refine ⟨h.nodup, h.tracks, ?_, h.time⟩
  have hperm := List.perm_cons_erase ht
  have hrest : (e.head.erase t).countP (Function.update e.marked t mark) =
      (e.head.erase t).countP e.marked := by
    refine List.countP_congr fun u hu => ?_
    rw [Function.update_of_ne (h.nodup.mem_erase_iff.mp hu).1]
  show e.nrMarked - (e.marked t).toNat + mark.toNat =
    e.head.countP (Function.update e.marked t mark)
  rw [h.marked, hperm.countP_eq, hperm.countP_eq, List.countP_cons, List.countP_cons, hrest,
    Function.update_self]
  cases e.marked t <;> cases mark <;> simp

theorem Tallied.foldl_setMark (mark : Editable P → P → Bool) (l : List P)
    (h : Tallied e) (hl : ∀ t ∈ l, t ∈ e.head) :
    Tallied (l.foldl (fun e t => e.setMark t (mark e t)) e) := by
  induction l generalizing e with
  | nil => exact h
  | cons t l ih => exact ih (h.setMark (hl t (.head _)) _) fun u hu => hl u (.tail _ hu)

theorem Tallied.moveSel (h : Tallied e) {t : P} (ht : t ∈ e.head) {after : Option P}
    (hafter : ∀ a, after = some a → a ∈ e.head ∧
      if e.nrMarked ≠ 0 then e.marked a = false else some t ≠ some a)
    (hrun : e.moveSel (some t) after = some e') : Tallied e' := by
  -- what stays and what moves
  obtain ⟨rest, tmp, hsplit, hperm, hrest⟩ : ∃ rest tmp, (if e.nrMarked ≠ 0 then
      (e.head.filter fun t => !e.marked t, (e.head.filter e.marked).reverse)
      else (e.head.erase t, [t])) = (rest, tmp) ∧ (tmp ++ rest).Perm e.head ∧
      ∀ a, after = some a → a ∈ rest := by
    by_cases hmarked : e.nrMarked ≠ 0
    · refine ⟨_, _, if_pos hmarked, ?_, fun a ha => ?_⟩
      · refine ((List.reverse_perm _).append_right _).trans ?_
        exact List.filter_append_perm e.marked e.head
      · obtain ⟨hmem, hun⟩ := hafter a ha
        rw [if_pos hmarked] at hun
        exact List.mem_filter.mpr ⟨hmem, by rw [hun]; rfl⟩
    · refine ⟨_, _, if_neg hmarked, (List.perm_cons_erase ht).symm, fun a ha => ?_⟩
      obtain ⟨hmem, hne⟩ := hafter a ha
      rw [if_neg hmarked] at hne
      exact (List.mem_erase_of_ne fun hat => hne (by rw [hat])).mpr hmem
  have hhead : (tmp.foldl (fun head item => Sequence.insertAfter item after head) rest).Perm
      e.head := (Sequence.foldl_insertAfter_perm tmp (hperm.nodup_iff.mpr h.nodup) hrest).trans hperm
  unfold Editable.moveSel at hrun
  dsimp only at hrun
  rw [hsplit] at hrun
  dsimp only at hrun
  unfold Editable.resetTree at hrun
  split at hrun
  · split at hrun
    · cases hrun
      exact h.perm hhead rfl rfl rfl rfl rfl
    · cases hrun
      exact h.perm hhead rfl rfl rfl rfl rfl
  · cases hrun

theorem Tallied.step (h : Tallied e) {op : Op P} (hlegal : op.Legal e)
    (hrun : step rb fieldCmp e op = some e') : Tallied e' := by
  cases op with
  | add track ti =>
    cases hrun
    exact h.doEditableAdd rb fieldCmp ti 1 hlegal
  | addBefore track ti =>
    cases hrun
    exact h.doEditableAdd rb fieldCmp ti (-1) hlegal
  | removeTrack track => exact (h.removeTrack rb hlegal hrun).1
  | removeSel sel =>
    simp only [Tracks.step, Editable.removeSel] at hrun
    split at hrun
    · exact h.removeWhere rb _ hrun
    · cases sel with
      | none =>
        cases hrun
        exact h
      | some t => exact (h.removeTrack rb (hlegal t rfl) hrun).1
  | removeMatchingTracks cb => exact h.removeWhere rb _ hrun
  | clear => exact h.removeWhere rb _ hrun
  | sort keys =>
    simp only [Tracks.step, Editable.sort] at hrun
    split at hrun
    · cases hrun
      exact h.perm (.refl _) rfl rfl rfl rfl rfl
    · obtain ⟨index, hindex, hrun⟩ := Option.bind_eq_some_iff.mp hrun
      cases hrun
      exact h.perm (sortedListRebuild_head rb hindex) rfl rfl rfl rfl rfl
  | rand shuffled =>
    simp only [Tracks.step, Editable.rand] at hrun
    split at hrun
    · cases hrun
      exact h
    · obtain ⟨index, hindex, hrun⟩ := Option.bind_eq_some_iff.mp hrun
      cases hrun
      exact h.perm ((randListRebuild_head rb hindex).trans hlegal) rfl rfl rfl rfl rfl
  | moveAfter sel =>
    simp only [Tracks.step, Editable.moveAfter] at hrun
    split at hrun
    · cases hrun
      exact h
    · cases sel with
      | none =>
        cases hrun
        exact h
      | some t =>
        have ht := hlegal t rfl
        exact h.moveSel ht (fun a ha => findInsertAfterPoint_stays h.nodup ht ha) hrun
  | moveBefore sel =>
    simp only [Tracks.step, Editable.moveBefore] at hrun
    split at hrun
    · cases hrun
      exact h
    · have hmany : 1 < e.head.length := by
        rw [← h.tracks]
        omega
      cases sel with
      | none =>
        cases hrun
        exact h
      | some t =>
        have ht := hlegal t rfl
        exact h.moveSel ht (fun a ha => findInsertBeforePoint_stays h.nodup hmany ht ha) hrun
  | toggleMark sel =>
    cases hrun
    cases sel with
    | none => exact h
    | some t => exact h.setMark (hlegal t rfl) _
  | mark filter =>
    cases hrun
    exact h.foldl_setMark (fun e t => filter (e.info t)) e.head fun _ => id
  | unmark =>
    cases hrun
    exact h.foldl_setMark (fun _ _ => false) e.head fun _ => id
  | invertMarks =>
    cases hrun
    exact h.foldl_setMark (fun e t => !e.marked t) e.head fun _ => id

/-! ### Updates -/

omit [DecidableEq P] in
theorem knownTime_eq (e : Editable P) :
    knownTime e = (((e.head.map e.info).filter (·.duration ≠ -1)).map (·.duration)).sum := by
  unfold knownTime
  induction e.head with
  | nil => rfl
  | cons t l ih =>
    rw [List.map_cons, List.sum_cons, ih, List.map_cons, List.filter_cons, known]
    by_cases hd : (e.info t).duration ≠ -1
    · simp [hd]
    · simp [hd]

omit [DecidableEq P] in
theorem Tallied.counted (h : Tallied e) : Counted e :=
  ⟨h.tracks, h.marked, by rw [h.time, knownTime_eq]⟩

omit [DecidableEq P] in
/-- What swapping an info does to a sum over the tracks. -/
theorem swapped_sum (info : P → TrackInfo) (old new : TrackInfo) (l : List P) :
    (l.map fun t => known (if info t = old then new else info t)).sum =
      (l.map fun t => known (info t)).sum + l.countP (info · = old) * (known new - known old) := by
  induction l with
  | nil => simp
  | cons t l ih =>
    rw [List.map_cons, List.sum_cons, List.map_cons, List.sum_cons, ih, List.countP_cons]
    by_cases ht : info t = old
    · simp only [ht, if_true, decide_true]
      grind
    · simp only [ht, if_false, decide_false]
      grind

theorem ofInt_add_sub (k a b : Int) :
    UInt32.ofInt k = UInt32.ofInt (k + (a - b)) ↔ UInt32.ofInt a = UInt32.ofInt b := by
  rw [Int.sub_eq_add_neg, UInt32.ofInt_add, UInt32.ofInt_add, UInt32.ofInt_neg]
  constructor
  · intro h
    grind
  · intro h
    grind

/-- The counters count again exactly if the time is the same with the new info. -/
theorem Tallied.updateTrack (h : Tallied e) (old new : TrackInfo)
    (hrun : e.updateTrack rb old (some new) = some e') :
    e'.head.Nodup ∧ (Counted e' ↔ (CounterOp.updateTrack (P := P) old (some new)).KeepsTime e) := by
  obtain rfl := Option.some.inj hrun
  refine ⟨h.nodup, ?_⟩
  have htime : knownTime {e with
      info := fun t => if t ∈ e.head ∧ e.info t = old then new else e.info t} =
      knownTime e + (e.head.countP (e.info · = old) * known new -
        e.head.countP (e.info · = old) * known old) := by
    rw [← mul_sub, knownTime, knownTime, ← swapped_sum]
    congr 1
    exact List.map_congr_left fun t ht => by simp [ht]
  have hkeeps := ofInt_add_sub (knownTime e) (e.head.countP (e.info · = old) * known new)
    (e.head.countP (e.info · = old) * known old)
  rw [← htime, ← h.time] at hkeeps
  refine Iff.trans ⟨fun hc => ?_, fun ht => ⟨h.tracks, h.marked, ?_⟩⟩ hkeeps
  · rw [knownTime_eq]
    exact hc.time
  · rw [← knownTime_eq]
    exact ht

/-- One operation from a state with right counters. -/
theorem Tallied.stepCounters (h : Tallied e) {op : CounterOp P} (hlegal : op.Legal e)
    (hrun : stepCounters rb fieldCmp e op = some e') :
    e'.head.Nodup ∧ (Counted e' ↔ op.KeepsTime e) := by
  cases op with
  | edit op =>
    have h' := h.step rb fieldCmp hlegal hrun
    exact ⟨h'.nodup, iff_of_true h'.counted trivial⟩
  | updateTrack old new =>
    cases new with
    | none =>
      have h' := h.removeWhere rb _ hrun
      exact ⟨h'.nodup, iff_of_true h'.counted trivial⟩
    | some new => exact h.updateTrack rb old new hrun

theorem counters (clear marked : P → Bool) (info : P → TrackInfo) (keys : List SortKey)
    (history : List (CounterOp P))
    (hlegal : Runs.Along (stepCounters rb fieldCmp) (fun e op => op.Legal e)
      (.init clear marked info keys) history) :
    Runs.Throughout (stepCounters rb fieldCmp) Counted (.init clear marked info keys) history ↔
      Runs.Along (stepCounters rb fieldCmp) (fun e op => op.KeepsTime e)
        (.init clear marked info keys) history := by
  refine Runs.throughout_iff_along (I := fun e : Editable P => e.head.Nodup)
    (fun e op hstop => ?_) (fun e op e' hnodup hc hlegal hrun => ?_) List.nodup_nil
    ⟨rfl, rfl, rfl⟩ hlegal
  · cases op with
    | edit op => trivial
    | updateTrack old new =>
      cases new with
      | none => trivial
      | some new => cases hstop
  · have h : Tallied e := ⟨hnodup, hc.tracks, hc.marked, by rw [hc.time, knownTime_eq]⟩
    exact h.stepCounters rb fieldCmp hlegal hrun

/-- A track of a minute and a half, and its file read again. -/
def retagged (duration : Int) : List (CounterOp Nat) :=
  [.edit (.add 1 { uid := 1, filename := ascii "a", duration := 90 }), .edit .invertMarks,
    .updateTrack { uid := 1, filename := ascii "a", duration := 90 }
      (some { uid := 2, filename := ascii "a", duration })]

theorem counters_same_length :
    Runs.Throughout (stepCounters plainMemory.rb plainMemory.fieldCmp) Counted
      (.init (fun _ => true) (fun _ => false) (fun _ => { uid := 0, filename := [] }) [])
      (retagged 90) :=
  (counters plainMemory.rb plainMemory.fieldCmp _ _ _ _ (retagged 90) (by decide +kernel)).mpr
    (by decide +kernel)

theorem counters_other_length :
    Runs.Along (stepCounters plainMemory.rb plainMemory.fieldCmp) (fun e op => op.Legal e)
      (.init (fun _ => true) (fun _ => false) (fun _ => { uid := 0, filename := [] }) [])
      (retagged 91) ∧
    ¬Runs.Throughout (stepCounters plainMemory.rb plainMemory.fieldCmp) Counted
      (.init (fun _ => true) (fun _ => false) (fun _ => { uid := 0, filename := [] }) [])
      (retagged 91) := by
  refine ⟨by decide +kernel, fun h => ?_⟩
  have htime := (h.run rfl).time
  revert htime
  decide +kernel

end GracefulMusic.Tracks
