import GracefulMusic.Library.LiveFilter
import GracefulMusic.Library.Views

/-! The current track of the library (`lib.c`).

`lib_cur_track` points to a track that is shown; whatever frees that track forgets it.
Filters that rebuild the views store its info (`cur_track_ti`) and look for the file
afterwards. Which track the commands go to is left to them: they take it out of the artist
tree, the shuffle list or the sorted list. Windows are left out, and so is what a job adds
behind `view_load`, which comes back as `lib_add_track`. -/
namespace GracefulMusic.Lib
open Tracks GracefulMusic.Expr

structure Session (P : Type) where
  lib : Library P
  /-- `lib_cur_track`. -/
  curTrack : Option P
  /-- `cur_track_ti`. -/
  curTrackTi : Option TrackInfo

namespace Session
variable {P : Type} [DecidableEq P] (cfg : Config P) (c : Session P)

/-! ### Removing -/

/-- `editable_remove_track`: `free_lib_track` forgets the current track with the track. -/
def removeTrack (track : P) : Option (Session P) :=
  (c.lib.removeTrack cfg track).map fun lib =>
    {c with lib, curTrack := if c.curTrack = some track then none else c.curTrack}

/-- `editable_remove_matching_tracks` on the library. -/
def removeMatchingTracks (cb : TrackInfo → Bool) : Option (Session P) :=
  c.lib.editable.head.foldlM
    (fun c t => if cb (c.lib.editable.info t) then c.removeTrack cfg t else some c) c

/-- `editable_clear` on the library. -/
def clear : Option (Session P) := c.removeMatchingTracks cfg fun _ => true

def libRemove (ti : TrackInfo) : Option (Session P) :=
  match c.lib.editable.head.find? fun t => c.lib.editable.info t = ti with
  | some track => c.removeTrack cfg track
  | none => some c

/-- The removals of the views: the selected track or the marked ones, an album, an artist. -/
def viewsRemove (tracks : List P) : Option (Session P) :=
  tracks.foldlM (fun c t => c.removeTrack cfg t) c

def viewClear : Option (Session P) :=
  (c.clear cfg).map fun c => {c with lib := c.lib.libClearStore}

/-- What `view_load` does before its job adds tracks. -/
def viewLoad : Option (Session P) := c.clear cfg

/-! ### The current track -/

/-- The track of the same file. -/
def libFindTrack (ti : TrackInfo) : Option P :=
  c.lib.editable.head.find? fun t => (c.lib.editable.info t).filename = ti.filename

def libStoreCurTrack (ti : TrackInfo) : Session P := {c with curTrackTi := some ti}

def restoreCurTrack (ti : TrackInfo) : Session P :=
  match c.libFindTrack ti with
  | some tt => {c with curTrack := some tt}
  | none => c

def libSetTrack (track : Option P) : Session P :=
  match track with
  | some track => {c with curTrack := some track}
  | none => c

/-- `lib_goto_next`, `lib_goto_prev` and those by albums, with the track they find; `none`
is their `BUG_ON`. -/
def libGoto (track : Option P) : Option (Session P) :=
  if c.lib.tree.isEmpty then (if c.curTrack.isSome then none else some c)
  else some (c.libSetTrack track)

/-- `tree_activate_selected`, which sets the pointer itself. -/
def treeActivateSelected (sel : Option P) : Session P := {c with curTrack := sel}

/-- What `resume_load` does with the library. -/
def resume (ti : TrackInfo) : Session P :=
  let c := {c with lib := c.lib.libAddTrack cfg ti}.libStoreCurTrack ti
  c.libSetTrack (c.libFindTrack ti)

/-! ### Filters -/

/-- Try to save the current track. -/
def storeCur : Session P :=
  match c.curTrack with
  | some track => c.libStoreCurTrack (c.lib.editable.info track)
  | none => c

def restoreCur : Session P :=
  match c.curTrackTi, c.curTrack with
  | some ti, none => c.restoreCurTrack ti
  | _, _ => c

def doLibFilter (clearBefore : Bool) : Option (Session P) :=
  let c := {c.storeCur with lib := {c.lib with removeFromHash := false}}
  let filtered :=
    if clearBefore then (c.clear cfg).map fun c => {c with lib := c.lib.hashAddToViews cfg}
    else c.removeMatchingTracks cfg (isFiltered cfg c.lib.inForce)
  filtered.map fun c => {c with lib := {c.lib with removeFromHash := true}}.restoreCur

def libSetFilter (expr : Option Expr) : Option (Session P) :=
  let clearBefore := c.lib.inForce.liveFilter.isSome || c.lib.inForce.filter.isSome
  doLibFilter cfg {c with lib := {c.lib with inForce := {c.lib.inForce with
    filter := expr, liveFilter := none, liveFilterExpr := none}}} clearBefore

def libSetLiveFilter (str : Option Text) : Option (Session P) :=
  if str = c.lib.inForce.liveFilter then some c
  else
    match Library.liveExpr cfg str with
    | none => some c
    | some expr =>
      doLibFilter cfg {c with lib := {c.lib with inForce := {c.lib.inForce with
        liveFilter := str, liveFilterExpr := expr}}} (Library.doClearBefore c.lib.inForce str expr)

/-- `tree_sort_artists`, which takes out and puts back one track after the other. -/
def libSortArtists : Session P :=
  {c with lib := {c.lib with
    tree := c.lib.tree.foldl (fun tree t => t :: tree.erase t) c.lib.tree}}

end Session

/-! ### Runs -/

/-- The operations, with the tracks that the commands on the views find. -/
inductive SessionOp (P : Type) where
  | addTrack (ti : TrackInfo)
  | remove (ti : TrackInfo)
  | viewsRemove (tracks : List P)
  | setFilter (expr : Option Expr)
  | setAddFilter (expr : Option Expr)
  | setLiveFilter (text : Option Text)
  | viewClear
  | viewLoad
  | setTrack (track : Option P)
  | goto (track : Option P)
  | activateSelected (sel : Option P)
  | resume (ti : TrackInfo)
  | sortArtists

variable {P : Type} [DecidableEq P]

def Session.step (cfg : Config P) (c : Session P) : SessionOp P → Option (Session P)
  | .addTrack ti => some {c with lib := c.lib.libAddTrack cfg ti}
  | .remove ti => c.libRemove cfg ti
  | .viewsRemove tracks => c.viewsRemove cfg tracks
  | .setFilter expr => c.libSetFilter cfg expr
  | .setAddFilter expr => some {c with lib := c.lib.libSetAddFilter expr}
  | .setLiveFilter text => c.libSetLiveFilter cfg text
  | .viewClear => c.viewClear cfg
  | .viewLoad => c.viewLoad cfg
  | .setTrack track => some (c.libSetTrack track)
  | .goto track => c.libGoto track
  | .activateSelected sel => some (c.treeActivateSelected sel)
  | .resume ti => some (c.resume cfg ti)
  | .sortArtists => some c.libSortArtists

/-- What the views find is in them: a selection in the sorted list, a track to go to in the
list of the function that looks for it. -/
def SessionOp.Legal (c : Session P) : SessionOp P → Prop
  | .viewsRemove tracks => tracks.Nodup ∧ ∀ t ∈ tracks, t ∈ c.lib.editable.head
  | .setTrack track => ∀ t ∈ track, t ∈ c.lib.editable.head
  | .goto track => ∀ t ∈ track, t ∈ c.lib.tree ∨ t ∈ c.lib.shuffle ∨ t ∈ c.lib.editable.head
  | .activateSelected sel => ∀ t ∈ sel, t ∈ c.lib.tree
  | _ => True

instance (c : Session P) (op : SessionOp P) : Decidable (op.Legal c) := by
  apply SessionOp.casesOn (motive := fun op => Decidable (op.Legal c)) op
  all_goals
    intros
    unfold SessionOp.Legal
    infer_instance

def Session.init (clear marked : P → Bool) (info : P → TrackInfo) (keys : List SortKey) :
    Session P :=
  ⟨.init clear marked info keys, none, none⟩

end GracefulMusic.Lib

/-! The store, the views and the current track fit together between operations.

The session refines the library: what it removes and filters is what the library removes
and filters. A removal forgets the current track with the track, and the files that are
looked for afterwards are found among those shown. -/
namespace GracefulMusic.Lib
open Tracks GracefulMusic.Expr

variable {P : Type} {c : Session P}

/-- The current track is null or shown. -/
def Session.Current (c : Session P) : Prop := ∀ t ∈ c.curTrack, t ∈ c.lib.editable.head

namespace Session

/-! ### Finding a track -/

theorem libSetTrack_lib (track : Option P) : (c.libSetTrack track).lib = c.lib := by
  cases track <;> rfl

theorem libSetTrack_current (hc : c.Current) {track : Option P}
    (htrack : ∀ t ∈ track, t ∈ c.lib.editable.head) : (c.libSetTrack track).Current := by
  cases track with
  | none => exact hc
  | some t =>
    intro u h
    cases h
    exact htrack t rfl

theorem libFindTrack_shown (ti : TrackInfo) : ∀ t ∈ c.libFindTrack ti, t ∈ c.lib.editable.head :=
  fun _ ht => List.mem_of_find?_eq_some ht

theorem storeCur_curTrack (c : Session P) : c.storeCur.curTrack = c.curTrack := by
  unfold storeCur
  split <;> rfl

theorem restoreCur_lib (c : Session P) : c.restoreCur.lib = c.lib := by
  unfold restoreCur
  split
  · unfold restoreCurTrack
    split <;> rfl
  · rfl

theorem restoreCur_current (hc : c.Current) : c.restoreCur.Current := by
  unfold restoreCur
  split
  · unfold restoreCurTrack
    split
    · rename_i tt htt
      intro u h
      cases h
      exact libFindTrack_shown _ tt htt
    · exact hc
  · exact hc

/-! ### Removing -/

variable [DecidableEq P] (cfg : Config P)

theorem removeTrack_current (h : Consistent c.lib) (hc : c.Current) {t : P}
    (ht : t ∈ c.lib.editable.head) :
    ∃ c', c.removeTrack cfg t = some c' ∧ c'.Current ∧ c.lib.removeTrack cfg t = some c'.lib := by
  obtain ⟨lib, hrun, -, -, hhead⟩ := removeTrack_consistent cfg h ht
  refine ⟨⟨lib, if c.curTrack = some t then none else c.curTrack, c.curTrackTi⟩,
    by rw [removeTrack, hrun, Option.map_some], fun u hu => ?_, hrun⟩
  have hkept : u ∈ (if c.curTrack = some t then none else c.curTrack) := hu
  show u ∈ lib.editable.head
  rw [hhead, h.once.of_map.mem_erase_iff]
  by_cases heq : c.curTrack = some t
  · rw [if_pos heq] at hkept
    cases hkept
  · rw [if_neg heq] at hkept
    refine ⟨?_, hc u hkept⟩
    intro heq
    subst heq
    exact heq hkept

/-- The walk removes from the library what it removes there. -/
theorem removeMatchingTracks_lib (c : Session P) (cb : TrackInfo → Bool) :
    (c.removeMatchingTracks cfg cb).map Session.lib = c.lib.removeMatchingTracks cfg cb := by
  unfold removeMatchingTracks Library.removeMatchingTracks
  generalize c.lib.editable.head = l
  induction l generalizing c with
  | nil => rfl
  | cons t l ih =>
    rw [List.foldlM_cons, List.foldlM_cons]
    by_cases hcb : cb (c.lib.editable.info t) = true
    · rw [if_pos hcb, if_pos hcb, removeTrack]
      cases c.lib.removeTrack cfg t with
      | none => rfl
      | some lib => exact ih _
    · rw [if_neg hcb, if_neg hcb]
      exact ih c

theorem removeMatchingTracks_current (h : Consistent c.lib) (hc : c.Current)
    (cb : TrackInfo → Bool) :
    ∃ c', c.removeMatchingTracks cfg cb = some c' ∧ c'.Current ∧
      c.lib.removeMatchingTracks cfg cb = some c'.lib := by
  obtain ⟨c', hrun, ⟨-, -, hc'⟩, -⟩ := Sequence.removal_walk
    (fun c : Session P => c.lib.editable.head)
    (fun c' => Consistent c'.lib ∧ c'.lib.editable.info = c.lib.editable.info ∧ c'.Current)
    (fun _ h => h.1.once.of_map)
    (fun c₁ t h₁ ht => by
      obtain ⟨h₁, hinfo, hc₁⟩ := h₁
      obtain ⟨c₂, hrun, hc₂, hlib⟩ := removeTrack_current cfg h₁ hc₁ ht
      obtain ⟨lib, hrun₁, h₂, hn, hhead⟩ := removeTrack_consistent cfg h₁ ht
      obtain rfl := Option.some.inj (hlib.symm.trans hrun₁)
      exact ⟨c₂, hrun, ⟨h₂, hn.info.trans hinfo, hc₂⟩, hhead⟩)
    (p := fun c t => cb (c.lib.editable.info t)) (q := fun t => cb (c.lib.editable.info t))
    (fun _ _ h => by rw [h.2.1]) ⟨h, rfl, hc⟩
  refine ⟨c', hrun, hc', ?_⟩
  have hrun : c.removeMatchingTracks cfg cb = some c' := hrun
  rw [← removeMatchingTracks_lib, hrun, Option.map_some]

/-- After a clear nothing is shown, so nothing is current. -/
theorem clear_spec (h : Consistent c.lib) (hc : c.Current) :
    ∃ c', c.clear cfg = some c' ∧ c.lib.clear cfg = some c'.lib ∧ Consistent c'.lib ∧
      c'.lib.editable.head = [] ∧ c'.curTrack = none ∧
      Narrowed c.lib c'.lib fun _ => true = true := by
  obtain ⟨c', hrun, hc', hlib⟩ := removeMatchingTracks_current cfg h hc fun _ => true
  obtain ⟨lib, hrun₁, h', hn⟩ := removeMatchingTracks_consistent cfg h fun _ => true
  obtain rfl := Option.some.inj (hlib.symm.trans hrun₁)
  have hhead : c'.lib.editable.head = [] := by
    refine List.eq_nil_iff_forall_not_mem.mpr fun t ht => ?_
    exact ((hn.shown _).mp (List.mem_map_of_mem ht)).2 rfl
  refine ⟨c', hrun, hlib, h', hhead, ?_, hn⟩
  refine Option.eq_none_iff_forall_not_mem.mpr fun t ht => ?_
  exact List.not_mem_nil (hhead ▸ hc' t ht)

/-! ### Filtering -/

theorem doLibFilter_current (h : Consistent c.lib) (hc : c.Current) (clearBefore : Bool) :
    ∃ c', c.doLibFilter cfg clearBefore = some c' ∧ c'.Current ∧
      c.lib.doLibFilter cfg clearBefore = some c'.lib := by
  have h₀ : Consistent {c.lib with removeFromHash := false} :=
    ⟨h.index, h.shuffle, h.tree, h.table, h.once, h.stored⟩
  have hc₀ : Current {c.storeCur with lib := {c.lib with removeFromHash := false}} := by
    intro t ht
    exact hc t (storeCur_curTrack c ▸ ht)
  have hfinish : ∀ c₁ : Session P, c₁.Current →
      Current {c₁ with lib := {c₁.lib with removeFromHash := true}}.restoreCur ∧
        {c₁ with lib := {c₁.lib with removeFromHash := true}}.restoreCur.lib =
          {c₁.lib with removeFromHash := true} := fun c₁ hc₁ =>
    ⟨restoreCur_current hc₁, restoreCur_lib _⟩
  cases clearBefore with
  | false =>
    obtain ⟨c₁, hrun, hc₁, hlib⟩ :=
      removeMatchingTracks_current cfg h₀ hc₀ (isFiltered cfg c.lib.inForce)
    obtain ⟨hc', hlib'⟩ := hfinish c₁ hc₁
    refine ⟨_, ?_, hc', ?_⟩
    · simp only [doLibFilter, Bool.false_eq_true, if_false, hrun, Option.map_some]
    · simp only [Library.doLibFilter, Bool.false_eq_true, if_false, hlib, Option.map_some, hlib']
  | true =>
    obtain ⟨c₁, hrun, hlib, -, -, hnone, -⟩ := clear_spec cfg h₀ hc₀
    have hc₁ : Current {c₁ with lib := c₁.lib.hashAddToViews cfg} := by
      intro t ht
      cases hnone.symm.trans ht
    obtain ⟨hc', hlib'⟩ := hfinish _ hc₁
    refine ⟨_, ?_, hc', ?_⟩
    · simp only [doLibFilter, if_true, hrun, Option.map_some]
    · simp only [Library.doLibFilter, if_true, hlib, Option.map_some, hlib']

/-! ### Steps -/

/-- What holds between operations. -/
structure Intact (c : Session P) : Prop where
  lib : Settled c.lib
  current : c.Current

theorem libSetFilter_intact (h : c.Intact) (expr : Option Expr) :
    ∃ c', c.libSetFilter cfg expr = some c' ∧ c'.Intact := by
  have h₁ : Consistent {c.lib with inForce := {c.lib.inForce with
      filter := expr, liveFilter := none, liveFilterExpr := none}} :=
    ⟨h.lib.index, h.lib.shuffle, h.lib.tree, h.lib.table, h.lib.once, h.lib.stored⟩
  obtain ⟨c', hrun, hc', hlib⟩ := doLibFilter_current (c := {c with lib := {c.lib with
    inForce := {c.lib.inForce with filter := expr, liveFilter := none, liveFilterExpr := none}}})
    cfg h₁ h.current (c.lib.inForce.liveFilter.isSome || c.lib.inForce.filter.isSome)
  obtain ⟨lib, hrun₁, h', -⟩ := libSetFilter_settled cfg h.lib expr
  obtain rfl := Option.some.inj (hlib.symm.trans hrun₁)
  exact ⟨c', hrun, h', hc'⟩

theorem libSetLiveFilter_intact (h : c.Intact) (text : Option Text) :
    ∃ c', c.libSetLiveFilter cfg text = some c' ∧ c'.Intact := by
  obtain ⟨lib, hrun₁, h', -⟩ := libSetLiveFilter_settled cfg h.lib text
  unfold libSetLiveFilter
  unfold Library.libSetLiveFilter at hrun₁
  by_cases hsame : text = c.lib.inForce.liveFilter
  · exact ⟨c, if_pos hsame, h⟩
  · rw [if_neg hsame] at hrun₁ ⊢
    cases hexpr : Library.liveExpr cfg text with
    | none => exact ⟨c, rfl, h⟩
    | some expr =>
      simp only [hexpr] at hrun₁ ⊢
      have h₁ : Consistent {c.lib with inForce := {c.lib.inForce with
          liveFilter := text, liveFilterExpr := expr}} :=
        ⟨h.lib.index, h.lib.shuffle, h.lib.tree, h.lib.table, h.lib.once, h.lib.stored⟩
      obtain ⟨c', hrun, hc', hlib⟩ := doLibFilter_current (c := {c with lib := {c.lib with
        inForce := {c.lib.inForce with liveFilter := text, liveFilterExpr := expr}}})
        cfg h₁ h.current (Library.doClearBefore c.lib.inForce text expr)
      obtain rfl := Option.some.inj (hlib.symm.trans hrun₁)
      exact ⟨c', hrun, h', hc'⟩

/-- A list that takes a track keeps those it has. -/
theorem libAddTrack_mono (h : Consistent c.lib) (ti : TrackInfo) {t : P}
    (ht : t ∈ c.lib.editable.head) : t ∈ (c.lib.libAddTrack cfg ti).editable.head := by
  have hadd := (h.index.add cfg.rb cfg.fieldCmp ti (cfg.malloc_fresh c.lib.editable.head)).2
  unfold Library.libAddTrack
  split
  · exact ht
  · split
    · exact ht
    · dsimp only
      split
      · exact ht
      · exact hadd.mem_iff.mpr (List.mem_cons_of_mem _ ht)

theorem libAddTrack_intact (h : c.Intact) (ti : TrackInfo) :
    Intact {c with lib := c.lib.libAddTrack cfg ti} :=
  ⟨(libAddTrack_settled cfg h.lib ti).1, fun t ht =>
    libAddTrack_mono cfg h.lib.toConsistent ti (h.current t ht)⟩

theorem removeTrack_intact (h : c.Intact) {t : P} (ht : t ∈ c.lib.editable.head) :
    ∃ c', c.removeTrack cfg t = some c' ∧ c'.Intact ∧
      c'.lib.editable.head = c.lib.editable.head.erase t := by
  obtain ⟨c', hrun, hc', hlib⟩ := removeTrack_current cfg h.lib.toConsistent h.current ht
  obtain ⟨lib, hrun₁, h', hn, hhead⟩ := removeTrack_consistent cfg h.lib.toConsistent ht
  obtain rfl := Option.some.inj (hlib.symm.trans hrun₁)
  exact ⟨c', hrun, ⟨hn.settled h' h.lib, hc'⟩, hhead⟩

theorem libRemove_intact (h : c.Intact) (ti : TrackInfo) :
    ∃ c', c.libRemove cfg ti = some c' ∧ c'.Intact := by
  unfold libRemove
  cases hfind : c.lib.editable.head.find? fun t => c.lib.editable.info t = ti with
  | none => exact ⟨c, rfl, h⟩
  | some t =>
    obtain ⟨c', hrun, h', -⟩ := removeTrack_intact cfg h (List.mem_of_find?_eq_some hfind)
    exact ⟨c', hrun, h'⟩

theorem viewsRemove_intact (h : c.Intact) {tracks : List P} (hnodup : tracks.Nodup)
    (hshown : ∀ t ∈ tracks, t ∈ c.lib.editable.head) :
    ∃ c', c.viewsRemove cfg tracks = some c' ∧ c'.Intact := by
  induction tracks generalizing c with
  | nil => exact ⟨c, rfl, h⟩
  | cons t tracks ih =>
    obtain ⟨ht, hnodup⟩ := List.nodup_cons.mp hnodup
    obtain ⟨c₁, hrun, h₁, hhead⟩ := removeTrack_intact cfg h (hshown t (.head _))
    obtain ⟨c', hrest, h'⟩ := ih h₁ hnodup fun u hu => by
      rw [hhead]
      refine (List.mem_erase_of_ne ?_).mpr (hshown u (.tail _ hu))
      intro heq
      subst heq
      exact ht hu
    exact ⟨c', by rw [viewsRemove, List.foldlM_cons, hrun]; exact hrest, h'⟩

theorem viewLoad_intact (h : c.Intact) : ∃ c', c.viewLoad cfg = some c' ∧ c'.Intact := by
  obtain ⟨c', hrun, -, h', -, hnone, hn⟩ := clear_spec cfg h.lib.toConsistent h.current
  refine ⟨c', hrun, hn.settled h' h.lib, fun t ht => ?_⟩
  cases hnone.symm.trans ht

theorem viewClear_intact (h : c.Intact) : ∃ c', c.viewClear cfg = some c' ∧ c'.Intact := by
  obtain ⟨c', hrun, -, h', hhead, hnone, hn⟩ := clear_spec cfg h.lib.toConsistent h.current
  refine ⟨{c' with lib := c'.lib.libClearStore}, by rw [viewClear, hrun, Option.map_some],
    libClearStore_settled (hn.settled h' h.lib) hhead, fun t ht => ?_⟩
  cases hnone.symm.trans ht

omit [DecidableEq P] in
/-- The `BUG_ON` would need a current track where none is shown. -/
theorem libGoto_intact (h : c.Intact) {track : Option P}
    (htrack : ∀ t ∈ track, t ∈ c.lib.tree ∨ t ∈ c.lib.shuffle ∨ t ∈ c.lib.editable.head) :
    ∃ c', c.libGoto track = some c' ∧ c'.Intact := by
  unfold libGoto
  split
  · rename_i hempty
    have htree : c.lib.tree = [] := List.isEmpty_iff.mp hempty
    have hhead : c.lib.editable.head = [] := (htree ▸ h.lib.tree).nil_eq.symm
    have hnone : c.curTrack = none := by
      refine Option.eq_none_iff_forall_not_mem.mpr fun t ht => ?_
      exact List.not_mem_nil (hhead ▸ h.current t ht)
    exact ⟨c, by rw [hnone]; rfl, h⟩
  · have hshown : ∀ t ∈ track, t ∈ c.lib.editable.head := by
      intro t ht
      rcases htrack t ht with htree | hshuffle | hhead
      · exact h.lib.tree.mem_iff.mp htree
      · exact h.lib.shuffle.mem_iff.mp hshuffle
      · exact hhead
    exact ⟨_, rfl, by rw [libSetTrack_lib]; exact h.lib, libSetTrack_current h.current hshown⟩

theorem resume_intact (h : c.Intact) (ti : TrackInfo) : (c.resume cfg ti).Intact := by
  have h₁ : Intact ({c with lib := c.lib.libAddTrack cfg ti}.libStoreCurTrack ti) :=
    ⟨(libAddTrack_intact cfg h ti).lib, (libAddTrack_intact cfg h ti).current⟩
  refine ⟨?_, libSetTrack_current h₁.current (libFindTrack_shown ti)⟩
  rw [resume, libSetTrack_lib]
  exact h₁.lib

/-- Each track is back in the tree before the next one is taken out. -/
theorem sortArtists_perm (l : List P) {tree : List P} (hl : ∀ t ∈ l, t ∈ tree) :
    (l.foldl (fun tree t => t :: tree.erase t) tree).Perm tree := by
  induction l generalizing tree with
  | nil => exact .refl _
  | cons t l ih =>
    have hperm : (t :: tree.erase t).Perm tree := (List.perm_cons_erase (hl t (.head _))).symm
    exact (ih fun u hu => hperm.mem_iff.mpr (hl u (.tail _ hu))).trans hperm

theorem libSortArtists_intact (h : c.Intact) : c.libSortArtists.Intact := by
  have hperm := sortArtists_perm c.lib.tree fun _ ht => ht
  exact ⟨⟨⟨h.lib.index, h.lib.shuffle, hperm.trans h.lib.tree, h.lib.table, h.lib.once,
    h.lib.stored⟩, h.lib.flag, h.lib.expr⟩, h.current⟩

theorem step_intact (h : c.Intact) {op : SessionOp P} (hlegal : op.Legal c) :
    ∃ c', Session.step cfg c op = some c' ∧ c'.Intact := by
  cases op with
  | addTrack ti => exact ⟨_, rfl, libAddTrack_intact cfg h ti⟩
  | remove ti => exact libRemove_intact cfg h ti
  | viewsRemove tracks => exact viewsRemove_intact cfg h hlegal.1 hlegal.2
  | setFilter expr => exact libSetFilter_intact cfg h expr
  | setAddFilter expr =>
    have hlib := h.lib
    exact ⟨_, rfl, ⟨⟨hlib.index, hlib.shuffle, hlib.tree, hlib.table, hlib.once, hlib.stored⟩,
      hlib.flag, hlib.expr⟩, h.current⟩
  | setLiveFilter text => exact libSetLiveFilter_intact cfg h text
  | viewClear => exact viewClear_intact cfg h
  | viewLoad => exact viewLoad_intact cfg h
  | setTrack track =>
    exact ⟨_, rfl, by rw [libSetTrack_lib]; exact h.lib, libSetTrack_current h.current hlegal⟩
  | goto track => exact libGoto_intact h hlegal
  | activateSelected sel =>
    exact ⟨_, rfl, h.lib, fun t ht => h.lib.tree.mem_iff.mp (hlegal t ht)⟩
  | resume ti => exact ⟨_, rfl, resume_intact cfg h ti⟩
  | sortArtists => exact ⟨_, rfl, libSortArtists_intact h⟩

/-! ### Runs -/

/-- The store, the list of the tracks and the current track fit together. -/
structure Coherent (c : Session P) : Prop where
  filenames : (c.lib.store.map TrackInfo.filename).Nodup
  own : c.lib.shown.Nodup
  stored : ∀ t ∈ c.lib.editable.head, c.lib.editable.info t ∈ c.lib.store
  current : ∀ t ∈ c.curTrack, t ∈ c.lib.editable.head

omit [DecidableEq P] in
theorem Intact.coherent (h : c.Intact) : c.Coherent where
  filenames := h.lib.table.nodup.map_on fun _ ha _ hb heq => h.lib.table.key_inj ha hb heq
  own := h.lib.once
  stored _ ht := h.lib.stored _ (List.mem_map_of_mem ht)
  current := h.current

end Session

def newSession : Session Nat :=
  .init (fun _ => false) (fun _ => false) (fun _ => { uid := 0, filename := [] }) []

end GracefulMusic.Lib
