import GracefulMusic.Library.LiveFilter
import GracefulMusic.Library.TreeChanges

/-! The library with its artist tree and its albums (`lib.c`).

A track that is shown is in the tree of `tree.c`, which calls back for the albums that come
and go: they are kept in `lib_album_shuffle_root`, here the list of what it holds. The
tracks to remove are those that a view selects. -/
namespace GracefulMusic.Lib
open Tracks GracefulMusic.Expr

structure Collection (P : Type) where
  lib : Library P
  tree : Tree P
  /-- `lib_album_shuffle_root`. -/
  albumShuffle : List P

namespace Collection
variable {P : Type} [DecidableEq P] (cfg : TreeConfig P) (c : Collection P)

/-- The tree reads the info that `simple_track_init` has written. -/
def viewsAddTrack (ti : TrackInfo) : Option (Collection P) := do
  let track := cfg.malloc c.lib.editable.head
  let added ← c.tree.treeAddTrack cfg (c.lib.editable.initTrack track ti).info track
  some ⟨c.lib.viewsAddTrack cfg.toConfig ti, added.1, added.2.toList ++ c.albumShuffle⟩

def libAddTrack (ti : TrackInfo) : Option (Collection P) :=
  if c.lib.inForce.addFilter.any fun e => !e.eval cfg.env ti then some c
  else
    match tiTable.insert c.lib.tiHash ti with
    | none => some c
    | some tiHash =>
      let c := {c with lib := {c.lib with tiHash}}
      if isFiltered cfg.toConfig c.lib.inForce ti then some c else c.viewsAddTrack cfg ti

/-- `editable_remove_track`, with `free_lib_track`. -/
def removeTrack (track : P) : Option (Collection P) := do
  let lib ← c.lib.removeTrack cfg.toConfig track
  let removed ← c.tree.treeRemove cfg track
  some ⟨lib, removed.1, removed.2.elim c.albumShuffle fun album => c.albumShuffle.erase album⟩

/-- `editable_remove_matching_tracks` on the library. -/
def removeMatchingTracks (cb : TrackInfo → Bool) : Option (Collection P) :=
  c.lib.editable.head.foldlM
    (fun c t => if cb (c.lib.editable.info t) then c.removeTrack cfg t else some c) c

/-- `editable_clear` on the library, which is also what `view_load` does first. -/
def clear : Option (Collection P) := c.removeMatchingTracks cfg fun _ => true

def viewClear : Option (Collection P) :=
  (c.clear cfg).map fun c => {c with lib := c.lib.libClearStore}

def libRemove (ti : TrackInfo) : Option (Collection P) :=
  match c.lib.editable.head.find? fun t => c.lib.editable.info t = ti with
  | some track => c.removeTrack cfg track
  | none => some c

/-- The removals of the views: the selected track or the marked ones, an album, an artist. -/
def viewsRemove (tracks : List P) : Option (Collection P) :=
  tracks.foldlM (fun c t => c.removeTrack cfg t) c

def hashAddToViews : Option (Collection P) :=
  c.lib.store.foldlM
    (fun c ti => if isFiltered cfg.toConfig c.lib.inForce ti then some c else c.viewsAddTrack cfg ti)
    c

def doLibFilter (clearBefore : Bool) : Option (Collection P) :=
  let c := {c with lib := {c.lib with removeFromHash := false}}
  let filtered :=
    if clearBefore then (c.clear cfg).bind fun c => c.hashAddToViews cfg
    else c.removeMatchingTracks cfg (isFiltered cfg.toConfig c.lib.inForce)
  filtered.map fun c => {c with lib := {c.lib with removeFromHash := true}}

def libSetFilter (expr : Option Expr) : Option (Collection P) :=
  let clearBefore := c.lib.inForce.liveFilter.isSome || c.lib.inForce.filter.isSome
  doLibFilter cfg {c with lib := {c.lib with inForce := {c.lib.inForce with
    filter := expr, liveFilter := none, liveFilterExpr := none}}} clearBefore

def libSetAddFilter (expr : Option Expr) : Collection P :=
  {c with lib := c.lib.libSetAddFilter expr}

def libSetLiveFilter (str : Option Text) : Option (Collection P) :=
  if str = c.lib.inForce.liveFilter then some c
  else
    match Library.liveExpr cfg.toConfig str with
    | none => some c
    | some expr =>
      doLibFilter cfg {c with lib := {c.lib with inForce := {c.lib.inForce with
        liveFilter := str, liveFilterExpr := expr}}} (Library.doClearBefore c.lib.inForce str expr)

end Collection

/-! ### Runs -/

inductive CollectionOp (P : Type) where
  | addTrack (ti : TrackInfo)
  | remove (ti : TrackInfo)
  | viewsRemove (tracks : List P)
  | viewClear
  | viewLoad
  | setFilter (expr : Option Expr)
  | setAddFilter (expr : Option Expr)
  | setLiveFilter (text : Option Text)

variable {P : Type} [DecidableEq P]

def Collection.step (cfg : TreeConfig P) (c : Collection P) :
    CollectionOp P → Option (Collection P)
  | .addTrack ti => c.libAddTrack cfg ti
  | .remove ti => c.libRemove cfg ti
  | .viewsRemove tracks => c.viewsRemove cfg tracks
  | .viewClear => c.viewClear cfg
  | .viewLoad => c.clear cfg
  | .setFilter expr => c.libSetFilter cfg expr
  | .setAddFilter expr => some (c.libSetAddFilter expr)
  | .setLiveFilter text => c.libSetLiveFilter cfg text

/-- A view selects tracks that are shown, each once. -/
def CollectionOp.Legal (c : Collection P) : CollectionOp P → Prop
  | .viewsRemove tracks => tracks.Nodup ∧ ∀ t ∈ tracks, t ∈ c.lib.editable.head
  | _ => True

instance CollectionOp.Legal.decidable (c : Collection P) (op : CollectionOp P) :
    Decidable (op.Legal c) := by
  apply CollectionOp.casesOn (motive := fun op => Decidable (op.Legal c)) op
  all_goals
    intros
    unfold CollectionOp.Legal
    infer_instance

/-- `lib_init`, with whatever is in memory. -/
def Collection.init (clear marked : P → Bool) (info : P → TrackInfo) (keys : List SortKey)
    (memory : Tree P) : Collection P :=
  ⟨.init clear marked info keys, {memory with libArtistRoot := .leaf}, []⟩

end GracefulMusic.Lib

/-! The views, the tree and the album list of the library show the same tracks.

Whatever the library does to its tracks, it adds them and removes them one by one, and
both change all of them alike. The tree never loses an album to a change of its date: an
addition may bring one, and a removal takes the one whose last track it was. -/
namespace GracefulMusic.Lib
open Tracks GracefulMusic.Expr

variable {P : Type} [DecidableEq P] {cfg : TreeConfig P} {c : Collection P}

namespace Collection

/-- The tree and the album list hold what is shown. -/
structure InTrees (cfg : TreeConfig P) (c : Collection P) : Prop where
  linked : Tree.Linked cfg c.tree
  full : c.tree.Full
  tracks : c.tree.allTracks.Perm c.lib.editable.head
  albums : c.albumShuffle.Perm c.tree.allAlbums

/-! ### Adding -/

theorem viewsAddTrack_spec (h : Linked c.lib.editable) (htrees : InTrees cfg c) (ti : TrackInfo) :
    ∃ c', c.viewsAddTrack cfg ti = some c' ∧ Linked c'.lib.editable ∧ InTrees cfg c' ∧
      c'.lib = c.lib.viewsAddTrack cfg.toConfig ti ∧
      ∃ new : Option P, c'.tree.allAlbums.Perm (new.toList ++ c.tree.allAlbums) := by
  have hfresh := cfg.malloc_fresh c.lib.editable.head
  obtain ⟨hindex, hhead⟩ := h.add cfg.rb cfg.fieldCmp ti hfresh
  obtain ⟨tree, new, hrun, hadded⟩ := Tree.treeAddTrack_spec htrees.linked htrees.full
    (c.lib.editable.initTrack (cfg.malloc c.lib.editable.head) ti).info
    (fun ht => hfresh (htrees.tracks.mem_iff.mp ht))
  refine ⟨⟨c.lib.viewsAddTrack cfg.toConfig ti, tree, new.toList ++ c.albumShuffle⟩, ?_, hindex,
    ⟨hadded.linked, hadded.full, ?_, ?_⟩, rfl, new, hadded.albums⟩
  · rw [viewsAddTrack]
    simp only [hrun, Option.bind_eq_bind, Option.bind_some]
  · exact hadded.tracks.trans ((htrees.tracks.cons _).trans hhead.symm)
  · exact (htrees.albums.append_left _).trans hadded.albums.symm

theorem libAddTrack_spec (h : Linked c.lib.editable) (htrees : InTrees cfg c) (ti : TrackInfo) :
    ∃ c', c.libAddTrack cfg ti = some c' ∧ InTrees cfg c' ∧
      c'.lib = c.lib.libAddTrack cfg.toConfig ti ∧
      ∃ new : Option P, c'.tree.allAlbums.Perm (new.toList ++ c.tree.allAlbums) := by
  unfold libAddTrack Library.libAddTrack
  by_cases hadd : (c.lib.inForce.addFilter.any fun e => !e.eval cfg.env ti) = true
  · rw [if_pos hadd, if_pos hadd]
    exact ⟨c, rfl, htrees, rfl, none, .refl _⟩
  · rw [if_neg hadd, if_neg hadd]
    cases hins : tiTable.insert c.lib.tiHash ti with
    | none => exact ⟨c, rfl, htrees, rfl, none, .refl _⟩
    | some tiHash =>
      dsimp only
      by_cases hf : isFiltered cfg.toConfig c.lib.inForce ti = true
      · rw [if_pos hf, if_pos hf]
        exact ⟨_, rfl, ⟨htrees.linked, htrees.full, htrees.tracks, htrees.albums⟩, rfl, none,
          .refl _⟩
      · rw [if_neg hf, if_neg hf]
        obtain ⟨c', hrun, -, htrees', hlib, hnew⟩ := viewsAddTrack_spec
          (c := {c with lib := {c.lib with tiHash}}) h
          ⟨htrees.linked, htrees.full, htrees.tracks, htrees.albums⟩ ti
        exact ⟨c', hrun, htrees', hlib, hnew⟩

/-- The walk of `hash_add_to_views`. -/
theorem addAll_spec (l : List TrackInfo) (h : Linked c.lib.editable) (htrees : InTrees cfg c) :
    ∃ c', l.foldlM (fun c ti =>
        if isFiltered cfg.toConfig c.lib.inForce ti then some c else c.viewsAddTrack cfg ti) c =
        some c' ∧ InTrees cfg c' ∧
      c'.lib = l.foldl (fun lib ti =>
        if isFiltered cfg.toConfig lib.inForce ti then lib
        else lib.viewsAddTrack cfg.toConfig ti) c.lib := by
  induction l generalizing c with
  | nil => exact ⟨c, rfl, htrees, rfl⟩
  | cons ti l ih =>
    rw [List.foldlM_cons, List.foldl_cons]
    by_cases hf : isFiltered cfg.toConfig c.lib.inForce ti = true
    · rw [if_pos hf, if_pos hf]
      exact ih h htrees
    · rw [if_neg hf, if_neg hf]
      obtain ⟨c₁, hrun, h₁, htrees₁, hlib, -⟩ := viewsAddTrack_spec h htrees ti
      rw [hrun, ← hlib]
      exact ih h₁ htrees₁

/-! ### Removing -/

theorem removeTrack_spec (h : Consistent c.lib) (htrees : InTrees cfg c) {t : P}
    (ht : t ∈ c.lib.editable.head) :
    ∃ c', c.removeTrack cfg t = some c' ∧ InTrees cfg c' ∧
      c.lib.removeTrack cfg.toConfig t = some c'.lib ∧
      ∃ gone : Option P, c.tree.allAlbums.Perm (gone.toList ++ c'.tree.allAlbums) ∧
        ∀ p ∈ gone, c.tree.tracks p = [t] := by
  obtain ⟨lib, hlib, -, -, hhead⟩ := removeTrack_consistent cfg.toConfig h ht
  have hin : t ∈ c.tree.allTracks := htrees.tracks.mem_iff.mpr ht
  obtain ⟨tree, gone, hrun, hremoved⟩ := Tree.treeRemove_spec htrees.linked htrees.full hin
  refine ⟨⟨lib, tree, gone.elim c.albumShuffle fun album => c.albumShuffle.erase album⟩, ?_,
    ⟨hremoved.linked, hremoved.full, ?_, ?_⟩, hlib, gone, hremoved.albums, hremoved.last⟩
  · rw [removeTrack, hlib]
    simp only [Option.bind_eq_bind, Option.bind_some, hrun]
  · show tree.allTracks.Perm lib.editable.head
    rw [hhead]
    have hperm := (hremoved.tracks.symm.trans htrees.tracks).erase t
    rwa [List.erase_cons_head] at hperm
  · have halbums := htrees.albums.trans hremoved.albums
    cases gone with
    | none => exact halbums
    | some album =>
      have hperm := halbums.erase album
      rwa [Option.toList_some, List.singleton_append, List.erase_cons_head] at hperm

/-- The walk removes from the library what it removes there. -/
theorem removeMatchingTracks_lib (c : Collection P) (cb : TrackInfo → Bool) {c' : Collection P}
    (hrun : c.removeMatchingTracks cfg cb = some c') :
    c.lib.removeMatchingTracks cfg.toConfig cb = some c'.lib := by
  unfold removeMatchingTracks at hrun
  unfold Library.removeMatchingTracks
  generalize c.lib.editable.head = l at hrun ⊢
  induction l generalizing c with
  | nil =>
    cases hrun
    rfl
  | cons t l ih =>
    rw [List.foldlM_cons] at hrun ⊢
    obtain ⟨c₁, hstep, hrest⟩ := Option.bind_eq_some_iff.mp hrun
    by_cases hcb : cb (c.lib.editable.info t) = true
    · rw [if_pos hcb] at hstep ⊢
      obtain ⟨lib, hlib, hstep⟩ := Option.bind_eq_some_iff.mp hstep
      obtain ⟨removed, -, hstep⟩ := Option.bind_eq_some_iff.mp hstep
      cases hstep
      rw [hlib]
      exact ih _ hrest
    · rw [if_neg hcb] at hstep ⊢
      cases hstep
      exact ih c hrest

theorem removeMatchingTracks_spec (h : Consistent c.lib) (htrees : InTrees cfg c)
    (cb : TrackInfo → Bool) :
    ∃ c', c.removeMatchingTracks cfg cb = some c' ∧ InTrees cfg c' ∧
      c.lib.removeMatchingTracks cfg.toConfig cb = some c'.lib := by
  obtain ⟨c', hrun, ⟨-, -, htrees'⟩, -⟩ := Sequence.removal_walk
    (fun c : Collection P => c.lib.editable.head)
    (fun c' => Consistent c'.lib ∧ c'.lib.editable.info = c.lib.editable.info ∧ InTrees cfg c')
    (fun _ h => h.1.once.of_map)
    (fun c₁ t h₁ ht => by
      obtain ⟨h₁, hinfo, htrees₁⟩ := h₁
      obtain ⟨c₂, hrun, htrees₂, hlib, -⟩ := removeTrack_spec h₁ htrees₁ ht
      obtain ⟨lib, hrun₁, h₂, hn, hhead⟩ := removeTrack_consistent cfg.toConfig h₁ ht
      obtain rfl := Option.some.inj (hlib.symm.trans hrun₁)
      exact ⟨c₂, hrun, ⟨h₂, hn.info.trans hinfo, htrees₂⟩, hhead⟩)
    (p := fun c t => cb (c.lib.editable.info t)) (q := fun t => cb (c.lib.editable.info t))
    (fun _ _ h => by rw [h.2.1]) ⟨h, rfl, htrees⟩
  exact ⟨c', hrun, htrees', removeMatchingTracks_lib c cb hrun⟩

/-! ### Filtering -/

theorem doLibFilter_spec (h : Consistent c.lib) (htrees : InTrees cfg c) (clearBefore : Bool) :
    ∃ c', c.doLibFilter cfg clearBefore = some c' ∧ InTrees cfg c' ∧
      c.lib.doLibFilter cfg.toConfig clearBefore = some c'.lib := by
  have h₀ : Consistent {c.lib with removeFromHash := false} :=
    ⟨h.index, h.shuffle, h.tree, h.table, h.once, h.stored⟩
  have htrees₀ : InTrees cfg {c with lib := {c.lib with removeFromHash := false}} :=
    ⟨htrees.linked, htrees.full, htrees.tracks, htrees.albums⟩
  cases clearBefore with
  | false =>
    obtain ⟨c₁, hrun, htrees₁, hlib⟩ :=
      removeMatchingTracks_spec h₀ htrees₀ (isFiltered cfg.toConfig c.lib.inForce)
    refine ⟨{c₁ with lib := {c₁.lib with removeFromHash := true}}, ?_,
      ⟨htrees₁.linked, htrees₁.full, htrees₁.tracks, htrees₁.albums⟩, ?_⟩
    · simp only [doLibFilter, Bool.false_eq_true, if_false, hrun, Option.map_some]
    · simp only [Library.doLibFilter, Bool.false_eq_true, if_false, hlib, Option.map_some]
  | true =>
    obtain ⟨c₁, hrun, htrees₁, hlib⟩ := removeMatchingTracks_spec h₀ htrees₀ fun _ => true
    obtain ⟨lib, hrun₁, h₁, -⟩ := removeMatchingTracks_consistent cfg.toConfig h₀ fun _ => true
    obtain rfl := Option.some.inj (hlib.symm.trans hrun₁)
    obtain ⟨c₂, hadd, htrees₂, hlib₂⟩ := addAll_spec c₁.lib.store h₁.index htrees₁
    have hclear : clear cfg {c with lib := {c.lib with removeFromHash := false}} = some c₁ := hrun
    have hclear₁ : Library.clear cfg.toConfig {c.lib with removeFromHash := false} =
        some c₁.lib := hlib
    have hadd : c₁.hashAddToViews cfg = some c₂ := hadd
    have hadd₁ : c₂.lib = c₁.lib.hashAddToViews cfg.toConfig := hlib₂
    refine ⟨{c₂ with lib := {c₂.lib with removeFromHash := true}}, ?_,
      ⟨htrees₂.linked, htrees₂.full, htrees₂.tracks, htrees₂.albums⟩, ?_⟩
    · simp only [doLibFilter, if_true, hclear, Option.bind_some, hadd, Option.map_some]
    · simp only [Library.doLibFilter, if_true, hclear₁, Option.map_some, hadd₁]

/-! ### Steps -/

/-- What holds between operations. -/
structure Whole (cfg : TreeConfig P) (c : Collection P) : Prop where
  lib : Settled c.lib
  trees : InTrees cfg c

theorem libAddTrack_whole (h : c.Whole cfg) (ti : TrackInfo) :
    ∃ c', c.libAddTrack cfg ti = some c' ∧ c'.Whole cfg := by
  obtain ⟨c', hrun, htrees, hlib, -⟩ := libAddTrack_spec h.lib.index h.trees ti
  have hsettled : Settled c'.lib := by
    rw [hlib]
    exact (libAddTrack_settled cfg.toConfig h.lib ti).1
  exact ⟨c', hrun, hsettled, htrees⟩

theorem removeTrack_whole (h : c.Whole cfg) {t : P} (ht : t ∈ c.lib.editable.head) :
    ∃ c', c.removeTrack cfg t = some c' ∧ c'.Whole cfg ∧
      c'.lib.editable.head = c.lib.editable.head.erase t := by
  obtain ⟨c', hrun, htrees, hlib, -⟩ := removeTrack_spec h.lib.toConsistent h.trees ht
  obtain ⟨lib, hrun₁, h', hn, hhead⟩ :=
    removeTrack_consistent cfg.toConfig h.lib.toConsistent ht
  obtain rfl := Option.some.inj (hlib.symm.trans hrun₁)
  exact ⟨c', hrun, ⟨hn.settled h' h.lib, htrees⟩, hhead⟩

theorem libRemove_whole (h : c.Whole cfg) (ti : TrackInfo) :
    ∃ c', c.libRemove cfg ti = some c' ∧ c'.Whole cfg := by
  unfold libRemove
  cases hfind : c.lib.editable.head.find? fun t => c.lib.editable.info t = ti with
  | none => exact ⟨c, rfl, h⟩
  | some t =>
    obtain ⟨c', hrun, h', -⟩ := removeTrack_whole h (List.mem_of_find?_eq_some hfind)
    exact ⟨c', hrun, h'⟩

theorem viewsRemove_whole (h : c.Whole cfg) {tracks : List P} (hnodup : tracks.Nodup)
    (hshown : ∀ t ∈ tracks, t ∈ c.lib.editable.head) :
    ∃ c', c.viewsRemove cfg tracks = some c' ∧ c'.Whole cfg := by
  induction tracks generalizing c with
  | nil => exact ⟨c, rfl, h⟩
  | cons t tracks ih =>
    obtain ⟨ht, hnodup⟩ := List.nodup_cons.mp hnodup
    obtain ⟨c₁, hrun, h₁, hhead⟩ := removeTrack_whole h (hshown t (.head _))
    obtain ⟨c', hrest, h'⟩ := ih h₁ hnodup fun u hu => by
      rw [hhead]
      refine (List.mem_erase_of_ne ?_).mpr (hshown u (.tail _ hu))
      intro heq
      subst heq
      exact ht hu
    exact ⟨c', by rw [viewsRemove, List.foldlM_cons, hrun]; exact hrest, h'⟩

theorem clear_whole (h : c.Whole cfg) :
    ∃ c', c.clear cfg = some c' ∧ c'.Whole cfg ∧ c'.lib.editable.head = [] := by
  obtain ⟨c', hrun, htrees, hlib⟩ :=
    removeMatchingTracks_spec h.lib.toConsistent h.trees fun _ => true
  obtain ⟨lib, hrun₁, h', hn⟩ :=
    removeMatchingTracks_consistent cfg.toConfig h.lib.toConsistent fun _ => true
  obtain rfl := Option.some.inj (hlib.symm.trans hrun₁)
  refine ⟨c', hrun, ⟨hn.settled h' h.lib, htrees⟩, ?_⟩
  refine List.eq_nil_iff_forall_not_mem.mpr fun t ht => ?_
  exact ((hn.shown _).mp (List.mem_map_of_mem ht)).2 rfl

/-- Nothing is shown when the store goes. -/
theorem viewClear_whole (h : c.Whole cfg) :
    ∃ c', c.viewClear cfg = some c' ∧ c'.Whole cfg := by
  obtain ⟨c', hrun, h', hhead⟩ := clear_whole h
  exact ⟨{c' with lib := c'.lib.libClearStore}, by rw [viewClear, hrun, Option.map_some],
    libClearStore_settled h'.lib hhead,
    h'.trees.linked, h'.trees.full, h'.trees.tracks, h'.trees.albums⟩

theorem libSetFilter_whole (h : c.Whole cfg) (expr : Option Expr) :
    ∃ c', c.libSetFilter cfg expr = some c' ∧ c'.Whole cfg := by
  have hlib := h.lib
  obtain ⟨c', hrun, htrees, hfilter⟩ := doLibFilter_spec (c := {c with lib := {c.lib with
    inForce := {c.lib.inForce with filter := expr, liveFilter := none, liveFilterExpr := none}}})
    ⟨hlib.index, hlib.shuffle, hlib.tree, hlib.table, hlib.once, hlib.stored⟩
    ⟨h.trees.linked, h.trees.full, h.trees.tracks, h.trees.albums⟩
    (c.lib.inForce.liveFilter.isSome || c.lib.inForce.filter.isSome)
  obtain ⟨lib, hrun₁, h', -⟩ := libSetFilter_settled cfg.toConfig hlib expr
  obtain rfl := Option.some.inj (hfilter.symm.trans hrun₁)
  exact ⟨c', hrun, h', htrees⟩

theorem libSetLiveFilter_whole (h : c.Whole cfg) (text : Option Text) :
    ∃ c', c.libSetLiveFilter cfg text = some c' ∧ c'.Whole cfg := by
  have hlib := h.lib
  obtain ⟨lib, hrun₁, h', -⟩ := libSetLiveFilter_settled cfg.toConfig hlib text
  unfold libSetLiveFilter
  unfold Library.libSetLiveFilter at hrun₁
  by_cases hsame : text = c.lib.inForce.liveFilter
  · exact ⟨c, if_pos hsame, h⟩
  · rw [if_neg hsame] at hrun₁ ⊢
    cases hexpr : Library.liveExpr cfg.toConfig text with
    | none => exact ⟨c, rfl, h⟩
    | some expr =>
      simp only [hexpr] at hrun₁ ⊢
      obtain ⟨c', hrun, htrees, hfilter⟩ := doLibFilter_spec (c := {c with
        lib := {c.lib with inForce := {c.lib.inForce with
          liveFilter := text, liveFilterExpr := expr}}})
        ⟨hlib.index, hlib.shuffle, hlib.tree, hlib.table, hlib.once, hlib.stored⟩
        ⟨h.trees.linked, h.trees.full, h.trees.tracks, h.trees.albums⟩
        (Library.doClearBefore c.lib.inForce text expr)
      obtain rfl := Option.some.inj (hfilter.symm.trans hrun₁)
      exact ⟨c', hrun, h', htrees⟩

theorem step_whole (h : c.Whole cfg) {op : CollectionOp P} (hlegal : op.Legal c) :
    ∃ c', Collection.step cfg c op = some c' ∧ c'.Whole cfg := by
  cases op with
  | addTrack ti => exact libAddTrack_whole h ti
  | remove ti => exact libRemove_whole h ti
  | viewsRemove tracks => exact viewsRemove_whole h hlegal.1 hlegal.2
  | viewClear => exact viewClear_whole h
  | viewLoad =>
    obtain ⟨c', hrun, h', -⟩ := clear_whole h
    exact ⟨c', hrun, h'⟩
  | setFilter expr => exact libSetFilter_whole h expr
  | setAddFilter expr =>
    have hlib := h.lib
    exact ⟨_, rfl, ⟨⟨hlib.index, hlib.shuffle, hlib.tree, hlib.table, hlib.once, hlib.stored⟩,
      hlib.flag, hlib.expr⟩, h.trees.linked, h.trees.full, h.trees.tracks, h.trees.albums⟩
  | setLiveFilter text => exact libSetLiveFilter_whole h text

theorem init_whole (clear marked : P → Bool) (info : P → TrackInfo) (keys : List SortKey)
    (memory : Tree P) : (Collection.init clear marked info keys memory).Whole cfg := by
  refine ⟨init_settled clear marked info keys, ⟨.nil, ?_, ?_, ⟨?_, ?_⟩, ⟨?_, ?_⟩⟩, ⟨?_, ?_⟩,
    .refl _, .refl _⟩
  all_goals
    intro p hp
    cases hp

/-! ### Runs -/

/-- The list, the shuffle list, the tree and the album list, put together. -/
structure Shaped (cfg : TreeConfig P) (c : Collection P) : Prop where
  shown : c.lib.editable.head.Nodup
  shuffle : c.lib.shuffle.Perm c.lib.editable.head
  tracks : c.tree.allTracks.Perm c.lib.editable.head
  track : ∀ t ∈ c.lib.editable.head, ∃! p, p ∈ c.tree.allAlbums ∧ t ∈ c.tree.tracks p
  albums : c.tree.allAlbums.Nodup
  albumShuffle : c.albumShuffle.Perm c.tree.allAlbums
  album : ∀ p ∈ c.tree.allAlbums, (c.tree.album p).artist ∈ c.tree.artists ∧
    p ∈ c.tree.albums (c.tree.album p).artist
  full : c.tree.Full
  artistOrder : c.tree.artists.Pairwise fun a b =>
    Tree.artistCmp cfg (c.tree.artist a) (c.tree.artist b) < 0
  albumOrder : ∀ a ∈ c.tree.artists, (c.tree.albums a).Pairwise fun p q =>
    Tree.albumCmp (c.tree.artist a) (c.tree.album p) (c.tree.album q) < 0

/-- Adding a track brings at most an album, whatever dates it writes; removing one takes at
most an album, which has no other track. -/
structure KeepsAlbums (cfg : TreeConfig P) (c : Collection P) : Prop where
  adding : ∀ ti, ∃ c' new, c.libAddTrack cfg ti = some c' ∧
    c'.tree.allAlbums.Perm (Option.toList new ++ c.tree.allAlbums)
  removing : ∀ t ∈ c.lib.editable.head, ∃ c' gone, c.removeTrack cfg t = some c' ∧
    c.tree.allAlbums.Perm (Option.toList gone ++ c'.tree.allAlbums) ∧
    ∀ p ∈ gone, c.tree.tracks p = [t]

theorem Whole.shaped (h : c.Whole cfg) : c.Shaped cfg where
  shown := h.lib.once.of_map
  shuffle := h.lib.shuffle
  tracks := h.trees.tracks
  track _ ht := h.trees.linked.trackRows.existsUnique (h.trees.tracks.mem_iff.mpr ht)
  albums := h.trees.linked.albums_nodup
  albumShuffle := h.trees.albums
  album _ hp := h.trees.linked.artist_mem hp
  full := h.trees.full
  artistOrder := h.trees.linked.artists
  albumOrder := h.trees.linked.albums

theorem Whole.keepsAlbums (h : c.Whole cfg) : c.KeepsAlbums cfg := by
  refine ⟨fun ti => ?_, fun t ht => ?_⟩
  · obtain ⟨c', hrun, -, -, new, hnew⟩ := libAddTrack_spec h.lib.index h.trees ti
    exact ⟨c', new, hrun, hnew⟩
  · obtain ⟨c', hrun, -, -, gone, hgone, hlast⟩ :=
      removeTrack_spec h.lib.toConsistent h.trees ht
    exact ⟨c', gone, hrun, hgone, hlast⟩

end Collection

/-- **The library tree**, after every operation of every run: a track that is shown is once
in the list, in the shuffle list and in the tree of one album; albums have tracks and artists
have albums; artists and albums are in strict order. And none of the operations fails. -/
theorem lib_tree_structure {P : Type} [DecidableEq P] (cfg : TreeConfig P)
    (clear marked : P → Bool) (info : P → TrackInfo) (keys : List SortKey) (memory : Tree P)
    (ops : List (CollectionOp P))
    (hlegal : Runs.Along (Collection.step cfg) (fun c op => op.Legal c)
      (Collection.init clear marked info keys memory) ops) :
    Runs.Always (Collection.step cfg) (fun c => c.Shaped cfg ∧ c.KeepsAlbums cfg)
      (Collection.init clear marked info keys memory) ops := by
  have hstep : ∀ (c : Collection P) (op : CollectionOp P), c.Whole cfg → op.Legal c →
      ∃ c', Collection.step cfg c op = some c' ∧ c'.Whole cfg := fun _ _ h hop =>
    Collection.step_whole h hop
  have hinit : (Collection.init clear marked info keys memory).Whole cfg :=
    Collection.init_whole clear marked info keys memory
  exact (Runs.always_of_along hstep hinit hlegal).mono fun _ h => ⟨h.shaped, h.keepsAlbums⟩

/-- A locale that compares bytes. -/
def plainTreeConfig : TreeConfig Nat where
  toConfig := plainConfig
  uStrcasecollKey text := ⟨text.filter (· ≠ 0), by simp⟩
  smartArtistSort := true

def newCollection : Collection Nat :=
  .init (fun _ => false) (fun _ => false) (fun _ => { uid := 0, filename := [] }) []
    ⟨.leaf, fun _ => Tree.artistNew plainTreeConfig [] none false,
      fun _ => Tree.albumNew plainTreeConfig 0 [] none 0, fun _ => 0⟩

/-- Tracks of a band, on an album of a year. -/
def bandTrack (filename album : String) (date : Int) : TrackInfo :=
  { uid := 0, filename := ascii filename, albumartist := some (ascii "The Band"),
    album := some (ascii album), date }

/-- The first album comes to be the later one, all is hidden and shown again, and one album
goes with its last track. -/
theorem lib_tree_structure_dates :
    Runs.Always (Collection.step plainTreeConfig)
      (fun c => c.Shaped plainTreeConfig ∧ c.KeepsAlbums plainTreeConfig) newCollection
      [.addTrack (bandTrack "/1" "One" 1990), .addTrack (bandTrack "/2" "Two" 1995),
        .addTrack (bandTrack "/3" "One" 2000), .setLiveFilter (some (ascii "~n2")),
        .setLiveFilter none, .viewsRemove [2], .remove (bandTrack "/1" "One" 1990),
        .viewClear] :=
  lib_tree_structure plainTreeConfig _ _ _ [] _ _ (by decide +kernel)

end GracefulMusic.Lib
