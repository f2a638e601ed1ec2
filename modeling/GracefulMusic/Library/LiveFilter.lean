import GracefulMusic.Foundation.Runs
import GracefulMusic.Library.Consistency

/-! What the library shows against what its filters let through.

A live filter that is typed on narrows the view without looking at the store again. That
is right only if no track can come back, and the test for it (the old text within the
new, a harmless expression) does not see to that. -/
namespace GracefulMusic.Lib
open Tracks GracefulMusic.Expr

variable {P : Type} [DecidableEq P] (cfg : Config P) {lib : Library P}

/-- The library shows the tracks of the store that the filters do not reject, each once. -/
def ShowsStore (cfg : Config P) (lib : Library P) : Prop :=
  lib.shown.Nodup ∧
    ∀ ti, ti ∈ lib.shown ↔ ti ∈ lib.store ∧ isFiltered cfg lib.inForce ti = false

/-- Where a new live filter is applied to the tracks that are shown, it lets no track of
the store through that was rejected before. -/
def Op.OnlyNarrows (cfg : Config P) (lib : Library P) : Op → Prop
  | .setLiveFilter text =>
    text ≠ lib.inForce.liveFilter → ∀ expr, Library.liveExpr cfg text = some expr →
      Library.doClearBefore lib.inForce text expr = false →
      ∀ ti ∈ lib.store,
        isFiltered cfg {lib.inForce with liveFilter := text, liveFilterExpr := expr} ti = false →
        isFiltered cfg lib.inForce ti = false
  | _ => True

/-! ### Steps -/

/-- Between the operations. -/
structure Settled (lib : Library P) : Prop extends Consistent lib where
  flag : lib.removeFromHash = true
  expr : lib.inForce.liveFilter = none → lib.inForce.liveFilterExpr = none

omit [DecidableEq P] in
/-- Removals leave the filters and the flag alone. -/
theorem Narrowed.settled {lib' : Library P} {gone : TrackInfo → Prop} (hn : Narrowed lib lib' gone)
    (h' : Consistent lib') (h : Settled lib) : Settled lib' := by
  have hexpr : lib'.inForce.liveFilter = none → lib'.inForce.liveFilterExpr = none := by
    rw [hn.inForce]
    exact h.expr
  exact ⟨h', hn.flag.trans h.flag, hexpr⟩

omit [DecidableEq P] in
/-- Nothing is shown when the store goes. -/
theorem libClearStore_settled (h : Settled lib) (hhead : lib.editable.head = []) :
    Settled lib.libClearStore := by
  have hshown : lib.shown = [] := by rw [Library.shown, hhead, List.map_nil]
  refine ⟨⟨h.index, h.shuffle, h.tree, HashTable.wellFormed_empty, h.once, fun ti hti => ?_⟩,
    h.flag, h.expr⟩
  have hti : ti ∈ lib.shown := hti
  rw [hshown] at hti
  cases hti

theorem libAddTrack_settled (h : Settled lib) (ti : TrackInfo) :
    Settled (lib.libAddTrack cfg ti) ∧
      (ShowsStore cfg lib → ShowsStore cfg (lib.libAddTrack cfg ti)) := by
  unfold Library.libAddTrack
  split
  · exact ⟨h, id⟩
  split
  · exact ⟨h, id⟩
  rename_i tiHash hins
  dsimp only
  have hstore : ∀ x, x ∈ tiTable.entries tiHash ↔ x = ti ∨ x ∈ lib.store := fun x =>
    HashTable.mem_insert h.table hins
  have hnew : ti ∉ lib.store := fun hti => by
    rw [(HashTable.insert_eq_none h.table).mpr ⟨ti, hti, rfl⟩] at hins
    cases hins
  have h₁ : Consistent {lib with tiHash} :=
    ⟨h.index, h.shuffle, h.tree, HashTable.wellFormed_insert h.table hins, h.once,
      fun x hx => (hstore x).mpr (.inr (h.stored x hx))⟩
  split
  · rename_i hf
    refine ⟨⟨h₁, h.flag, h.expr⟩, fun ⟨honce, hshows⟩ => ⟨honce, fun x => ?_⟩⟩
    show x ∈ lib.shown ↔ x ∈ tiTable.entries tiHash ∧ isFiltered cfg lib.inForce x = false
    rw [hstore, hshows]
    constructor
    · exact fun hx => ⟨.inr hx.1, hx.2⟩
    · rintro ⟨rfl | hx, hfx⟩
      · rw [hf] at hfx
        cases hfx
      · exact ⟨hx, hfx⟩
  · rename_i hf
    have hf : isFiltered cfg lib.inForce ti = false := by simpa using hf
    obtain ⟨h₂, hperm⟩ := viewsAddTrack_consistent cfg h₁ ((hstore ti).mpr (.inl rfl))
      fun hx => hnew (h.stored ti hx)
    refine ⟨⟨h₂, h.flag, h.expr⟩, fun ⟨_, hshows⟩ => ⟨h₂.once, fun x => ?_⟩⟩
    rw [hperm.mem_iff, List.mem_cons]
    show x = ti ∨ x ∈ lib.shown ↔
      x ∈ tiTable.entries tiHash ∧ isFiltered cfg lib.inForce x = false
    rw [hstore, hshows]
    constructor
    · rintro (rfl | ⟨hx, hfx⟩)
      · exact ⟨.inl rfl, hf⟩
      · exact ⟨.inr hx, hfx⟩
    · rintro ⟨rfl | hx, hfx⟩
      · exact .inl rfl
      · exact .inr ⟨hx, hfx⟩

/-- A removal takes a shown info out of views and store, and leaves a hidden one alone. -/
theorem libRemove_settled (h : Settled lib) (ti : TrackInfo) :
    ∃ lib', lib.libRemove cfg ti = some lib' ∧ Settled lib' ∧ lib'.inForce = lib.inForce ∧
      (∀ x, x ∈ lib'.shown ↔ x ∈ lib.shown ∧ x ≠ ti) ∧
      ∀ x, x ∈ lib'.store ↔ x ∈ lib.store ∧ ¬ (x = ti ∧ ti ∈ lib.shown) := by
  rw [Library.libRemove]
  cases hfind : lib.editable.head.find? fun t => lib.editable.info t = ti with
  | none =>
    have hhidden : ti ∉ lib.shown := by
      intro hti
      obtain ⟨t, ht, hinfo⟩ := List.mem_map.mp hti
      exact absurd hinfo (by simpa using List.find?_eq_none.mp hfind t ht)
    refine ⟨lib, rfl, h, rfl, fun x => ?_, fun x => ?_⟩
    · refine (and_iff_left_of_imp fun hx => ?_).symm
      intro heq
      subst heq
      exact hhidden hx
    · exact (and_iff_left fun hx => hhidden hx.2).symm
  | some t =>
    have ht := List.mem_of_find?_eq_some hfind
    have hinfo : lib.editable.info t = ti := by simpa using List.find?_some hfind
    obtain ⟨lib', hrun, h', hn, -⟩ := removeTrack_consistent cfg h.toConsistent ht
    have hti : ti ∈ lib.shown := hinfo ▸ List.mem_map_of_mem ht
    have hexpr : lib'.inForce.liveFilter = none → lib'.inForce.liveFilterExpr = none := by
      rw [hn.inForce]
      exact h.expr
    refine ⟨lib', hrun, ⟨h', hn.flag.trans h.flag, hexpr⟩, hn.inForce, fun x => ?_, fun x => ?_⟩
    · rw [hn.shown, hinfo]
    · rw [hn.store, hinfo]
      refine and_congr_right fun _ => not_congr ?_
      constructor
      · exact fun hx => ⟨hx.2.2, hti⟩
      · intro h
        obtain ⟨rfl, hx⟩ := h
        exact ⟨h.flag, hx, rfl⟩

/-- Filters leave the store alone. -/
def KeepsStore (lib lib' : Library P) : Prop :=
  (∀ x, x ∈ lib'.store ↔ x ∈ lib.store) ∧ lib'.inForce.addFilter = lib.inForce.addFilter

theorem libSetFilter_settled (h : Settled lib) (expr : Option Expr) :
    ∃ lib', lib.libSetFilter cfg expr = some lib' ∧ Settled lib' ∧ KeepsStore lib lib' ∧
      (ShowsStore cfg lib → ShowsStore cfg lib') := by
  have h₁ : Consistent {lib with inForce := {lib.inForce with
      filter := expr, liveFilter := none, liveFilterExpr := none}} :=
    ⟨h.index, h.shuffle, h.tree, h.table, h.once, h.stored⟩
  obtain ⟨lib', hrun, h', hflag, hforce, hstore, hshown⟩ := doLibFilter_consistent cfg h₁
    (lib.inForce.liveFilter.isSome || lib.inForce.filter.isSome)
  have hexpr : lib'.inForce.liveFilter = none → lib'.inForce.liveFilterExpr = none := by
    rw [hforce]
    exact fun _ => rfl
  refine ⟨lib', hrun, ⟨h', hflag, hexpr⟩, ⟨hstore, by rw [hforce]⟩,
    fun hshows => ⟨h'.once, fun x => ?_⟩⟩
  rw [hshown, hstore, hforce]
  refine and_congr_left fun _ => ?_
  split
  · rfl
  · rename_i hnone
    -- nothing was in force, so everything is shown
    obtain ⟨hlive, hfilter⟩ : lib.inForce.liveFilter = none ∧ lib.inForce.filter = none := by
      simpa using hnone
    refine (hshows.2 x).trans (and_iff_left ?_)
    simp [isFiltered, hlive, hfilter, h.expr hlive]

theorem libSetLiveFilter_settled (h : Settled lib) (text : Option Text) :
    ∃ lib', lib.libSetLiveFilter cfg text = some lib' ∧ Settled lib' ∧ KeepsStore lib lib' ∧
      (ShowsStore cfg lib → (ShowsStore cfg lib' ↔ Op.OnlyNarrows cfg lib (.setLiveFilter text))) := by
  rw [Library.libSetLiveFilter]
  by_cases hsame : text = lib.inForce.liveFilter
  · rw [if_pos hsame]
    exact ⟨lib, rfl, h, ⟨fun _ => .rfl, rfl⟩,
      fun hshows => iff_of_true hshows fun hne => absurd hsame hne⟩
  rw [if_neg hsame]
  cases hexpr : Library.liveExpr cfg text with
  | none =>
    refine ⟨lib, rfl, h, ⟨fun _ => .rfl, rfl⟩,
      fun hshows => iff_of_true hshows fun _ expr hsome => ?_⟩
    rw [hexpr] at hsome
    cases hsome
  | some expr =>
    have h₁ : Consistent {lib with inForce := {lib.inForce with
        liveFilter := text, liveFilterExpr := expr}} :=
      ⟨h.index, h.shuffle, h.tree, h.table, h.once, h.stored⟩
    obtain ⟨lib', hrun, h', hflag, hforce, hstore, hshown⟩ := doLibFilter_consistent cfg h₁
      (Library.doClearBefore lib.inForce text expr)
    have hnone : lib'.inForce.liveFilter = none → lib'.inForce.liveFilterExpr = none := by
      rw [hforce]
      intro heq
      subst heq
      exact (Option.some.inj hexpr).symm
    refine ⟨lib', hrun, ⟨h', hflag, hnone⟩, ⟨hstore, by rw [hforce]⟩, fun hshows => ?_⟩
    have hnarrow : Op.OnlyNarrows cfg lib (.setLiveFilter text) ↔
        (Library.doClearBefore lib.inForce text expr = false → ∀ ti ∈ lib.store,
          isFiltered cfg {lib.inForce with liveFilter := text, liveFilterExpr := expr} ti = false →
          isFiltered cfg lib.inForce ti = false) := by
      refine ⟨fun h => h hsame expr hexpr, fun h _ expr' hexpr' => ?_⟩
      obtain rfl := Option.some.inj (hexpr.symm.trans hexpr')
      exact h
    rw [hnarrow, ShowsStore, and_iff_right h'.once]
    simp only [hshown, hstore, hforce]
    cases Library.doClearBefore lib.inForce text expr with
    | true => simp
    | false =>
      simp only [Bool.false_eq_true, if_false, forall_const]
      constructor
      · exact fun hiff ti hti hf => (hshows.2 ti).mp ((hiff ti).mpr ⟨hti, hf⟩).1 |>.2
      · refine fun hold ti => and_congr_left fun hf => ⟨h.stored ti, fun hti => ?_⟩
        exact (hshows.2 ti).mpr ⟨hti, hold ti hti hf⟩

theorem step_settled (h : Settled lib) (op : Op) :
    ∃ lib', step cfg lib op = some lib' ∧ Settled lib' ∧
      (ShowsStore cfg lib → (ShowsStore cfg lib' ↔ op.OnlyNarrows cfg lib)) := by
  cases op with
  | addTrack ti =>
    obtain ⟨h', hshows⟩ := libAddTrack_settled cfg h ti
    exact ⟨_, rfl, h', fun hs => iff_of_true (hshows hs) trivial⟩
  | remove ti =>
    obtain ⟨lib', hrun, h', hforce, hshown, hstore⟩ := libRemove_settled cfg h ti
    refine ⟨lib', hrun, h', fun hs => iff_of_true ⟨h'.once, fun x => ?_⟩ trivial⟩
    rw [hshown, hstore, hforce, hs.2]
    constructor
    · exact fun ⟨⟨hx, hf⟩, hne⟩ => ⟨⟨hx, fun heq => hne heq.1⟩, hf⟩
    · intro h
      obtain ⟨⟨hx, hne⟩, hf⟩ := h
      refine ⟨⟨hx, hf⟩, ?_⟩
      intro heq
      subst heq
      exact hne ⟨rfl, (hs.2 x).mpr ⟨hx, hf⟩⟩
  | setFilter expr =>
    obtain ⟨lib', hrun, h', -, hshows⟩ := libSetFilter_settled cfg h expr
    exact ⟨lib', hrun, h', fun hs => iff_of_true (hshows hs) trivial⟩
  | setAddFilter expr =>
    exact ⟨_, rfl, ⟨⟨h.index, h.shuffle, h.tree, h.table, h.once, h.stored⟩, h.flag, h.expr⟩,
      fun hs => iff_of_true hs trivial⟩
  | setLiveFilter text =>
    obtain ⟨lib', hrun, h', -, hshows⟩ := libSetLiveFilter_settled cfg h text
    exact ⟨lib', hrun, h', hshows⟩

omit [DecidableEq P] in
theorem init_settled (clear marked : P → Bool) (info : P → TrackInfo) (keys : List SortKey) :
    Settled (Library.init clear marked info keys) :=
  ⟨init_consistent clear marked info keys, rfl, fun _ => rfl⟩

/-! ### Runs -/

/-- **The view is complete** after every call of a run, exactly when each live filter of
the run that is applied to the shown tracks only narrows. -/
theorem lib_view_complete (cfg : Config P) (clear marked : P → Bool) (info : P → TrackInfo)
    (keys : List SortKey) (ops : List Op) :
    Runs.Always (step cfg) (ShowsStore cfg) (Library.init clear marked info keys) ops ↔
      Runs.Along (step cfg) (fun lib op => op.OnlyNarrows cfg lib)
        (Library.init clear marked info keys) ops := by
  refine Runs.always_iff_along (fun lib op (h : Settled lib) hshows _ => ?_) _ ops
    (init_settled clear marked info keys) ⟨List.nodup_nil, fun ti => ?_⟩ (Runs.along_true _ ops)
  · obtain ⟨lib', hrun, h', hiff⟩ := step_settled cfg h op
    exact ⟨lib', hrun, h', hiff hshows⟩
  · refine iff_of_false List.not_mem_nil fun hti => ?_
    exact List.not_mem_nil ((HashTable.wellFormed_empty (T := tiTable)).mem_iff.mp hti.1)

/-- Substring searches that compare bytes. -/
def plainConfig : Config Nat where
  toMemory := plainMemory
  env := plainEnv
  search := ⟨fun text word => word <:+: text, fun text word => word <:+: text⟩

def newLibrary : Library Nat :=
  .init (fun _ => false) (fun _ => false) (fun _ => { uid := 0, filename := [] }) []

/-- The third track of an album of 1990. -/
def thirdTrack : TrackInfo :=
  { uid := 1, filename := ascii "/m/3.ogg", comments := [(ascii "tracknumber", ascii "3")],
    date := 19900101 }

/-- `~n2`, typed on to `(~n2|~n3)~y>0`: a track that comes back is not shown. -/
theorem live_filter_hides_track :
    let ops := [.addTrack thirdTrack, .setLiveFilter (some (ascii "~n2")),
      .setLiveFilter (some (ascii "(~n2|~n3)~y>0"))]
    (∃ lib, Runs.run (step plainConfig) newLibrary ops = some lib ∧ thirdTrack ∈ lib.store ∧
        isFiltered plainConfig lib.inForce thirdTrack = false ∧ thirdTrack ∉ lib.shown) ∧
      ¬ Runs.Always (step plainConfig) (ShowsStore plainConfig) newLibrary ops := by
  intro ops
  have hrun : (Runs.run (step plainConfig) newLibrary ops).any fun lib =>
      decide (thirdTrack ∈ lib.store ∧ isFiltered plainConfig lib.inForce thirdTrack = false ∧
        thirdTrack ∉ lib.shown) := by
    decide +kernel
  have hrun : ∃ lib, Runs.run (step plainConfig) newLibrary ops = some lib ∧
      thirdTrack ∈ lib.store ∧ isFiltered plainConfig lib.inForce thirdTrack = false ∧
      thirdTrack ∉ lib.shown := by
    obtain ⟨lib, hlib, hfacts⟩ := (Option.any_eq_true _ _).mp hrun
    exact ⟨lib, hlib, of_decide_eq_true hfacts⟩
  refine ⟨hrun, fun halways => ?_⟩
  obtain ⟨lib, hrun, hstore, hf, hhidden⟩ := hrun
  exact hhidden (((halways.run hrun).2 _).mpr ⟨hstore, hf⟩)

end GracefulMusic.Lib

/-! Removing a track info from the library, and replacing it by a newer one of its file.

`lib_remove` looks for the info among the tracks that are shown. One that the filters
hide stays in the store, and its filename keeps a newer info out. -/
namespace GracefulMusic.Lib
open Tracks GracefulMusic.Expr

variable {P : Type} [DecidableEq P] (cfg : Config P) {lib : Library P}

/-- `lib_remove` takes the info out of the store and all views, and `lib_add_track` then
puts any other info of the file, unless the add filter excludes it, into its place. -/
def RemovesEntry (cfg : Config P) (lib : Library P) (ti : TrackInfo) : Prop :=
  ∃ lib', lib.libRemove cfg ti = some lib' ∧ ti ∉ lib'.store ∧ ti ∉ lib'.shown ∧
    (∀ t, t ∈ lib'.shuffle ∨ t ∈ lib'.tree → lib'.editable.info t ≠ ti) ∧
    ∀ new : TrackInfo, new.filename = ti.filename →
      lib.inForce.addFilter.all (fun e => e.eval cfg.env new) = true →
      ∀ x, x ∈ (lib'.libAddTrack cfg new).store ∧ x.filename = ti.filename ↔ x = new

theorem libAddTrack_store (h : Consistent lib) {new : TrackInfo}
    (hadd : lib.inForce.addFilter.all (fun e => e.eval cfg.env new) = true)
    (hnew : ∀ x ∈ lib.store, x.filename ≠ new.filename) (x : TrackInfo) :
    x ∈ (lib.libAddTrack cfg new).store ↔ x = new ∨ x ∈ lib.store := by
  have hpass : ¬ lib.inForce.addFilter.any (fun e => !e.eval cfg.env new) = true := by
    cases hf : lib.inForce.addFilter with
    | none => simp
    | some e => simpa [hf] using hadd
  rw [Library.libAddTrack, if_neg hpass]
  cases hins : tiTable.insert lib.tiHash new with
  | none =>
    obtain ⟨b, hb, hkey⟩ := (HashTable.insert_eq_none h.table).mp hins
    exact absurd hkey (hnew b hb)
  | some tiHash =>
    dsimp only
    split
    · exact HashTable.mem_insert h.table hins
    · exact HashTable.mem_insert h.table hins

/-- **Removal from the library**, in every state that is reached: an info of the store is
removed and replaced exactly when it is shown. -/
theorem lib_remove_entry (cfg : Config P) (clear marked : P → Bool) (info : P → TrackInfo)
    (keys : List SortKey) (ops : List Op) (lib : Library P)
    (hrun : Runs.run (step cfg) (Library.init clear marked info keys) ops = some lib)
    (ti : TrackInfo) (hti : ti ∈ lib.store) :
    RemovesEntry cfg lib ti ↔ ti ∈ lib.shown := by
  have h : Settled lib := by
    refine Runs.run_preserves (fun s op t hs hstep => ?_) _ _ ops
      (init_settled clear marked info keys) hrun
    obtain ⟨t', ht', hs', -⟩ := step_settled cfg hs op
    rwa [Option.some.inj (hstep.symm.trans ht')]
  obtain ⟨lib', hrem, h', hforce, hshown, hstore⟩ := libRemove_settled cfg h ti
  constructor
  · intro h
    obtain ⟨lib₁, hrem₁, hgone, -⟩ := h
    obtain rfl := Option.some.inj (hrem.symm.trans hrem₁)
    by_contra hhidden
    exact hgone ((hstore ti).mpr ⟨hti, fun hx => hhidden hx.2⟩)
  · intro hvisible
    have hstore' : ∀ x, x ∈ lib'.store ↔ x ∈ lib.store ∧ x ≠ ti := fun x =>
      (hstore x).trans (and_congr_right fun _ => not_congr (and_iff_left hvisible))
    have hgone : ti ∉ lib'.shown := fun hx => ((hshown ti).mp hx).2 rfl
    refine ⟨lib', hrem, fun hx => ((hstore' ti).mp hx).2 rfl, hgone, fun t ht hinfo => ?_,
      fun new hname hadd x => ?_⟩
    · have hhead : t ∈ lib'.editable.head :=
        ht.elim h'.shuffle.mem_iff.mp h'.tree.mem_iff.mp
      exact hgone (hinfo ▸ List.mem_map_of_mem hhead)
    · have hfree : ∀ y ∈ lib'.store, y.filename ≠ ti.filename := by
        intro y hy hkey
        obtain ⟨hy, hne⟩ := (hstore' y).mp hy
        exact hne (h.table.key_inj hy hti hkey)
      rw [libAddTrack_store cfg h'.toConsistent (hforce ▸ hadd) (hname ▸ hfree)]
      constructor
      · rintro ⟨rfl | hx, hkey⟩
        · rfl
        · exact absurd hkey (hfree x hx)
      · intro heq
        subst heq
        exact ⟨.inl rfl, hname⟩

theorem lib_remove_entry_shown :
    thirdTrack ∈ (newLibrary.libAddTrack plainConfig thirdTrack).store ∧
      RemovesEntry plainConfig (newLibrary.libAddTrack plainConfig thirdTrack) thirdTrack := by
  have hstore : thirdTrack ∈ (newLibrary.libAddTrack plainConfig thirdTrack).store := by
    decide +kernel
  refine ⟨hstore, (lib_remove_entry plainConfig _ _ _ []
    [.addTrack thirdTrack] _ rfl thirdTrack hstore).mpr ?_⟩
  decide +kernel

/-- Hidden by the live filter `~n2`, a track is not removed, and its newer info is taken
for a duplicate. -/
theorem hidden_track_not_removed :
    ∃ lib lib', Runs.run (step plainConfig) newLibrary
        [.addTrack thirdTrack, .setLiveFilter (some (ascii "~n2"))] = some lib ∧
      thirdTrack ∈ lib.store ∧ lib.libRemove plainConfig thirdTrack = some lib' ∧
      thirdTrack ∈ lib'.store ∧
      {thirdTrack with uid := 2, mtime := 7} ∉
        (lib'.libAddTrack plainConfig {thirdTrack with uid := 2, mtime := 7}).store ∧
      ¬ RemovesEntry plainConfig lib thirdTrack := by
  have hrun : (Runs.run (step plainConfig) newLibrary
      [.addTrack thirdTrack, .setLiveFilter (some (ascii "~n2"))]).any fun lib =>
        (lib.libRemove plainConfig thirdTrack).any fun lib' =>
          decide (thirdTrack ∈ lib.store ∧ thirdTrack ∈ lib'.store ∧
            {thirdTrack with uid := 2, mtime := 7} ∉
              (lib'.libAddTrack plainConfig {thirdTrack with uid := 2, mtime := 7}).store) := by
    decide +kernel
  obtain ⟨lib, hlib, hrem⟩ := (Option.any_eq_true _ _).mp hrun
  obtain ⟨lib', hlib', hfacts⟩ := (Option.any_eq_true _ _).mp hrem
  obtain ⟨hstore, hstore', hnew⟩ := of_decide_eq_true hfacts
  refine ⟨lib, lib', hlib, hstore, hlib', hstore', hnew, ?_⟩
  intro h
  obtain ⟨lib₁, hrem₁, hgone, -⟩ := h
  obtain rfl := Option.some.inj (hlib'.symm.trans hrem₁)
  exact hgone hstore'

end GracefulMusic.Lib
