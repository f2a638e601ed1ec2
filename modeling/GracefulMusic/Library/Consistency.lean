import GracefulMusic.Library.Views
import GracefulMusic.Tracks.Linked

/-! What holds of store and views through every operation, whatever they show.

The views hold the same tracks, one for an info, and show infos of the store only. No
operation is ever outside the contract of the index tree, and `hash_remove` always finds
its entry. -/
namespace GracefulMusic.Lib
open Tracks GracefulMusic.Expr

variable {P : Type} [DecidableEq P] (cfg : Config P) {lib lib' : Library P}

structure Consistent (lib : Library P) : Prop where
  index : Linked lib.editable
  shuffle : lib.shuffle.Perm lib.editable.head
  tree : lib.tree.Perm lib.editable.head
  table : tiTable.WellFormed lib.tiHash
  once : lib.shown.Nodup
  stored : ∀ ti ∈ lib.shown, ti ∈ lib.store

omit [DecidableEq P] in
theorem init_consistent (clear marked : P → Bool) (info : P → TrackInfo) (keys : List SortKey) :
    Consistent (Library.init clear marked info keys) :=
  ⟨.init clear marked info keys, .refl _, .refl _, HashTable.wellFormed_empty,
    List.nodup_nil, fun _ h => absurd h List.not_mem_nil⟩

/-! ### Adding -/

theorem viewsAddTrack_consistent (h : Consistent lib) {ti : TrackInfo} (hstore : ti ∈ lib.store)
    (hnew : ti ∉ lib.shown) :
    Consistent (lib.viewsAddTrack cfg ti) ∧
      (lib.viewsAddTrack cfg ti).shown.Perm (ti :: lib.shown) := by
  have hfresh := cfg.malloc_fresh lib.editable.head
  obtain ⟨hindex, hhead⟩ := h.index.add cfg.rb cfg.fieldCmp ti hfresh
  have hshown : (lib.viewsAddTrack cfg ti).shown.Perm (ti :: lib.shown) :=
    Linked.infos_perm ti hhead hfresh
  refine ⟨⟨hindex, (h.shuffle.cons _).trans hhead.symm, (h.tree.cons _).trans hhead.symm, h.table,
    hshown.nodup_iff.mpr (List.nodup_cons.mpr ⟨hnew, h.once⟩), fun x hx => ?_⟩, hshown⟩
  rcases List.mem_cons.mp (hshown.mem_iff.mp hx) with rfl | hx
  · exact hstore
  · exact h.stored x hx

/-! ### Removing -/

/-- What removals do to the library: the infos that go leave the views, and the store if
the flag says so. -/
structure Narrowed (lib lib' : Library P) (gone : TrackInfo → Prop) : Prop where
  shown : ∀ x, x ∈ lib'.shown ↔ x ∈ lib.shown ∧ ¬ gone x
  store : ∀ x, x ∈ lib'.store ↔
    x ∈ lib.store ∧ ¬ (lib.removeFromHash = true ∧ x ∈ lib.shown ∧ gone x)
  inForce : lib'.inForce = lib.inForce
  flag : lib'.removeFromHash = lib.removeFromHash
  info : lib'.editable.info = lib.editable.info

omit [DecidableEq P] in
theorem Narrowed.trans {lib₁ lib₂ : Library P} {gone₁ gone₂ gone : TrackInfo → Prop}
    (h₁ : Narrowed lib lib₁ gone₁) (h₂ : Narrowed lib₁ lib₂ gone₂)
    (hgone : ∀ x, gone x ↔ gone₁ x ∨ gone₂ x) : Narrowed lib lib₂ gone := by
  refine ⟨fun x => ?_, fun x => ?_, h₂.inForce.trans h₁.inForce, h₂.flag.trans h₁.flag,
    h₂.info.trans h₁.info⟩
  · rw [h₂.shown, h₁.shown, hgone]
    tauto
  · rw [h₂.store, h₁.store, h₁.shown, h₁.flag, hgone]
    tauto

theorem removeTrack_consistent (h : Consistent lib) {t : P} (ht : t ∈ lib.editable.head) :
    ∃ lib', lib.removeTrack cfg t = some lib' ∧ Consistent lib' ∧
      Narrowed lib lib' (· = lib.editable.info t) ∧
      lib'.editable.head = lib.editable.head.erase t := by
  obtain ⟨e, he, hindex, hhead, hinfo, -⟩ := h.index.removeTrack cfg.rb ht
  have hti : lib.editable.info t ∈ lib.shown := List.mem_map_of_mem ht
  have hnodup : lib.editable.head.Nodup := h.once.of_map
  have hshown : ∀ x, x ∈ (lib.editable.head.erase t).map lib.editable.info ↔
      x ∈ lib.shown ∧ x ≠ lib.editable.info t := by
    intro x
    simp only [List.mem_map, hnodup.mem_erase_iff, Library.shown]
    constructor
    · intro h
      obtain ⟨u, ⟨hut, hu⟩, rfl⟩ := h
      exact ⟨⟨u, hu, rfl⟩, fun heq => hut (List.inj_on_of_nodup_map h.once hu ht heq)⟩
    · intro h
      obtain ⟨⟨u, hu, rfl⟩, hne⟩ := h
      exact ⟨u, ⟨fun hut => hne (congrArg _ hut), hu⟩, rfl⟩
  have hsub : ((lib.editable.head.erase t).map lib.editable.info).Nodup :=
    h.once.sublist (List.erase_sublist.map _)
  -- the hash after the removal
  obtain ⟨tiHash, hhash, htable, hstore⟩ : ∃ tiHash,
      (if lib.removeFromHash then tiTable.remove lib.tiHash (lib.editable.info t).filename
        else some lib.tiHash) = some tiHash ∧ tiTable.WellFormed tiHash ∧
      ∀ x, x ∈ tiTable.entries tiHash ↔
        x ∈ lib.store ∧ ¬ (lib.removeFromHash = true ∧ x = lib.editable.info t) := by
    by_cases hflag : lib.removeFromHash = true
    · obtain ⟨tiHash, hhash⟩ := HashTable.remove_isSome h.table (h.stored _ hti)
      refine ⟨tiHash, by rw [if_pos hflag]; exact hhash,
        HashTable.wellFormed_remove h.table hhash, fun x => ?_⟩
      rw [HashTable.mem_remove h.table (h.stored _ hti) hhash]
      simp [hflag, Library.store]
    · exact ⟨lib.tiHash, if_neg hflag, h.table, fun x => by simp [hflag, Library.store]⟩
  refine ⟨{lib with
      editable := e, tiHash, shuffle := lib.shuffle.erase t, tree := lib.tree.erase t}, ?_,
    ⟨hindex, ?_, ?_, htable, ?_, fun x hx => ?_⟩, ⟨fun x => ?_, fun x => ?_, rfl, rfl, hinfo⟩, hhead⟩
  · rw [Library.removeTrack, he]
    show Library.freeLibTrack {lib with editable := e} t = _
    rw [Library.freeLibTrack]
    simp only [hinfo, hhash, Option.map_some]
  · show (lib.shuffle.erase t).Perm e.head
    rw [hhead]
    exact h.shuffle.erase t
  · show (lib.tree.erase t).Perm e.head
    rw [hhead]
    exact h.tree.erase t
  · show (e.head.map e.info).Nodup
    rwa [hhead, hinfo]
  · have hx : x ∈ e.head.map e.info := hx
    rw [hhead, hinfo, hshown] at hx
    exact (hstore x).mpr ⟨h.stored x hx.1, fun hgone => hx.2 hgone.2⟩
  · show x ∈ e.head.map e.info ↔ _
    rw [hhead, hinfo]
    exact hshown x
  · refine (hstore x).trans (and_congr_right fun _ => not_congr (and_congr_right fun _ => ?_))
    exact ⟨fun hx => ⟨hx ▸ hti, hx⟩, And.right⟩

/-- The walk of `editable_clear` and `editable_remove_matching_tracks`. -/
theorem removeMatchingTracks_consistent (h : Consistent lib) (cb : TrackInfo → Bool) :
    ∃ lib', lib.removeMatchingTracks cfg cb = some lib' ∧ Consistent lib' ∧
      Narrowed lib lib' (cb · = true) := by
  -- along the walk, what is gone is what is not shown any more
  obtain ⟨lib', hrun, ⟨h', hn⟩, hhead⟩ := Sequence.removal_walk
    (fun lib : Library P => lib.editable.head)
    (fun lib' => Consistent lib' ∧ Narrowed lib lib' (· ∉ lib'.shown)) (fun _ h => h.1.once.of_map)
    (fun lib₁ t ⟨h₁, hn₁⟩ ht => by
      obtain ⟨lib₂, hrun, h₂, hn₂, hhead⟩ := removeTrack_consistent cfg h₁ ht
      refine ⟨lib₂, hrun, ⟨h₂, hn₁.trans hn₂ fun x => ?_⟩, hhead⟩
      rw [hn₂.shown, not_and_or, not_not])
    (p := fun lib t => cb (lib.editable.info t)) (q := fun t => cb (lib.editable.info t))
    (fun _ _ ⟨_, hn₁⟩ => by rw [hn₁.info])
    ⟨h, ⟨fun x => by simp, fun x => by tauto, rfl, rfl, rfl⟩⟩
  have hshown : ∀ x, x ∈ lib'.shown ↔ x ∈ lib.shown ∧ ¬ cb x = true := by
    intro x
    rw [Library.shown, hhead, hn.info, Library.shown, List.mem_map, List.mem_map]
    constructor
    · intro h
      obtain ⟨t, ht, rfl⟩ := h
      obtain ⟨ht, hcb⟩ := List.mem_filter.mp ht
      exact ⟨⟨t, ht, rfl⟩, by simpa using hcb⟩
    · intro h
      obtain ⟨⟨t, ht, rfl⟩, hcb⟩ := h
      exact ⟨t, List.mem_filter.mpr ⟨ht, by simpa using hcb⟩, rfl⟩
  refine ⟨lib', hrun, h', hshown, fun x => ?_, hn.inForce, hn.flag, hn.info⟩
  rw [hn.store, hshown]
  tauto

/-! ### Filtering -/

/-- The walk of `hash_add_to_views`. -/
theorem addAll_consistent (l : List TrackInfo) (h : Consistent lib) (hl : l.Nodup)
    (hstore : ∀ x ∈ l, x ∈ lib.store) (hnew : ∀ x ∈ l, x ∉ lib.shown) :
    ∃ lib', l.foldl
        (fun lib ti => if isFiltered cfg lib.inForce ti then lib else lib.viewsAddTrack cfg ti) lib
        = lib' ∧ Consistent lib' ∧ lib'.tiHash = lib.tiHash ∧ lib'.inForce = lib.inForce ∧
      ∀ x, x ∈ lib'.shown ↔ x ∈ lib.shown ∨ (x ∈ l ∧ isFiltered cfg lib.inForce x = false) := by
  induction l generalizing lib with
  | nil => exact ⟨lib, rfl, h, rfl, rfl, by simp⟩
  | cons ti l ih =>
    obtain ⟨hti, hl⟩ := List.nodup_cons.mp hl
    rw [List.foldl_cons]
    by_cases hf : isFiltered cfg lib.inForce ti = true
    · rw [if_pos hf]
      obtain ⟨lib', hrun, h', hhash, hforce, hshown⟩ := ih h hl
        (fun x hx => hstore x (.tail _ hx)) fun x hx => hnew x (.tail _ hx)
      refine ⟨lib', hrun, h', hhash, hforce, fun x => ?_⟩
      rw [hshown, List.mem_cons]
      refine or_congr_right ⟨fun ⟨hx, hfx⟩ => ⟨.inr hx, hfx⟩, ?_⟩
      rintro ⟨rfl | hx, hfx⟩
      · rw [hf] at hfx
        cases hfx
      · exact ⟨hx, hfx⟩
    · rw [if_neg hf]
      obtain ⟨h₁, hperm⟩ := viewsAddTrack_consistent cfg h (hstore ti (.head _)) (hnew ti (.head _))
      have hnew₁ : ∀ x ∈ l, x ∉ (lib.viewsAddTrack cfg ti).shown := by
        intro x hx hmem
        rcases List.mem_cons.mp (hperm.mem_iff.mp hmem) with rfl | hmem
        · exact hti hx
        · exact hnew x (.tail _ hx) hmem
      obtain ⟨lib', hrun, h', hhash, hforce, hshown⟩ := ih h₁ hl
        (fun x hx => hstore x (.tail _ hx)) hnew₁
      refine ⟨lib', hrun, h', hhash, hforce, fun x => ?_⟩
      rw [hshown, hperm.mem_iff, List.mem_cons, List.mem_cons]
      have hfti : isFiltered cfg lib.inForce ti = false := by simpa using hf
      show _ ∨ (x ∈ l ∧ isFiltered cfg lib.inForce x = false) ↔ _
      constructor
      · rintro ((rfl | hx) | ⟨hx, hfx⟩)
        · exact .inr ⟨.inl rfl, hfti⟩
        · exact .inl hx
        · exact .inr ⟨.inr hx, hfx⟩
      · rintro (hx | ⟨rfl | hx, hfx⟩)
        · exact .inl (.inr hx)
        · exact .inl (.inl rfl)
        · exact .inr ⟨hx, hfx⟩

theorem doLibFilter_consistent (h : Consistent lib) (clearBefore : Bool) :
    ∃ lib', lib.doLibFilter cfg clearBefore = some lib' ∧ Consistent lib' ∧
      lib'.removeFromHash = true ∧ lib'.inForce = lib.inForce ∧
      (∀ x, x ∈ lib'.store ↔ x ∈ lib.store) ∧
      ∀ x, x ∈ lib'.shown ↔
        (if clearBefore then x ∈ lib.store else x ∈ lib.shown) ∧
          isFiltered cfg lib.inForce x = false := by
  have hkeep : Consistent {lib with removeFromHash := false} :=
    ⟨h.index, h.shuffle, h.tree, h.table, h.once, h.stored⟩
  cases clearBefore with
  | false =>
    obtain ⟨lib₁, hrun, h₁, hn⟩ :=
      removeMatchingTracks_consistent cfg hkeep (isFiltered cfg lib.inForce)
    refine ⟨{lib₁ with removeFromHash := true}, ?_,
      ⟨h₁.index, h₁.shuffle, h₁.tree, h₁.table, h₁.once, h₁.stored⟩, rfl, hn.inForce,
      fun x => ?_, fun x => ?_⟩
    · simp only [Library.doLibFilter, Bool.false_eq_true, if_false, hrun, Option.map_some]
    · refine (hn.store x).trans (and_iff_left ?_)
      intro h
      obtain ⟨hflag, -⟩ := h
      cases hflag
    · exact (hn.shown x).trans (and_congr_right fun _ => by simp)
  | true =>
    obtain ⟨lib₁, hrun, h₁, hn⟩ := removeMatchingTracks_consistent cfg hkeep fun _ => true
    have hempty : ∀ x, x ∉ lib₁.shown := fun x hx => ((hn.shown x).mp hx).2 rfl
    have hstore : ∀ x, x ∈ lib₁.store ↔ x ∈ lib.store := by
      intro x
      refine (hn.store x).trans (and_iff_left ?_)
      intro h
      obtain ⟨hflag, -⟩ := h
      cases hflag
    obtain ⟨lib₂, hadd, h₂, hhash, hforce, hshown⟩ := addAll_consistent cfg lib₁.store h₁
      h₁.table.nodup (fun _ => id) fun x _ => hempty x
    have hstore₂ : lib₂.store = lib₁.store := congrArg tiTable.entries hhash
    refine ⟨{lib₂ with removeFromHash := true}, ?_,
      ⟨h₂.index, h₂.shuffle, h₂.tree, h₂.table, h₂.once, h₂.stored⟩, rfl,
      hforce.trans hn.inForce, fun x => ?_, fun x => ?_⟩
    · have hclear : Library.clear cfg {lib with removeFromHash := false} = some lib₁ := hrun
      simp only [Library.doLibFilter, if_true, hclear, Option.map_some]
      exact congrArg _ (congrArg (fun l : Library P => {l with removeFromHash := true}) hadd)
    · show x ∈ lib₂.store ↔ _
      rw [hstore₂, hstore]
    · refine (hshown x).trans ((or_iff_right (hempty x)).trans ?_)
      rw [hstore, hn.inForce]
      rfl

end GracefulMusic.Lib
