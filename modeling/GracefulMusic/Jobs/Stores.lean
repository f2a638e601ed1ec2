import GracefulMusic.Jobs.System
import GracefulMusic.Library.LiveFilter

/-! What the operations of the main thread do to library, queue and playlists. -/
namespace GracefulMusic.Jobs
open Tracks GracefulMusic.Expr

variable {P : Type} [DecidableEq P] (cfg : Lib.Config P) {st : Stores P}

namespace Stores

structure Sound (st : Stores P) : Prop where
  lib : Lib.Settled st.lib
  queue : Linked st.queue
  playlist : ∀ pl, Linked (st.playlist pl)

/-! ### Adding -/

/-- What an add callback does with a track. -/
structure Added (cfg : Lib.Config P) (data : AddData) (ti : TrackInfo) (st st' : Stores P) :
    Prop where
  sound : Sound st'
  others : ∀ target ≠ data.target, st'.contents target = st.contents target
  mem : ∀ x ∈ st'.contents data.target, x = ti ∨ x ∈ st.contents data.target
  keep : ∀ x ∈ st.contents data.target, x ∈ st'.contents data.target
  there : st.excluded cfg data ti = false →
    ∃ x ∈ st'.contents data.target, x.filename = ti.filename
  perm : data.target ≠ .lib → (st'.contents data.target).Perm (ti :: st.contents data.target)
  addFilter : st'.lib.inForce.addFilter = st.lib.inForce.addFilter

theorem libAddTrack_contents {lib : Lib.Library P} (h : Lib.Settled lib) (ti : TrackInfo) :
    (∀ x ∈ (lib.libAddTrack cfg ti).store, x = ti ∨ x ∈ lib.store) ∧
      (∀ x ∈ lib.store, x ∈ (lib.libAddTrack cfg ti).store) ∧
      ((lib.inForce.addFilter.any fun e => !e.eval cfg.env ti) = false →
        ∃ x ∈ (lib.libAddTrack cfg ti).store, x.filename = ti.filename) ∧
      (lib.libAddTrack cfg ti).inForce = lib.inForce := by
  rw [Lib.Library.libAddTrack]
  split
  · rename_i hout
    refine ⟨fun x hx => .inr hx, fun x hx => hx, fun hin => ?_, rfl⟩
    rw [hout] at hin
    cases hin
  · cases hins : Lib.tiTable.insert lib.tiHash ti with
    | none =>
      obtain ⟨b, hb, hkey⟩ := (HashTable.insert_eq_none h.table).mp hins
      exact ⟨fun x hx => .inr hx, fun x hx => hx, fun _ => ⟨b, hb, hkey⟩, rfl⟩
    | some tiHash =>
      have hstore : ∀ x, x ∈ Lib.tiTable.entries tiHash ↔ x = ti ∨ x ∈ lib.store := fun x =>
        HashTable.mem_insert h.table hins
      dsimp only
      -- the hash is the same with the track in the views
      split
      · exact ⟨fun x hx => (hstore x).mp hx, fun x hx => (hstore x).mpr (.inr hx),
          fun _ => ⟨ti, (hstore ti).mpr (.inl rfl), rfl⟩, rfl⟩
      · exact ⟨fun x hx => (hstore x).mp hx, fun x hx => (hstore x).mpr (.inr hx),
          fun _ => ⟨ti, (hstore ti).mpr (.inl rfl), rfl⟩, rfl⟩

theorem added_of_perm {st' : Stores P} {data : AddData} {ti : TrackInfo} (hsound : Sound st')
    (hothers : ∀ target ≠ data.target, st'.contents target = st.contents target)
    (hperm : (st'.contents data.target).Perm (ti :: st.contents data.target))
    (hlib : st'.lib = st.lib) : Added cfg data ti st st' where
  sound := hsound
  others := hothers
  mem x hx := List.mem_cons.mp (hperm.mem_iff.mp hx)
  keep x hx := hperm.mem_iff.mpr (.tail _ hx)
  there _ := ⟨ti, hperm.mem_iff.mpr (.head _), rfl⟩
  perm _ := hperm
  addFilter := by rw [hlib]

theorem addCb_added (h : Sound st) (data : AddData) (ti : TrackInfo) :
    Added cfg data ti st (st.addCb cfg data ti) := by
  obtain ⟨serial, target, prepend, tracks⟩ := data
  cases target with
  | lib =>
    obtain ⟨hmem, hkeep, hthere, hforce⟩ := libAddTrack_contents cfg h.lib ti
    refine ⟨⟨(Lib.libAddTrack_settled cfg h.lib ti).1, h.queue, h.playlist⟩, fun target hne => ?_,
      hmem, hkeep, fun hin => hthere (by simpa [excluded] using hin), fun hne => absurd rfl hne,
      congrArg Lib.InForce.addFilter hforce⟩
    cases target with
    | lib => exact absurd rfl hne
    | queue => rfl
    | playlist pl => rfl
  | queue =>
    let track := cfg.malloc st.queue.head
    have hfresh : track ∉ st.queue.head := cfg.malloc_fresh _
    have hadd : ∀ tiebreak, Added cfg ⟨serial, .queue, prepend, tracks⟩ ti st
        (let queue := (st.queue.initTrack track ti).doEditableAdd cfg.rb cfg.fieldCmp track tiebreak
        {st with queue}) := by
      intro tiebreak
      obtain ⟨hlinked, hhead⟩ := h.queue.doEditableAdd cfg.rb cfg.fieldCmp ti tiebreak hfresh
      refine added_of_perm cfg ⟨h.lib, hlinked, h.playlist⟩ (fun target hne => ?_)
        (Linked.infos_perm ti hhead hfresh) rfl
      cases target with
      | lib => rfl
      | queue => exact absurd rfl hne
      | playlist pl => rfl
    cases prepend with
    | true => exact hadd (-1)
    | false => exact hadd 1
  | playlist pl =>
    have hfresh := cfg.malloc_fresh (st.playlist pl).head
    obtain ⟨hlinked, hhead⟩ := (h.playlist pl).add cfg.rb cfg.fieldCmp ti hfresh
    refine added_of_perm cfg ⟨h.lib, h.queue, fun pl' => ?_⟩ (fun target hne => ?_) ?_ rfl
    · show Linked (Function.update st.playlist pl _ pl')
      by_cases heq : pl' = pl
      · subst heq
        rwa [Function.update_self]
      · rw [Function.update_of_ne heq]
        exact h.playlist pl'
    · cases target with
      | lib => rfl
      | queue => rfl
      | playlist pl' =>
        have heq : pl' ≠ pl := fun heq => hne (by rw [heq])
        simp [contents, addCb, Function.update_of_ne heq]
    · simp only [contents, addCb, Function.update_self]
      exact Linked.infos_perm ti hhead hfresh

/-! ### Taking out -/

/-- What a removal does to the stores. -/
structure Removed (target : Target) (cb : TrackInfo → Bool) (st st' : Stores P) : Prop where
  sound : Sound st'
  others : ∀ other ≠ target, st'.contents other = st.contents other
  sub : ∀ x ∈ st'.contents target, x ∈ st.contents target
  keep : ∀ x ∈ st.contents target, cb x = false → x ∈ st'.contents target
  gone : target ≠ .lib → ∀ x ∈ st'.contents target, cb x = false
  hidden : target = .lib → ∀ x ∈ st'.lib.store, ¬ (x ∈ st.lib.shown ∧ cb x = true)
  shown : target = .lib → ∀ x ∈ st'.lib.shown, cb x = false
  addFilter : st'.lib.inForce.addFilter = st.lib.inForce.addFilter

/-- A removal from an editable, as its infos have it. -/
theorem removeMatching_infos {e : Editable P} (h : Linked e) (cb : TrackInfo → Bool) :
    ∃ e', e.removeMatchingTracks cfg.rb cb = some e' ∧ Linked e' ∧
      ∀ x, x ∈ e'.head.map e'.info ↔ x ∈ e.head.map e.info ∧ cb x = false := by
  obtain ⟨e', hrun, h', hinfo, hhead⟩ := h.removeWhere cfg.rb fun t => cb (e.info t)
  refine ⟨e', hrun, h', fun x => ?_⟩
  rw [hinfo, hhead]
  simp only [List.mem_map, List.mem_filter, Bool.not_eq_true']
  constructor
  · intro h
    obtain ⟨t, ⟨ht, hcb⟩, rfl⟩ := h
    exact ⟨⟨t, ht, rfl⟩, hcb⟩
  · intro h
    obtain ⟨⟨t, ht, rfl⟩, hcb⟩ := h
    exact ⟨t, ⟨ht, hcb⟩, rfl⟩

theorem removeMatchingTracks_removed (h : Sound st) (target : Target) (cb : TrackInfo → Bool) :
    ∃ st', st.removeMatchingTracks cfg target cb = some st' ∧ Removed target cb st st' := by
  cases target with
  | lib =>
    obtain ⟨lib', hrun, h', hn⟩ :=
      Lib.removeMatchingTracks_consistent cfg h.lib.toConsistent cb
    refine ⟨{st with lib := lib'}, by rw [removeMatchingTracks, hrun]; rfl,
      ⟨⟨h', hn.flag.trans h.lib.flag, ?_⟩, h.queue, h.playlist⟩, fun other hne => ?_,
      fun x hx => ((hn.store x).mp hx).1, fun x hx hcb => ?_, fun hne => absurd rfl hne,
      fun _ x hx hgone => ((hn.store x).mp hx).2 ⟨h.lib.flag, hgone⟩,
      fun _ x hx => by simpa using ((hn.shown x).mp hx).2, ?_⟩
    · rw [hn.inForce]
      exact h.lib.expr
    · cases other with
      | lib => exact absurd rfl hne
      | queue => rfl
      | playlist pl => rfl
    · refine (hn.store x).mpr ⟨hx, fun hgone => ?_⟩
      rw [hcb] at hgone
      cases hgone.2.2
    · show lib'.inForce.addFilter = _
      rw [hn.inForce]
  | queue =>
    obtain ⟨queue, hrun, h', hmem⟩ := removeMatching_infos cfg h.queue cb
    refine ⟨{st with queue}, by rw [removeMatchingTracks, hrun]; rfl, ⟨h.lib, h', h.playlist⟩,
      fun other hne => ?_, fun x hx => ((hmem x).mp hx).1, fun x hx hcb => (hmem x).mpr ⟨hx, hcb⟩,
      fun _ x hx => ((hmem x).mp hx).2, nofun, nofun, rfl⟩
    cases other with
    | lib => rfl
    | queue => exact absurd rfl hne
    | playlist pl => rfl
  | playlist pl =>
    obtain ⟨e, hrun, h', hmem⟩ := removeMatching_infos cfg (h.playlist pl) cb
    have hself : ∀ x, x ∈ {st with playlist := Function.update st.playlist pl e}.contents
        (.playlist pl) ↔ x ∈ st.contents (.playlist pl) ∧ cb x = false := by
      simpa only [contents, Function.update_self] using hmem
    refine ⟨{st with playlist := Function.update st.playlist pl e},
      by rw [removeMatchingTracks, hrun]; rfl, ⟨h.lib, h.queue, fun pl' => ?_⟩,
      fun other hne => ?_, fun x hx => ((hself x).mp hx).1, fun x hx hcb => (hself x).mpr ⟨hx, hcb⟩,
      fun _ x hx => ((hself x).mp hx).2, nofun, nofun, rfl⟩
    · show Linked (Function.update st.playlist pl e pl')
      by_cases heq : pl' = pl
      · subst heq
        rwa [Function.update_self]
      · rw [Function.update_of_ne heq]
        exact h.playlist pl'
    · cases other with
      | lib => rfl
      | queue => rfl
      | playlist pl' =>
        have heq : pl' ≠ pl := fun heq => hne (by rw [heq])
        simp [contents, Function.update_of_ne heq]

omit [DecidableEq P] in
theorem libClearStore_settled {lib : Lib.Library P} (h : Lib.Settled lib)
    (hshown : ∀ x, x ∉ lib.shown) : Lib.Settled lib.libClearStore :=
  ⟨⟨h.index, h.shuffle, h.tree, HashTable.wellFormed_empty, h.once,
    fun x hx => absurd hx (hshown x)⟩, h.flag, h.expr⟩

end Stores

end GracefulMusic.Jobs
