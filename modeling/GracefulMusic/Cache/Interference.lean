import GracefulMusic.Cache.Refresh

/-! What a refresh and the calls between its rounds make of the table (`cache.c`).

The entries are counted whatever happens. A call of `cache_get_ti` puts an entry in the
place of the one of its name; a round of the refresh takes out the entry it has in its
array, which need not be the one that is there. Where another one is, the table has two
entries for the file after the round, and only there. -/
namespace GracefulMusic.Cache.Refresh

namespace State

/-- The info whose file the refresh reads. -/
def reading (s : State) : Option Info := s.refresh.bind Progress.reading

/-- No two entries for a file. -/
def Distinct (s : State) : Prop := (s.table.entries.map Info.filename).Nodup

/-- Each entry is the last info made for its file. -/
def Newest (s : State) : Prop :=
  ∀ ti ∈ s.table.entries, s.made.find? (fun u => u.filename = ti.filename) = some ti

/-- What the cache promises: no two entries for a file, the count of all entries, and
between two refreshes the newest info for each file. -/
structure Good (s : State) : Prop where
  distinct : s.Distinct
  counted : s.table.total = s.table.entries.length
  newest : s.refresh = none → s.Newest

/-- The cache after its start: the entries of the file. -/
structure Start (s : State) : Prop where
  sound : s.table.Sound Info.filename
  distinct : s.Distinct
  made : s.made = s.table.entries
  idle : s.refresh = none

/-- Where the refresh has read a file again, there is no entry for the file: nobody has put
another one in the place of the entry that the refresh has in its array. -/
def Apart (s : State) : Action → Prop
  | .read (some _) => ∀ ti ∈ s.reading, ∀ u ∈ s.table.entries, u.filename ≠ ti.filename
  | _ => True

/-! ### What a step does to the table -/

/-- At most one entry less. -/
def Drops (s t : State) : Prop :=
  t.made = s.made ∧ (t.table = s.table ∨ ∃ ti, t.table = s.table.removeTi Info.filename ti)

/-- A new entry for a file. -/
def Adds (s t : State) (filename : Text) : Prop :=
  ∃ new : Info, new.filename = filename ∧ t.made = new :: s.made ∧
    t.table = s.table.addTi Info.filename new

variable {s t : State} {a : Action}

theorem Drops.refl (s : State) : Drops s s := ⟨rfl, .inl rfl⟩

theorem doCacheRemoveTi_drops (s : State) (ti : Info) : Drops s (s.doCacheRemoveTi ti) := by
  unfold doCacheRemoveTi
  split
  · exact ⟨rfl, .inr ⟨ti, rfl⟩⟩
  · exact .refl s

theorem deleted_drops (s : State) (ti : Info) :
    (s.deleted ti).1.made = s.made ∧ (s.deleted ti).1.table = s.table := by
  unfold deleted
  split <;> exact ⟨rfl, rfl⟩

theorem visit_drops (s : State) (force : Bool) (ti : Info) (stat : Stat) :
    Drops s (s.visit force ti stat).1 := by
  have hremove := doCacheRemoveTi_drops s ti
  unfold visit
  split
  · exact ⟨rfl, .inl rfl⟩
  · dsimp only
    split
    · split <;> exact hremove
    · obtain ⟨hmade, htable⟩ := deleted_drops (s.doCacheRemoveTi ti) ti
      rw [Drops, hmade, htable]
      exact hremove

theorem changed_effect (s : State) (ti : Info) (contents : Option Contents) :
    contents = none ∧ Drops s (s.changed ti contents).1 ∨
      (∃ c, contents = some c) ∧ Adds s (s.changed ti contents).1 ti.filename := by
  cases contents with
  | none =>
    obtain ⟨hmade, htable⟩ := deleted_drops s ti
    exact .inl ⟨rfl, hmade, .inl htable⟩
  | some c =>
    refine .inr ⟨⟨c, rfl⟩, s.fresh ti.filename c, rfl, ?_⟩
    unfold changed
    dsimp only
    split <;> exact ⟨rfl, rfl⟩

theorem load_adds (s : State) (filename : Text) (c : Contents) :
    Adds s (s.load filename c) filename := ⟨s.fresh filename c, rfl, rfl, rfl⟩

/-- `cache_get_ti` takes out the entry that it finds before it adds one. -/
theorem cacheGetTi_effect (s : State) (filename : Text) (force skipTrackInfo : Bool)
    (contents : Option Contents) (memory : Int64) :
    Drops s (s.cacheGetTi filename force skipTrackInfo contents memory) ∨
    (s.table.lookup Info.filename filename = none ∧
      Adds s (s.cacheGetTi filename force skipTrackInfo contents memory) filename) ∨
    ∃ ti, s.table.lookup Info.filename filename = some ti ∧
      Adds (s.doCacheRemoveTi ti) (s.cacheGetTi filename force skipTrackInfo contents memory)
        filename := by
  unfold cacheGetTi
  split
  · rename_i ti hti
    split
    · split
      · exact .inr (.inr ⟨ti, hti, load_adds ..⟩)
      · exact .inl (doCacheRemoveTi_drops s ti)
    · exact .inl ⟨rfl, .inl rfl⟩
  · rename_i hnone
    split
    · exact .inr (.inl ⟨hnone, load_adds ..⟩)
    · split
      · exact .inr (.inl ⟨hnone, load_adds ..⟩)
      · exact .inl (.refl s)

theorem refAll_same (s : State) (tis : List Info) :
    (s.refAll tis).made = s.made ∧ (s.refAll tis).table = s.table := by
  unfold refAll
  induction tis generalizing s with
  | nil => exact ⟨rfl, rfl⟩
  | cons ti rest ih => exact ih (s.trackInfoRef ti)

/-- **What a step does to the table**. -/
theorem step_effect (h : s.step a = some t) :
    Drops s t ∨
    (∃ c ti, a = .read (some c) ∧ s.reading = some ti ∧ Adds s t ti.filename) ∨
    (∃ name, s.table.lookup Info.filename name = none ∧ Adds s t name ∧
      ∀ c, a ≠ .read (some c)) ∨
    ∃ name ti, s.table.lookup Info.filename name = some ti ∧ Adds (s.doCacheRemoveTi ti) t name ∧
      ∀ c, a ≠ .read (some c) := by
  cases a with
  | start force =>
    dsimp only [step] at h
    split at h
    · cases h
    · obtain rfl := Option.some.inj h
      obtain ⟨hmade, htable⟩ := refAll_same s (s.table.sorted Info.filename)
      exact .inl ⟨hmade, .inl htable⟩
  | next stat =>
    dsimp only [step] at h
    split at h
    · rename_i force done ti rest hrefresh
      have hdrops := visit_drops s force ti stat
      split at h <;>
      · rename_i hvisit
        obtain rfl := Option.some.inj h
        rw [hvisit] at hdrops
        exact .inl hdrops
    · cases h
  | read contents =>
    dsimp only [step] at h
    split at h
    · rename_i force done ti rest hrefresh
      obtain rfl := Option.some.inj h
      rcases changed_effect s ti contents with ⟨-, hdrops⟩ | ⟨⟨c, rfl⟩, hadds⟩
      · exact .inl hdrops
      · exact .inr (.inl ⟨c, ti, rfl, by rw [reading, hrefresh]; rfl, hadds⟩)
    · cases h
  | getTi filename force skipTrackInfo contents memory =>
    dsimp only [step] at h
    split at h
    · cases h
    · obtain rfl := Option.some.inj h
      rcases cacheGetTi_effect s filename force skipTrackInfo contents memory with
        hdrops | ⟨hnone, hadds⟩ | ⟨ti, hti, hadds⟩
      · exact .inl hdrops
      · exact .inr (.inr (.inl ⟨filename, hnone, hadds, nofun⟩))
      · exact .inr (.inr (.inr ⟨filename, ti, hti, hadds, nofun⟩))
  | removeTi ti =>
    dsimp only [step] at h
    split at h
    · cases h
    · exact Option.some.inj h ▸ .inl (doCacheRemoveTi_drops s ti)
  | finish =>
    dsimp only [step] at h
    split at h
    · exact Option.some.inj h ▸ .inl ⟨rfl, .inl rfl⟩
    · cases h
  | ref | unref | handle =>
    dsimp only [step] at h
    split at h
    · cases h
    · exact Option.some.inj h ▸ .inl ⟨rfl, .inl rfl⟩

/-! ### Entries -/

theorem Drops.sound (h : Drops s t) (hs : s.table.Sound Info.filename) :
    t.table.Sound Info.filename := by
  rcases h.2 with htable | ⟨ti, htable⟩
  · rwa [htable]
  · rw [htable]
    exact hs.removeTi ti

theorem Drops.subperm (h : Drops s t) (hs : s.table.Sound Info.filename) :
    t.table.entries.Subperm s.table.entries := by
  rcases h.2 with htable | ⟨ti, htable⟩
  · rw [htable]
  · rw [htable]
    exact (hs.entries_removeTi ti).subperm.trans List.erase_sublist.subperm

theorem Drops.distinct (h : Drops s t) (hs : s.table.Sound Info.filename) (hd : s.Distinct) :
    t.Distinct := by
  obtain ⟨l, hperm, hsub⟩ := h.subperm hs
  exact (hperm.map Info.filename).nodup_iff.mp ((hsub.map Info.filename).nodup hd)

theorem Drops.newest (h : Drops s t) (hs : s.table.Sound Info.filename) (hn : s.Newest) :
    t.Newest := by
  intro ti hti
  rw [h.1]
  exact hn ti ((h.subperm hs).subset hti)

theorem Adds.sound {filename : Text} (h : Adds s t filename)
    (hs : s.table.Sound Info.filename) : t.table.Sound Info.filename := by
  obtain ⟨new, -, -, htable⟩ := h
  rw [htable]
  exact hs.addTi new

/-- One more entry is one too many where there is one for its file. -/
theorem Adds.distinct_iff {filename : Text} (h : Adds s t filename) (hd : s.Distinct) :
    t.Distinct ↔ ∀ u ∈ s.table.entries, u.filename ≠ filename := by
  obtain ⟨new, hname, -, htable⟩ := h
  have hperm := (s.table.entries_addTi Info.filename new).map Info.filename
  rw [Distinct, htable, hperm.nodup_iff, List.map_cons, List.nodup_cons, hname, List.mem_map]
  constructor
  · rintro ⟨hnew, -⟩ u hu rfl
    exact hnew ⟨u, hu, rfl⟩
  · intro hall
    exact ⟨fun ⟨u, hu, heq⟩ => hall u hu heq, hd⟩

theorem Adds.newest {filename : Text} (h : Adds s t filename) (hn : s.Newest)
    (hall : ∀ u ∈ s.table.entries, u.filename ≠ filename) : t.Newest := by
  obtain ⟨new, rfl, hmade, htable⟩ := h
  intro ti hti
  rw [htable, (s.table.entries_addTi Info.filename new).mem_iff] at hti
  rw [hmade]
  rcases List.mem_cons.mp hti with rfl | hti
  · exact List.find?_cons_of_pos (by simp)
  · have hne : ¬ new.filename = ti.filename := fun heq => hall ti hti heq.symm
    rw [List.find?_cons_of_neg (by simpa using hne)]
    exact hn ti hti

/-- Out of the table the entry that was found leaves none for its file. -/
theorem ne_of_lookup_some {name : Text} {ti : Info} (hd : s.Distinct)
    (h : s.table.lookup Info.filename name = some ti) :
    ∀ u ∈ (s.doCacheRemoveTi ti).table.entries, u.filename ≠ name := by
  obtain ⟨rfl, hmem⟩ := Table.lookup_some h
  have hperm := (Table.entries_perm_removeTi hmem).map Info.filename
  have hnodup := hperm.nodup_iff.mp hd
  rw [List.map_cons, List.nodup_cons] at hnodup
  intro u hu heq
  rw [doCacheRemoveTi, if_pos hmem] at hu
  exact hnodup.1 (List.mem_map.mpr ⟨u, hu, heq⟩)

/-! ### One step -/

theorem apart_of_ne (h : ∀ c, a ≠ .read (some c)) : Apart s a := by
  unfold Apart
  split
  · exact absurd rfl (h _)
  · trivial

theorem apart_read_iff {c : Contents} {ti : Info} (h : s.reading = some ti) :
    Apart s (.read (some c)) ↔ ∀ u ∈ s.table.entries, u.filename ≠ ti.filename := by
  simp only [Apart, h, Option.mem_def, Option.some.injEq, forall_eq']

/-- A file that is read and not there leaves nothing to add. -/
theorem drops_of_not_apart (h : s.step a = some t) (hdrops : Drops s t) : Apart s a := by
  by_contra hapart
  unfold Apart at hapart
  split at hapart
  · rename_i c
    dsimp only [step] at h
    split at h
    · rename_i force done ti rest hrefresh
      have hlength : t.made.length = s.made.length := by rw [hdrops.1]
      obtain rfl := Option.some.inj h
      rcases changed_effect s ti (some c) with ⟨hnone, -⟩ | ⟨-, new, -, hmade, -⟩
      · cases hnone
      · exact absurd (congrArg List.length hmade) (by rw [List.length_cons, hdrops.1]; omega)
    · cases h
  · exact hapart trivial

/-- **One step**: the entries stay counted, and distinct under exactly the condition. -/
theorem step_sound (hs : s.table.Sound Info.filename) (h : s.step a = some t) :
    t.table.Sound Info.filename ∧
    (s.Distinct → (t.Distinct ↔ Apart s a)) ∧
    (s.Distinct → s.Newest → Apart s a → t.Newest) := by
  rcases step_effect h with hdrops | ⟨c, ti, rfl, hreading, hadds⟩ |
    ⟨name, hnone, hadds, hread⟩ | ⟨name, ti, hti, hadds, hread⟩
  · refine ⟨hdrops.sound hs, fun hd => ?_, fun _ hn _ => hdrops.newest hs hn⟩
    exact iff_of_true (hdrops.distinct hs hd) (drops_of_not_apart h hdrops)
  · rw [apart_read_iff hreading]
    exact ⟨hadds.sound hs, hadds.distinct_iff, fun _ => hadds.newest⟩
  · have hall : ∀ u ∈ s.table.entries, u.filename ≠ name := fun u hu => hs.lookup_none hnone hu
    refine ⟨hadds.sound hs, fun hd => ?_, fun _ hn _ => hadds.newest hn hall⟩
    exact iff_of_true ((hadds.distinct_iff hd).mpr hall) (apart_of_ne hread)
  · have hremove := doCacheRemoveTi_drops s ti
    refine ⟨hadds.sound (hremove.sound hs), fun hd => ?_, fun hd hn _ => ?_⟩
    · have hall := ne_of_lookup_some hd hti
      exact iff_of_true ((hadds.distinct_iff (hremove.distinct hs hd)).mpr hall)
        (apart_of_ne hread)
    · exact hadds.newest (hremove.newest hs hn) (ne_of_lookup_some hd hti)

/-! ### Runs -/

theorem Start.newest (h : Start s) : s.Newest := by
  intro ti hti
  rw [h.made]
  obtain ⟨u, hu⟩ := Option.isSome_iff_exists.mp
    (List.find?_isSome.mpr ⟨ti, hti, decide_eq_true rfl⟩ :
      (s.table.entries.find? fun u => u.filename = ti.filename).isSome)
  have hname : u.filename = ti.filename := by simpa using List.find?_some hu
  rw [hu, List.inj_on_of_nodup_map h.distinct (List.mem_of_find?_eq_some hu) hti hname]

/-- **The cache keeps its promise** in exactly the runs in which the refresh never adds what
it has read to an entry that somebody has put into the place of its own. All entries are
counted in every run. -/
theorem cache_refresh_good {history : List Action} (hs : Start s)
    (hrun : Runs.run step s history = some t) :
    t.table.total = t.table.entries.length ∧
    (Runs.Always step Good s history ↔ Runs.Along step Apart s history) := by
  have hcounted : t.table.Sound Info.filename :=
    Runs.run_preserves (I := fun s => s.table.Sound Info.filename)
      (fun s a t hs ht => (step_sound hs ht).1) s t history hs.sound hrun
  refine ⟨hcounted.counted, ?_⟩
  have hlegal := Runs.along_of_run hrun
  have hdistinct : Runs.Always step Distinct s history ↔ Runs.Along step Apart s history :=
    Runs.always_iff_along (fun s a hs hd ⟨t, ht⟩ =>
      ⟨t, ht, (step_sound hs ht).1, (step_sound hs ht).2.1 hd⟩) s history hs.sound hs.distinct
      hlegal
  have hall : Runs.Always step
      (fun s => s.table.Sound Info.filename ∧ s.Distinct ∧ s.Newest) s history ↔
      Runs.Along step Apart s history := by
    refine Runs.always_iff_along (I := fun _ => True) ?_ s history trivial
      ⟨hs.sound, hs.distinct, hs.newest⟩ hlegal
    rintro s a - ⟨hsound, hd, hn⟩ ⟨t, ht⟩
    obtain ⟨hsound', hd', hn'⟩ := step_sound hsound ht
    exact ⟨t, ht, trivial, fun h => (hd' hd).mp h.2.1,
      fun hok => ⟨hsound', (hd' hd).mpr hok, hn' hd hn hok⟩⟩
  constructor
  · intro h
    exact hdistinct.mp (h.mono fun s => Good.distinct)
  · intro h
    exact (hall.mpr h).mono fun s hs => ⟨hs.2.1, hs.1.counted, fun _ => hs.2.2⟩

/-! ### A single entry -/

/-- A cache of one entry, to which nobody else has a reference. -/
def single (ti : Info) : State where
  table := Table.empty.addTi Info.filename ti
  made := [ti]
  refCount := Function.update (fun _ => 0) ti.uid 1
  held _ := 0
  refresh := none
  results := []

/-- The refresh of it before its first round. -/
def singleStarted (ti : Info) (force : Bool) : State :=
  {(single ti).trackInfoRef ti with refresh := some ⟨force, [], none, [ti]⟩}

theorem entries_single (ti : Info) : (single ti).table.entries = [ti] := by
  have hperm := Table.empty.entries_addTi Info.filename ti
  rw [Table.entries_empty] at hperm
  exact List.perm_singleton.mp hperm

theorem start_single (ti : Info) : Start (single ti) := by
  refine ⟨Table.Sound.empty.addTi ti, ?_, (entries_single ti).symm, rfl⟩
  rw [Distinct, entries_single]
  exact List.nodup_singleton _

theorem step_start_single (ti : Info) (force : Bool) :
    (single ti).step (.start force) = some (singleStarted ti force) := by
  have hsorted : (single ti).table.sorted Info.filename = [ti] := by
    refine List.perm_singleton.mp ((Table.sorted_perm ..).trans ?_)
    rw [entries_single]
  have htotal : (single ti).table.total = 1 := rfl
  dsimp only [step]
  rw [hsorted, htotal]
  rfl

def silent : Info := ⟨0, ascii "/a", 1, 0⟩

/-- The file has changed since it was read, and nobody comes between. -/
theorem cache_refresh_good_changed :
    ∃ t, Runs.run step (single silent) [.start false, .next (some 2), .read (some ⟨2, 10⟩)] = some t ∧
      t.table.total = t.table.entries.length ∧
      (Runs.Always step Good (single silent)
        [.start false, .next (some 2), .read (some ⟨2, 10⟩)] ↔
      Runs.Along step Apart (single silent)
        [.start false, .next (some 2), .read (some ⟨2, 10⟩)]) := by
  have hrun : ∃ t, Runs.run step (single silent)
      [.start false, .next (some 2), .read (some ⟨2, 10⟩)] = some t := by
    rw [Runs.run, step_start_single, Option.bind_some]
    exact Option.isSome_iff_exists.mp (by decide +kernel)
  obtain ⟨t, ht⟩ := hrun
  exact ⟨t, ht, cache_refresh_good (start_single silent) ht⟩

/-- **Two entries for a file**: the file is played, and its entry made again as it has no
duration, while the refresh waits for the lock before its round. -/
theorem played_file_entered_twice :
    ∃ t, Runs.run step (single silent) [.start false,
      .getTi (ascii "/a") false false (some ⟨2, 10⟩) 0, .next (some 2), .read (some ⟨2, 10⟩),
      .finish] = some t ∧ t.table.entries.map Info.filename = [ascii "/a", ascii "/a"] := by
  rw [Runs.run, step_start_single, Option.bind_some]
  have hrun : (Runs.run step (singleStarted silent false) [
      .getTi (ascii "/a") false false (some ⟨2, 10⟩) 0, .next (some 2), .read (some ⟨2, 10⟩),
      .finish]).any (fun t => t.table.entries.map Info.filename = [ascii "/a", ascii "/a"]) := by
    decide +kernel
  obtain ⟨t, ht, htwice⟩ := (Option.any_eq_true _ _).mp hrun
  exact ⟨t, ht, of_decide_eq_true htwice⟩

end State

end GracefulMusic.Cache.Refresh
