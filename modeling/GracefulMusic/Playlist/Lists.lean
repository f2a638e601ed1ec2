import GracefulMusic.Playlist.Playlists
import GracefulMusic.Tracks.Linked

/-! The lists of a playlist: its editable and its shuffle tree hold the same tracks. -/
namespace GracefulMusic.Pl
open Tracks

variable {P : Type} [DecidableEq P]

/-! ### Shuffle lists -/

theorem shuffleInsert_perm {root : List P} {previous : Option P} {next : P} (hroot : root.Nodup)
    (hnext : next ∈ root) (hprevious : ∀ p ∈ previous, p ∈ root) :
    (shuffleInsert root previous next).Perm root := by
  rw [shuffleInsert]
  split
  · exact .refl _
  · rename_i hne
    refine (Sequence.insertAfter_perm next (hroot.erase next) fun p hp => ?_).trans
      (List.perm_cons_erase hnext).symm
    refine (List.mem_erase_of_ne ?_).mpr (hprevious p hp)
    intro heq
    subst heq
    exact hne hp

section
variable {o : Options} {order root : List P}

/-- A step in the shuffle list stays in it. -/
theorem shuffleListGetNext_spec (horder : order.Perm root) (cur : Option P) :
    (shuffleListGetNext o order root cur).1.Perm root ∧
      ∀ t ∈ (shuffleListGetNext o order root cur).2, t ∈ root := by
  have hre : (if o.autoReshuffle then order else root).Perm root := by
    split
    · exact horder
    · exact .refl _
  have hfirst : ∀ t ∈ (if o.autoReshuffle then order else root).head?, t ∈ root :=
    fun t ht => hre.mem_iff.mp (List.mem_of_mem_head? ht)
  cases cur with
  | none => exact ⟨hre, hfirst⟩
  | some cur =>
    rw [shuffleListGetNext]
    cases h : Sequence.after root cur with
    | some track =>
      refine ⟨.refl _, fun t ht => ?_⟩
      obtain rfl := Option.some.inj ht
      exact Sequence.mem_of_after h
    | none =>
      by_cases hrep : o.repeats = true
      · simp only [if_pos hrep]
        exact ⟨hre, hfirst⟩
      · simp only [if_neg hrep]
        exact ⟨.refl _, nofun⟩

theorem shuffleListGetPrev_spec (horder : order.Perm root) (cur : P) :
    (shuffleListGetPrev o order root cur).1.Perm root ∧
      ∀ t ∈ (shuffleListGetPrev o order root cur).2, t ∈ root := by
  have hre : (if o.autoReshuffle then order else root).Perm root := by
    split
    · exact horder
    · exact .refl _
  rw [shuffleListGetPrev]
  cases h : (Sequence.before root cur).getLast? with
  | some track =>
    refine ⟨.refl _, fun t ht => ?_⟩
    obtain rfl := Option.some.inj ht
    exact Sequence.mem_of_before h
  | none =>
    by_cases hrep : o.repeats = true
    · simp only [if_pos hrep]
      exact ⟨hre, fun t ht => hre.mem_iff.mp (List.mem_of_getLast? ht)⟩
    · simp only [if_neg hrep]
      exact ⟨.refl _, nofun⟩

/-- A shuffle list with tracks has a first one. -/
theorem shuffleListGetNext_first (horder : order.Perm root) (hroot : root ≠ []) :
    (shuffleListGetNext o order root none).2 ≠ none := by
  rw [shuffleListGetNext]
  split
  · exact fun h => hroot (List.perm_nil.mp (List.head?_eq_none_iff.mp h ▸ horder).symm)
  · exact fun h => hroot (List.head?_eq_none_iff.mp h)

theorem simpleListGetNext_mem {l : List P} {cur t : P} (h : simpleListGetNext o l cur = some t) :
    t ∈ l := by
  rw [simpleListGetNext] at h
  split at h
  · rename_i track hafter
    cases h
    exact Sequence.mem_of_after hafter
  · split at h
    · exact List.mem_of_mem_head? h
    · cases h

theorem simpleListGetPrev_mem {l : List P} {cur t : P} (h : simpleListGetPrev o l cur = some t) :
    t ∈ l := by
  rw [simpleListGetPrev] at h
  split at h
  · rename_i track hbefore
    cases h
    exact Sequence.mem_of_before hbefore
  · split at h
    · exact List.mem_of_getLast? h
    · cases h

end

/-! ### Removals -/

structure Sound (pl : Playlist P) : Prop where
  linked : Linked pl.editable
  shuffle : pl.shuffleRoot.Perm pl.editable.head

namespace Sound
variable (mem : Memory P) {pl : Playlist P}

theorem addTrack (h : Sound pl) {track : P} (hfresh : track ∉ pl.editable.head) (ti : TrackInfo)
    (place : Nat) :
    Sound (pl.addTrack mem track ti place) ∧
      (pl.addTrack mem track ti place).editable.head.Perm (track :: pl.editable.head) := by
  obtain ⟨hlinked, hperm⟩ := h.linked.add mem.rb mem.fieldCmp ti hfresh
  refine ⟨⟨hlinked, ?_⟩, hperm⟩
  refine List.perm_middle.trans (.trans ?_ hperm.symm)
  rw [List.take_append_drop]
  exact h.shuffle.cons _

theorem removeTrack (h : Sound pl) {t : P} (ht : t ∈ pl.editable.head) :
    ∃ pl', pl.removeTrack mem t = some pl' ∧ Sound pl' ∧
      pl'.editable.head = pl.editable.head.erase t := by
  obtain ⟨e, he, hlinked, hhead, -⟩ := h.linked.removeTrack mem.rb ht
  refine ⟨⟨e, pl.shuffleRoot.erase t⟩, by rw [Playlist.removeTrack, he]; rfl, ⟨hlinked, ?_⟩, hhead⟩
  show (pl.shuffleRoot.erase t).Perm e.head
  rw [hhead]
  exact h.shuffle.erase t

/-- The walk of the removal loops. -/
theorem removeWhere (h : Sound pl) (p : P → Bool) :
    ∃ pl', pl.removeWhere mem p = some pl' ∧ Sound pl' ∧
      ∀ t, t ∈ pl'.editable.head ↔ t ∈ pl.editable.head ∧ p t = false := by
  obtain ⟨pl', hrun, h', hhead⟩ := Sequence.removal_walk
    (fun pl : Playlist P => pl.editable.head) Sound (fun _ h => h.linked.nodup)
    (fun _ _ h ht => h.removeTrack mem ht) (p := fun _ => p) (fun _ _ _ => rfl) h
  refine ⟨pl', hrun, h', fun t => ?_⟩
  rw [hhead, List.mem_filter, Bool.not_eq_true']

theorem clear (h : Sound pl) :
    ∃ pl', pl.clear mem = some pl' ∧ Sound pl' ∧ ∀ t, t ∉ pl'.editable.head := by
  obtain ⟨pl', hrun, h', hmem⟩ := h.removeWhere mem fun _ => true
  exact ⟨pl', hrun, h', fun t ht => nomatch ((hmem t).mp ht).2⟩

/-- The tracks that a removal of the selection takes: those marked, if there are any. -/
def Taken (e : Editable P) (sel : Option P) (t : P) : Prop :=
  if e.nrMarked ≠ 0 then e.marked t = true else sel = some t

theorem removeSel (h : Sound pl) {sel : Option P} (hsel : ∀ t ∈ sel, t ∈ pl.editable.head) :
    ∃ pl', pl.removeSel mem sel = some pl' ∧ Sound pl' ∧
      ∀ t, t ∈ pl'.editable.head ↔ t ∈ pl.editable.head ∧ ¬ Taken pl.editable sel t := by
  unfold Playlist.removeSel Taken
  by_cases hmarked : pl.editable.nrMarked ≠ 0
  · simp only [if_pos hmarked]
    obtain ⟨pl', hrun, h', hmem⟩ := h.removeWhere mem pl.editable.marked
    exact ⟨pl', hrun, h', fun t => (hmem t).trans (by simp)⟩
  · simp only [if_neg hmarked]
    cases sel with
    | none => exact ⟨pl, rfl, h, by simp⟩
    | some u =>
      obtain ⟨pl', hrun, h', hhead⟩ := h.removeTrack mem (hsel u rfl)
      refine ⟨pl', hrun, h', fun t => ?_⟩
      rw [hhead, h.linked.nodup.mem_erase_iff, and_comm, Option.some.injEq, eq_comm]

theorem updateTrack (h : Sound pl) (old : TrackInfo) (new : Option TrackInfo) :
    ∃ pl', pl.updateTrack mem old new = some pl' ∧ Sound pl' ∧
      ∀ t, t ∈ pl'.editable.head ↔
        t ∈ pl.editable.head ∧ ¬ (new = none ∧ pl.editable.info t = old) := by
  cases new with
  | some new => exact ⟨_, rfl, ⟨h.linked.congr rfl rfl rfl, h.shuffle⟩, by simp⟩
  | none =>
    obtain ⟨pl', hrun, h', hmem⟩ := h.removeWhere mem fun t => pl.editable.info t = old
    exact ⟨pl', hrun, h', fun t => (hmem t).trans (by simp)⟩

end Sound

end GracefulMusic.Pl
