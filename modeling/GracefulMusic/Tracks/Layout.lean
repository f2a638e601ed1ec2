import GracefulMusic.Tracks.Linked
import GracefulMusic.Window.Changes

/-! Where tracks are moved to by hand (`move_sel` in `editable.c`), with the window.

The tracks that are moved leave the list one by one, and then stand behind one of those
that stay, or behind the head. The window is told of each row that leaves. -/
namespace Sequence
variable {α : Type*} [DecidableEq α]

/-- Linking cells behind the last of the front puts them between front and back. -/
theorem foldl_insertAfter_gap {front : List α} (xs : List α) {back : List α}
    (h : (front ++ (xs ++ back)).Nodup) :
    xs.foldl (fun l x => insertAfter x front.getLast? l) (front ++ back) =
      front ++ (xs.reverse ++ back) := by
  induction xs generalizing back with
  | nil => rfl
  | cons x xs ih =>
    have hnext : insertAfter x front.getLast? (front ++ back) = front ++ x :: back := by
      rcases List.eq_nil_or_concat front with rfl | hconcat
      · rfl
      · obtain ⟨init, a, rfl⟩ := hconcat
        rw [List.concat_eq_append] at h ⊢
        rw [List.append_assoc, List.singleton_append] at h
        have hout := (List.nodup_middle.mp h).notMem
        have hfresh : a ∉ init ++ back := by
          intro ha
          apply hout
          simp only [List.mem_append, List.mem_cons] at ha ⊢
          tauto
        rw [List.getLast?_concat, List.append_assoc, List.singleton_append,
          insertAfter_split x hfresh, List.append_assoc, List.singleton_append]
    have hperm : (front ++ (x :: xs ++ back)).Perm (front ++ (xs ++ x :: back)) :=
      List.perm_middle.symm.append_left front
    rw [List.foldl_cons, hnext, ih (hperm.nodup_iff.mp h), List.reverse_cons, List.append_assoc]
    rfl

end Sequence

namespace GracefulMusic.Tracks
variable {P : Type} [DecidableEq P] {e : Editable P}

namespace Editable

/-- The marked tracks, or the selected one where none is marked. -/
def movedTracks (e : Editable P) (t : P) : List P :=
  if e.nrMarked ≠ 0 then e.head.filter e.marked else [t]

/-- The tracks that stay, in front of the ones moved after the selected track `t` and behind
them. Behind the last track comes the first. -/
def stayAfter (e : Editable P) (front : List P) (t : P) (back : List P) : List P × List P :=
  if e.nrMarked ≠ 0 then
    ((front ++ [t]).filter fun u => !e.marked u, back.filter fun u => !e.marked u)
  else
    match back with
    | [] => ([], front)
    | next :: rest => (front ++ [next], rest)

/-- The same for the ones moved before the selected track. -/
def stayBefore (e : Editable P) (front : List P) (t : P) (back : List P) : List P × List P :=
  if e.nrMarked ≠ 0 then
    (front.filter fun u => !e.marked u, (t :: back).filter fun u => !e.marked u)
  else if front = [] then (back, [])
  else (front.dropLast, front.getLast?.toList ++ back)

end Editable

/-- The tracks stay what they are, and so do marks and counters; the moved ones are linked
between two parts of the others. -/
structure MovedTo (e e' : Editable P) (stay : List P × List P) (moved : List P) : Prop where
  head : e'.head = stay.1 ++ (moved ++ stay.2)
  others : stay.1 ++ stay.2 = e.head.filter fun u => u ∉ moved
  perm : e'.head.Perm e.head
  linked : Linked e'
  info : e'.info = e.info
  marked : e'.marked = e.marked
  nrTracks : e'.nrTracks = e.nrTracks
  nrMarked : e'.nrMarked = e.nrMarked
  totalTime : e'.totalTime = e.totalTime
  sortKeys : e'.sortKeys = e.sortKeys

theorem resetTree_fields {e e' : Editable P} (h : e.resetTree = some e') :
    e'.head = e.head ∧ e'.info = e.info ∧ e'.marked = e.marked ∧ e'.nrTracks = e.nrTracks ∧
      e'.nrMarked = e.nrMarked ∧ e'.totalTime = e.totalTime ∧ e'.sortKeys = e.sortKeys := by
  rw [Editable.resetTree] at h
  split at h
  · split at h
    · obtain rfl := Option.some.inj h
      exact ⟨rfl, rfl, rfl, rfl, rfl, rfl, rfl⟩
    · obtain rfl := Option.some.inj h
      exact ⟨rfl, rfl, rfl, rfl, rfl, rfl, rfl⟩
  · cases h

theorem moveSel_some (e : Editable P) (t : P) (after : Option P) : e.moveSel (some t) after =
    ({e with index := {e.index with
      head := (e.movedTracks t).reverse.foldl (fun l x => Sequence.insertAfter x after l)
        (if e.nrMarked ≠ 0 then e.head.filter fun u => !e.marked u
          else e.head.erase t)}} : Editable P).resetTree := by
  unfold Editable.moveSel Editable.movedTracks
  by_cases hmarked : e.nrMarked ≠ 0
  · simp only [if_pos hmarked]
  · simp only [if_neg hmarked]
    rfl

theorem stay_eq_filter (h : e.head.Nodup) (t : P) :
    (if e.nrMarked ≠ 0 then e.head.filter fun u => !e.marked u else e.head.erase t) =
      e.head.filter fun u => u ∉ e.movedTracks t := by
  unfold Editable.movedTracks
  split
  · apply List.filter_congr
    intro u hu
    simp [List.mem_filter, hu]
  · rw [h.erase_eq_filter]
    apply List.filter_congr
    intro u _
    simp [bne, beq_eq_decide]

/-- What stays and what is moved, as `move_sel` divides the list. -/
theorem moveSel_movedTo (h : Linked e) {t : P} {stay : List P × List P} {e' : Editable P}
    (hrun : e.moveSel (some t) stay.1.getLast? = some e') (hlinked : Linked e')
    (hperm : e'.head.Perm e.head) (hstay : stay.1 ++ stay.2 =
      if e.nrMarked ≠ 0 then e.head.filter fun u => !e.marked u else e.head.erase t)
    (ht : t ∈ e.head) : MovedTo e e' stay (e.movedTracks t) := by
  have hnodup := h.nodup
  have hall : (stay.1 ++ (e.movedTracks t ++ stay.2)).Perm e.head := by
    have hmiddle : (stay.1 ++ (e.movedTracks t ++ stay.2)).Perm
        (e.movedTracks t ++ (stay.1 ++ stay.2)) := by
      rw [← List.append_assoc, ← List.append_assoc]
      exact List.perm_append_comm.append_right stay.2
    refine hmiddle.trans ?_
    rw [hstay]
    unfold Editable.movedTracks
    split
    · exact List.filter_append_perm e.marked e.head
    · exact (List.perm_cons_erase ht).symm
  have hgap : (stay.1 ++ ((e.movedTracks t).reverse ++ stay.2)).Nodup := by
    refine List.Perm.nodup_iff ?_ |>.mpr hnodup
    exact ((List.reverse_perm _).append_right _ |>.append_left _).trans hall
  have hhead : e'.head = stay.1 ++ (e.movedTracks t ++ stay.2) := by
    have hlinks := Sequence.foldl_insertAfter_gap (e.movedTracks t).reverse hgap
    rw [List.reverse_reverse, hstay] at hlinks
    rw [← hlinks]
    rw [moveSel_some] at hrun
    exact (resetTree_fields hrun).1
  rw [moveSel_some] at hrun
  obtain ⟨-, hinfo, hmarks, htracks, hmarked, htime, hkeys⟩ := resetTree_fields hrun
  exact ⟨hhead, hstay.trans (stay_eq_filter hnodup t), hperm, hlinked, hinfo, hmarks, htracks,
    hmarked, htime, hkeys⟩

omit [DecidableEq P] in
/-- Going back to the nearest track that is not marked. -/
theorem skipMarked_eq (e : Editable P) (l : List P) :
    e.skipMarked l.reverse = (l.filter fun u => !e.marked u).getLast? := by
  rw [Editable.skipMarked, ← List.head?_filter, List.filter_reverse, List.head?_reverse]

section
variable {front back : List P} {t : P}

theorem findInsertAfterPoint_eq (hsplit : e.head = front ++ t :: back) (ht : t ∉ front) :
    e.findInsertAfterPoint t = (e.stayAfter front t back).1.getLast? := by
  unfold Editable.findInsertAfterPoint Editable.stayAfter
  rw [hsplit]
  by_cases hmarked : e.nrMarked = 0
  · rw [if_pos hmarked, if_neg (not_not.mpr hmarked), Sequence.after_split back ht]
    cases back with
    | nil => rfl
    | cons next rest =>
      dsimp only
      rw [List.getLast?_concat, List.head?_cons]
  · rw [if_neg hmarked, if_pos hmarked, Sequence.before, Sequence.takeWhile_split back ht]
    have hreverse : t :: front.reverse = (front ++ [t]).reverse := by simp
    rw [hreverse, skipMarked_eq]

theorem stayAfter_append (hsplit : e.head = front ++ t :: back) (ht : t ∉ front) :
    (e.stayAfter front t back).1 ++ (e.stayAfter front t back).2 =
      if e.nrMarked ≠ 0 then e.head.filter fun u => !e.marked u else e.head.erase t := by
  unfold Editable.stayAfter
  rw [hsplit]
  by_cases hmarked : e.nrMarked ≠ 0
  · rw [if_pos hmarked, if_pos hmarked, ← List.filter_append, List.append_assoc]
    rfl
  · rw [if_neg hmarked, if_neg hmarked, Sequence.erase_split back ht]
    cases back with
    | nil => simp
    | cons next rest => simp

theorem findInsertBeforePoint_eq (hsplit : e.head = front ++ t :: back) (ht : t ∉ front)
    (hmany : 1 < e.head.length) :
    e.findInsertBeforePoint t = (e.stayBefore front t back).1.getLast? := by
  have hbefore : Sequence.before e.head t = front := by
    rw [hsplit, Sequence.before, Sequence.takeWhile_split back ht]
  unfold Editable.findInsertBeforePoint Editable.stayBefore
  rw [hbefore]
  by_cases hmarked : e.nrMarked = 0
  · rw [if_pos hmarked, if_neg (not_not.mpr hmarked)]
    rcases List.eq_nil_or_concat front with rfl | hconcat
    · have hback : back ≠ [] := by
        intro hnil
        rw [hsplit, hnil] at hmany
        exact absurd hmany (by simp)
      rw [if_pos rfl, hsplit, List.nil_append, List.reverse_nil]
      exact List.getLast?_cons_of_ne_nil hback
    · obtain ⟨init, a, rfl⟩ := hconcat
      rw [List.concat_eq_append, if_neg (by simp),
        List.reverse_append, List.reverse_singleton, List.singleton_append, List.dropLast_concat]
      exact List.head?_reverse
  · rw [if_neg hmarked, if_pos hmarked, skipMarked_eq]

theorem stayBefore_append (hsplit : e.head = front ++ t :: back) (ht : t ∉ front) :
    (e.stayBefore front t back).1 ++ (e.stayBefore front t back).2 =
      if e.nrMarked ≠ 0 then e.head.filter fun u => !e.marked u else e.head.erase t := by
  unfold Editable.stayBefore
  rw [hsplit]
  by_cases hmarked : e.nrMarked ≠ 0
  · rw [if_pos hmarked, if_pos hmarked, ← List.filter_append]
  · rw [if_neg hmarked, if_neg hmarked, Sequence.erase_split back ht]
    rcases List.eq_nil_or_concat front with rfl | hconcat
    · rw [if_pos rfl]
      exact List.append_nil back
    · obtain ⟨init, a, rfl⟩ := hconcat
      rw [List.concat_eq_append, if_neg (by simp),
        List.dropLast_concat, List.getLast?_concat, List.append_assoc]
      rfl

/-- Where the tracks go that are moved after the selected one. -/
theorem moveAfter_movedTo (h : Linked e) (hkeys : e.sortKeys = []) (hmany : 1 < e.nrTracks)
    (hsplit : e.head = front ++ t :: back) :
    ∃ e', e.moveAfter (some t) = some e' ∧
      MovedTo e e' (e.stayAfter front t back) (e.movedTracks t) := by
  have ht : t ∈ e.head := by rw [hsplit]; simp
  have hnew : t ∉ front := fun hf =>
    (List.nodup_middle.mp (hsplit ▸ h.nodup)).notMem (List.mem_append_left _ hf)
  obtain ⟨e', hrun, hlinked, hperm⟩ := @Linked.moveAfter P e _ h (some t) fun u hu =>
    Option.some.inj hu ▸ ht
  refine ⟨e', hrun, moveSel_movedTo h ?_ hlinked hperm (stayAfter_append hsplit hnew) ht⟩
  rw [Editable.moveAfter, if_neg (by simp [hkeys]; omega)] at hrun
  rw [← findInsertAfterPoint_eq hsplit hnew]
  exact hrun

theorem moveBefore_movedTo (h : Linked e) (hkeys : e.sortKeys = []) (hmany : 1 < e.nrTracks)
    (hsplit : e.head = front ++ t :: back) :
    ∃ e', e.moveBefore (some t) = some e' ∧
      MovedTo e e' (e.stayBefore front t back) (e.movedTracks t) := by
  have ht : t ∈ e.head := by rw [hsplit]; simp
  have hnew : t ∉ front := fun hf =>
    (List.nodup_middle.mp (hsplit ▸ h.nodup)).notMem (List.mem_append_left _ hf)
  obtain ⟨e', hrun, hlinked, hperm⟩ := @Linked.moveBefore P e _ h (some t) fun u hu =>
    Option.some.inj hu ▸ ht
  refine ⟨e', hrun, moveSel_movedTo h ?_ hlinked hperm (stayBefore_append hsplit hnew) ht⟩
  rw [Editable.moveBefore, if_neg (by simp [hkeys]; omega)] at hrun
  rw [← findInsertBeforePoint_eq hsplit hnew (h.count ▸ hmany)]
  exact hrun

end

end GracefulMusic.Tracks
