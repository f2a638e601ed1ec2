import GracefulMusic.Window.Moves

/-! The selected row is visible.

Every operation keeps this as long as the rows it walks over are there: the functions that
go to the middle or the end of the page do not stop at the end of the list, and those that
look for a row that can be selected leave the page, or the list, where it has none. -/
namespace GracefulMusic
namespace Window
variable {ρ : Type} {w : Window ρ}

/-- Top and selection are rows of the list and the selection is visible; in an empty list
both are the head. -/
def Shows (w : Window ρ) : Prop :=
  if w.rows = [] then w.top = w.head ∧ w.sel = w.head
  else w.top < w.head ∧ w.sel < w.head ∧ w.top ≤ w.sel ∧ w.sel < w.top + w.nrRows

instance (w : Window ρ) : Decidable w.Shows := by
  have : Decidable (w.rows = []) := decidable_of_iff _ List.isEmpty_iff
  unfold Shows
  infer_instance

structure Good (w : Window ρ) : Prop where
  nrRows : 0 < w.nrRows
  shows : w.Shows

theorem head_pos_iff : 0 < w.head ↔ w.rows ≠ [] := List.length_pos_iff

theorem head_eq_zero_iff : w.head = 0 ↔ w.rows = [] := List.length_eq_zero_iff

namespace Good

theorem row (h : w.Good) (hrow : 0 < w.head) :
    w.top < w.head ∧ w.sel < w.head ∧ w.top ≤ w.sel ∧ w.sel < w.top + w.nrRows := by
  have hshows := h.shows
  rwa [Shows, if_neg (head_pos_iff.mp hrow)] at hshows

theorem ofRow (hnr : 0 < w.nrRows) (htop : w.top ≤ w.sel) (hsel : w.sel < w.head)
    (hvisible : w.sel < w.top + w.nrRows) : w.Good := by
  refine ⟨hnr, ?_⟩
  rw [Shows, if_neg (head_pos_iff.mp (Nat.zero_lt_of_lt hsel))]
  exact ⟨by omega, hsel, htop, hvisible⟩

theorem empty (h : w.Good) (hempty : w.head = 0) : w.top = 0 ∧ w.sel = 0 := by
  have hshows := h.shows
  rw [Shows, if_pos (head_eq_zero_iff.mp hempty), hempty] at hshows
  exact hshows

theorem ofEmpty (hnr : 0 < w.nrRows) (hempty : w.head = 0) (htop : w.top = 0)
    (hsel : w.sel = 0) : w.Good := by
  refine ⟨hnr, ?_⟩
  rw [Shows, if_pos (head_eq_zero_iff.mp hempty), hempty]
  exact ⟨htop, hsel⟩

theorem top_le_sel (h : w.Good) : w.top ≤ w.sel := by
  obtain hempty | hrow := Nat.eq_zero_or_pos w.head
  · rw [(h.empty hempty).1]
    exact Nat.zero_le _
  · exact (h.row hrow).2.2.1

theorem sel_le (h : w.Good) : w.sel ≤ w.head := by
  obtain hempty | hrow := Nat.eq_zero_or_pos w.head
  · rw [(h.empty hempty).2]
    exact Nat.zero_le _
  · exact (h.row hrow).2.1.le

theorem distance (h : w.Good) : w.distance w.sel w.head w.top = some (w.sel - w.top) :=
  distance_eq h.top_le_sel h.sel_le (by have := h.sel_le; omega)

end Good

/-! ### Up and down -/

theorem reach_empty (hempty : w.head = 0) (move : Nat → Nat) (bound i : Nat) :
    w.reach move bound i = 0 := by
  cases bound with
  | zero => rfl
  | succ bound => rw [reach, if_neg (by omega)]

theorem walk_empty (hempty : w.head = 0) (move : Nat → Nat) (rows : Nat) (k : Walk) :
    w.walk move rows w.head k = k := by
  rw [hempty, walk]

theorem Good.up (h : w.Good) (scrollOffset rows : Nat)
    (hsafe : rows ≤ w.nrSelectable 0 w.sel ∨ w.nrSelectable 0 w.sel = 0 ∨
      w.selectableAt 0 = true) :
    ∃ w', w.up scrollOffset rows = some w' ∧ w'.Good := by
  rw [Window.up, h.distance]
  simp only [Option.bind_eq_bind, Option.bind_some]
  obtain hempty | hrow := Nat.eq_zero_or_pos w.head
  · refine ⟨_, rfl, ?_⟩
    rw [walk_empty hempty]
    simp only [reach_empty hempty, if_true, Nat.zero_add, Nat.zero_sub, Function.iterate_zero, id]
    exact h
  · obtain ⟨htop, hsel, hle, hvisible⟩ := h.row hrow
    have hend : w.getPrev^[w.sel] w.sel = 0 := by
      rw [getPrev_iterate (Nat.le_refl _), Nat.sub_self]
    obtain ⟨e, he, hnew, hexact⟩ :=
      walk_exact (w := w) w.getPrev w.sel rows w.sel
        (fun j hj => by rw [getPrev_iterate hj.le, getPrev_pos (by omega)]; omega)
        (by rw [hend, getPrev_zero]; exact Nat.lt_irrefl _) hsel.le
        (by rwa [ahead_prev hsel, hend])
    generalize w.walk w.getPrev rows w.head ⟨w.sel, w.sel, 0, 0⟩ = k at hnew hexact ⊢
    rw [getPrev_iterate he] at hnew
    refine ⟨_, rfl, ?_⟩
    rw [hnew]
    generalize hub : (if k.moved = 0 then (_ : Nat) else _) = upperBound
    have hbound : upperBound ≤ w.nrRows / 2 := by
      rw [← hub]
      split <;> exact Nat.min_le_right _ _
    have htotal : k.moved + (if k.moved = 0 then 0 else k.skipped) = e := by
      rw [← hexact]
      split <;> omega
    rw [reach_prev _ (by omega), Nat.add_assoc, htotal, getPrev_iterate (by omega)]
    have hnr := h.nrRows
    apply Good.ofRow
    · exact hnr
    · dsimp only
      omega
    · show w.sel - e < w.head
      omega
    · dsimp only
      omega

theorem Good.down (h : w.Good) (scrollOffset rows : Nat)
    (hsafe : rows ≤ w.nrSelectable (w.sel + 1) w.head ∨ w.nrSelectable (w.sel + 1) w.head = 0 ∨
      w.selectableAt (w.head - 1) = true) :
    ∃ w', w.down scrollOffset rows = some w' ∧ w'.Good := by
  rw [Window.down, h.distance]
  simp only [Option.bind_eq_bind, Option.bind_some]
  have hnr := h.nrRows
  obtain hempty | hrow := Nat.eq_zero_or_pos w.head
  · refine ⟨_, rfl, ?_⟩
    rw [walk_empty hempty]
    simp only [reach_empty hempty, if_true]
    obtain ⟨htop, hsel⟩ := h.empty hempty
    have hstay : ((0 : Nat) + (0 : Nat) + (0 : Nat) -
        ((w.nrRows : Int) - 1 - (w.sel - w.top : Nat))).toNat = 0 := by omega
    rw [hstay]
    exact h
  · obtain ⟨htop, hsel, hle, hvisible⟩ := h.row hrow
    have hend : w.getNext^[w.head - 1 - w.sel] w.sel = w.head - 1 := by
      rw [getNext_iterate (by omega)]
      omega
    obtain ⟨e, he, hnew, hexact⟩ :=
      walk_exact (w := w) w.getNext w.sel rows (w.head - 1 - w.sel)
        (fun j hj => by rw [getNext_iterate (by omega), getNext_row (by omega)]; omega)
        (by rw [hend, getNext_row (by omega)]; omega) (by omega)
        (by rwa [ahead_next hsel, hend])
    generalize w.walk w.getNext rows w.head ⟨w.sel, w.sel, 0, 0⟩ = k at hnew hexact ⊢
    rw [getNext_iterate (by omega)] at hnew
    refine ⟨_, rfl, ?_⟩
    rw [hnew]
    generalize hub : (if k.moved = 0 then (_ : Int) else _) = upperBound
    have hbound : upperBound ≤ ((w.nrRows - 1) / 2 : Nat) := by
      rw [← hub]
      split <;> exact min_le_right _ _
    have htotal : k.moved + (if k.moved = 0 then 0 else k.skipped) = e := by
      rw [← hexact]
      split <;> omega
    rw [reach_next _ (by omega)]
    generalize hoffset : min upperBound.toNat (w.head - 1 - (w.sel + e)) = actualOffset
    have hdown : ((actualOffset : Int) + k.moved + (if k.moved = 0 then 0 else k.skipped : Nat) -
        ((w.nrRows : Int) - 1 - (w.sel - w.top : Nat))).toNat =
        actualOffset + w.sel + e - (w.nrRows - 1 + w.top) := by omega
    rw [hdown, getNext_iterate (by omega)]
    apply Good.ofRow
    · exact hnr
    · dsimp only
      omega
    · show w.sel + e < w.head
      omega
    · dsimp only
      omega

/-! ### A given row -/

theorem Good.setSel (h : w.Good) (scrollOffset : Nat) {iter : Nat} (hiter : iter < w.head) :
    ∃ w', w.setSel scrollOffset iter = some w' ∧ w'.Good := by
  obtain ⟨htop, hsel, hle, hvisible⟩ := h.row (Nat.zero_lt_of_lt hiter)
  have hnr := h.nrRows
  rw [Window.setSel, if_neg (by omega)]
  split
  · exact ⟨w, rfl, h⟩
  · simp only [getNext_head, distance_first htop.le, distance_first hiter.le,
      Option.bind_eq_bind, Option.bind_some]
    split
    · rename_i hup
      refine ⟨_, rfl, ?_⟩
      apply Good.ofRow
      · exact hnr
      · dsimp only
        split
        · omega
        · rw [getPrev_iterate (by omega)]
          omega
      · exact hiter
      · dsimp only
        split
        · omega
        · rw [getPrev_iterate (by omega)]
          omega
    · rename_i hdown
      split
      · rename_i hbelow
        refine ⟨_, rfl, ?_⟩
        rw [reach_next _ hiter]
        generalize hcount : min _ (w.head - 1 - iter) = count
        rw [getNext_iterate (k := iter + 1 - (w.top + w.nrRows)) (by omega),
          getNext_iterate (by omega)]
        apply Good.ofRow
        · exact hnr
        · dsimp only
          omega
        · exact hiter
        · dsimp only
          omega
      · rename_i hvisible
        refine ⟨_, rfl, ?_⟩
        rw [reach_next _ hiter]
        generalize hbelow : min _ (w.head - 1 - iter) = below
        rw [getNext_iterate (k := below) (by omega), reach_next _ (by omega)]
        generalize hbottom :
          (if below < w.top + w.nrRows - (iter + 1) then (_ : Nat) else _) = bottomNr
        generalize hcount : min (_ - bottomNr) _ = count
        have hcount : w.top + count ≤ iter := by
          split at hbottom <;> omega
        rw [getNext_iterate (by omega)]
        apply Good.ofRow
        · exact hnr
        · exact hcount
        · exact hiter
        · dsimp only
          omega

/-- The list is empty, and its head counts as selectable. -/
def Idle (w : Window ρ) : Prop := w.head = 0 ∧ w.selectable none = true

instance (w : Window ρ) : Decidable w.Idle := inferInstanceAs (Decidable (_ ∧ _))

theorem Idle.toSelectable (h : w.Idle) (move : Nat → Nat) : w.toSelectable move 0 = some 0 := by
  have hsel : w.selectableAt 0 = true := by
    rw [selectableAt, List.getElem?_eq_none (by have := h.1; rw [head] at this; omega)]
    exact h.2
  rw [Window.toSelectable, h.1, seek, if_pos hsel]

theorem getNext_empty (hempty : w.head = 0) (i : Nat) : w.getNext i = 0 :=
  if_neg (by omega)

theorem getNext_iterate_empty (hempty : w.head = 0) (k : Nat) : w.getNext^[k] 0 = 0 :=
  Function.iterate_fixed (getNext_empty hempty 0) k

theorem gotoTop_good (hnr : 0 < w.nrRows) (hsafe : w.Idle ∨ 0 < w.nrSelectable 0 w.nrRows) :
    ∃ w', w.gotoTop = some w' ∧ w'.Good := by
  rw [Window.gotoTop, getNext_head]
  obtain hidle | hrows := hsafe
  · rw [hidle.toSelectable]
    exact ⟨_, rfl, Good.ofEmpty hnr hidle.1 rfl rfl⟩
  · obtain ⟨i, -, hi, hrow, hsel⟩ := nrSelectable_pos.mp hrows
    obtain ⟨sel, hseek, -, hle⟩ := toSelectable_next (Nat.zero_le i) hrow hsel
    rw [hseek]
    exact ⟨_, rfl, Good.ofRow hnr (Nat.zero_le sel) (Nat.lt_of_le_of_lt hle hrow)
      (show sel < 0 + w.nrRows by omega)⟩

theorem Good.gotoBottom (h : w.Good)
    (hsafe : w.Idle ∨ 0 < w.nrSelectable (w.head - w.nrRows) w.head) :
    ∃ w', w.gotoBottom = some w' ∧ w'.Good := by
  rw [Window.gotoBottom]
  obtain hidle | hrows := hsafe
  · have hlast : w.getPrev w.head = 0 := by
      rw [hidle.1, getPrev_zero, hidle.1]
    rw [hlast, hidle.toSelectable, reach_empty hidle.1]
    exact ⟨_, rfl, Good.ofEmpty h.nrRows hidle.1 rfl rfl⟩
  · have hnr := h.nrRows
    obtain ⟨i, hlo, hi, hrow, hsel⟩ := nrSelectable_pos.mp hrows
    rw [getPrev_pos (by omega)]
    obtain ⟨sel, hseek, hle, hlast⟩ :=
      toSelectable_prev (i := w.head - 1) (by omega) (by omega) hsel
    rw [hseek, reach_prev _ (by omega), getPrev_iterate (Nat.min_le_right _ _)]
    refine ⟨_, rfl, ?_⟩
    apply Good.ofRow
    · exact hnr
    · dsimp only
      omega
    · show sel < w.head
      omega
    · dsimp only
      omega

/-! ### Pages and scrolling -/

theorem pageBack_empty (hempty : w.head = 0) (count sel top : Nat) :
    w.pageBack count sel top = w := by
  cases count with
  | zero => rfl
  | succ count => rw [Window.pageBack, if_neg (by omega)]

theorem pageForward_empty (hempty : w.head = 0) (count sel bot top : Nat) :
    w.pageForward count sel bot top = w := by
  cases count with
  | zero => rfl
  | succ count => rw [Window.pageForward, if_neg (by omega)]

theorem Good.pageBack (h : w.Good) (count : Nat) {sel top : Nat} (hsel : sel < w.head)
    (htop : top ≤ sel) (hdistance : sel - top = w.sel - w.top) : (w.pageBack count sel top).Good := by
  induction count generalizing w sel top with
  | zero => exact h
  | succ count ih =>
    rw [Window.pageBack]
    split
    · rename_i hrows
      have hpos : 0 < sel ∧ 0 < top := by
        constructor
        · by_contra hzero
          rw [Nat.eq_zero_of_not_pos hzero, getPrev_zero] at hrows
          omega
        · by_contra hzero
          rw [Nat.eq_zero_of_not_pos hzero, getPrev_zero] at hrows
          omega
      rw [getPrev_pos hpos.1, getPrev_pos hpos.2]
      have hold := h.row (by omega)
      split
      · refine ih ?_ (show sel - 1 < w.head by omega) (by omega) rfl
        exact Good.ofRow h.nrRows (show top - 1 ≤ sel - 1 by omega)
          (show sel - 1 < w.head by omega) (show sel - 1 < top - 1 + w.nrRows by omega)
      · exact ih h (by omega) (by omega) (by omega)
    · exact h

theorem Good.pageForward (h : w.Good) (count : Nat) {sel bot top : Nat} (hsel : sel < w.head)
    (htop : top ≤ sel) (hdistance : sel - top = w.sel - w.top) :
    (w.pageForward count sel bot top).Good := by
  induction count generalizing w sel bot top with
  | zero => exact h
  | succ count ih =>
    rw [Window.pageForward]
    split
    · rename_i hrows
      rw [getNext_row hsel] at hrows ⊢
      rw [getNext_row (by omega)]
      have hold := h.row (by omega)
      split
      · refine ih ?_ (show sel + 1 < w.head by omega) (by omega) rfl
        exact Good.ofRow h.nrRows (show top + 1 ≤ sel + 1 by omega)
          (show sel + 1 < w.head by omega) (show sel + 1 < top + 1 + w.nrRows by omega)
      · exact ih h (by omega) (by omega) (by omega)
    · exact h

theorem Good.pageUp (h : w.Good) : w.pageUp.Good := by
  obtain hempty | hrow := Nat.eq_zero_or_pos w.head
  · rw [Window.pageUp, pageBack_empty hempty]
    exact h
  · exact h.pageBack _ (h.row hrow).2.1 h.top_le_sel rfl

theorem Good.halfPageUp (h : w.Good) : w.halfPageUp.Good := by
  obtain hempty | hrow := Nat.eq_zero_or_pos w.head
  · rw [Window.halfPageUp, pageBack_empty hempty]
    exact h
  · exact h.pageBack _ (h.row hrow).2.1 h.top_le_sel rfl

theorem Good.pageDown (h : w.Good) : w.pageDown.Good := by
  obtain hempty | hrow := Nat.eq_zero_or_pos w.head
  · rw [Window.pageDown, pageForward_empty hempty]
    exact h
  · exact h.pageForward _ (h.row hrow).2.1 h.top_le_sel rfl

theorem Good.halfPageDown (h : w.Good) : w.halfPageDown.Good := by
  obtain hempty | hrow := Nat.eq_zero_or_pos w.head
  · rw [Window.halfPageDown, pageForward_empty hempty]
    exact h
  · exact h.pageForward _ (h.row hrow).2.1 h.top_le_sel rfl

theorem Good.bottom (h : w.Good) (hrow : 0 < w.head) :
    w.bottom + 1 = min (w.top + w.nrRows) w.head := by
  obtain ⟨htop, hsel, hle, hvisible⟩ := h.row hrow
  have hnr := h.nrRows
  rw [Window.bottom, reach_next _ htop, getNext_iterate (by omega)]
  omega

theorem Good.scrollDown (h : w.Good) (hsafe : w.top + w.nrRows < w.head →
      0 < w.nrSelectable (max w.sel (w.top + 1)) (w.top + w.nrRows + 1)) :
    ∃ w', w.scrollDown = some w' ∧ w'.Good := by
  rw [Window.scrollDown]
  split
  · rename_i hmore
    have hrow : 0 < w.head := Nat.zero_lt_of_lt hmore.1
    obtain ⟨htop, hsel, hle, hvisible⟩ := h.row hrow
    have hbottom := h.bottom hrow
    rw [getNext_row (by omega), getNext_row htop] at hmore
    obtain ⟨i, hlo, hi, hirow, hfound⟩ := nrSelectable_pos.mp (hsafe (by omega))
    have hstart : (if w.top = w.sel then w.getNext w.sel else w.sel) = max w.sel (w.top + 1) := by
      rw [getNext_row hsel]
      split <;> omega
    obtain ⟨sel, hseek, hge, hend⟩ := toSelectable_next hlo hirow hfound
    rw [hstart, hseek, getNext_row htop]
    refine ⟨_, rfl, ?_⟩
    apply Good.ofRow
    · exact h.nrRows
    · dsimp only
      omega
    · show sel < w.head
      omega
    · dsimp only
      omega
  · exact ⟨w, rfl, h⟩

theorem Good.scrollUp (h : w.Good) (hsafe : 0 < w.top → 0 < w.nrSelectable (w.top - 1)
      (min (w.sel + 1) (min (w.top + w.nrRows) w.head - 1))) :
    ∃ w', w.scrollUp = some w' ∧ w'.Good := by
  rw [Window.scrollUp]
  split
  · rename_i hmore
    have hrow : 0 < w.head := Nat.zero_lt_of_lt hmore
    obtain ⟨htop, hsel, hle, hvisible⟩ := h.row hrow
    have hbottom := h.bottom hrow
    have hpos : 0 < w.top := by
      by_contra hzero
      rw [Nat.eq_zero_of_not_pos hzero, getPrev_zero] at hmore
      exact Nat.lt_irrefl _ hmore
    obtain ⟨i, hlo, hi, hirow, hfound⟩ := nrSelectable_pos.mp (hsafe hpos)
    have hstart : (if w.bottom = w.sel then w.getPrev w.sel else w.sel) + 1 =
        min (w.sel + 1) (min (w.top + w.nrRows) w.head - 1) := by
      rw [getPrev_pos (by omega)]
      split <;> omega
    generalize (if w.bottom = w.sel then w.getPrev w.sel else w.sel) = start at hstart ⊢
    obtain ⟨sel, hseek, hge, hend⟩ :=
      toSelectable_prev (i := start) (Nat.le_of_lt_succ (by omega)) (by omega) hfound
    rw [hseek, getPrev_pos hpos]
    refine ⟨_, rfl, ?_⟩
    apply Good.ofRow
    · exact h.nrRows
    · dsimp only
      omega
    · show sel < w.head
      omega
    · dsimp only
      omega
  · exact ⟨w, rfl, h⟩

/-! ### Places on the page -/

theorem Good.pageTop (h : w.Good)
    (hsafe : w.Idle ∨ 0 < w.nrSelectable w.top (w.top + w.nrRows)) :
    ∃ w', w.pageTop = some w' ∧ w'.Good := by
  show ∃ w', ((w.toSelectable w.getNext w.top).bind fun sel => some {w with sel}) = some w' ∧ _
  obtain hidle | hrows := hsafe
  · have htop := (h.empty hidle.1).1
    rw [htop, hidle.toSelectable]
    exact ⟨_, rfl, Good.ofEmpty h.nrRows hidle.1 rfl rfl⟩
  · obtain ⟨i, hlo, hi, hrow, hsel⟩ := nrSelectable_pos.mp hrows
    obtain ⟨sel, hseek, hge, hle⟩ := toSelectable_next hlo hrow hsel
    rw [hseek]
    exact ⟨_, rfl, Good.ofRow h.nrRows hge (Nat.lt_of_le_of_lt hle hrow)
      (Nat.lt_of_le_of_lt hle hi)⟩

theorem Good.pageMiddle (h : w.Good) (hsafe : w.Idle ∨ w.top + w.nrRows / 2 < w.head ∧
      0 < w.nrSelectable (w.top + w.nrRows / 2) (w.top + w.nrRows)) :
    ∃ w', w.pageMiddle = some w' ∧ w'.Good := by
  show ∃ w', ((w.toSelectable w.getNext (w.getNext^[w.nrRows / 2] w.top)).bind
    fun sel => some {w with sel}) = some w' ∧ _
  obtain hidle | ⟨hinside, hrows⟩ := hsafe
  · have htop := (h.empty hidle.1).1
    rw [htop, getNext_iterate_empty hidle.1, hidle.toSelectable]
    exact ⟨_, rfl, Good.ofEmpty h.nrRows hidle.1 rfl rfl⟩
  · rw [getNext_iterate hinside.le]
    obtain ⟨i, hlo, hi, hrow, hsel⟩ := nrSelectable_pos.mp hrows
    obtain ⟨sel, hseek, hge, hle⟩ := toSelectable_next hlo hrow hsel
    rw [hseek]
    exact ⟨_, rfl, Good.ofRow h.nrRows (Nat.le_of_add_right_le hge) (Nat.lt_of_le_of_lt hle hrow)
      (Nat.lt_of_le_of_lt hle hi)⟩

theorem Good.pageBottom (h : w.Good) (hsafe : w.Idle ∨ w.top + w.nrRows ≤ w.head ∧
      0 < w.nrSelectable w.top (w.top + w.nrRows)) :
    ∃ w', w.pageBottom = some w' ∧ w'.Good := by
  show ∃ w', ((w.toSelectable w.getPrev (w.getNext^[w.nrRows - 1] w.top)).bind
    fun sel => some {w with sel}) = some w' ∧ _
  obtain hidle | ⟨hinside, hrows⟩ := hsafe
  · have htop := (h.empty hidle.1).1
    rw [htop, getNext_iterate_empty hidle.1, hidle.toSelectable]
    exact ⟨_, rfl, Good.ofEmpty h.nrRows hidle.1 rfl rfl⟩
  · have hnr := h.nrRows
    rw [getNext_iterate (by omega)]
    obtain ⟨i, hlo, hi, hrow, hsel⟩ := nrSelectable_pos.mp hrows
    obtain ⟨sel, hseek, hge, hle⟩ :=
      toSelectable_prev (i := w.top + (w.nrRows - 1)) (by omega) (by omega) hsel
    rw [hseek]
    exact ⟨_, rfl, Good.ofRow h.nrRows (hlo.trans hge) (show sel < w.head by omega)
      (show sel < w.top + w.nrRows by omega)⟩

end Window

end GracefulMusic
