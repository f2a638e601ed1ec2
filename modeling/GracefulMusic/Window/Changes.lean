import GracefulMusic.Window.Invariant

/-! Changes of the list under a window, and every run of a window.

`window_changed` brings the selected row back onto the page from wherever a change of the
list has left it, as long as the selection is a row. -/
namespace GracefulMusic
namespace Window
variable {ρ : Type} {w : Window ρ}

theorem below_le {fuel i : Nat} (hle : i ≤ w.sel) (hsel : w.sel < w.head)
    (hfuel : w.sel < i + fuel) : w.below fuel i = some (w.sel - i) := by
  induction fuel generalizing i with
  | zero => omega
  | succ fuel ih =>
    rw [below]
    split
    · rename_i heq
      rw [heq, Nat.sub_self]
    · rename_i hne
      have hlt : i < w.sel := by omega
      rw [getNext_row (by omega), if_pos (by omega), ih hlt (by omega), Option.map_some,
        Option.some.injEq]
      omega

theorem below_gt (fuel : Nat) {i : Nat} (hlt : w.sel < i) (hrow : i < w.head) :
    w.below fuel i = none := by
  induction fuel generalizing i with
  | zero => rfl
  | succ fuel ih =>
    rw [below, if_neg (by omega), getNext_row hrow]
    split
    · rename_i hnext
      rw [ih (by omega) hnext, Option.map_none]
    · rfl

theorem minimize_good (hnr : 0 < w.nrRows) (htop : w.top ≤ w.sel) (hsel : w.sel < w.head)
    (hvisible : w.sel < w.top + w.nrRows) : w.minimize.Good := by
  rw [minimize, reach_next _ (by omega), reach_prev _ (by omega), getPrev_iterate (by omega)]
  apply Good.ofRow
  · exact hnr
  · dsimp only
    omega
  · exact hsel
  · dsimp only
    omega

/-- The window is repaired from any two rows. -/
theorem changed_rows (hnr : 0 < w.nrRows) (htop : w.top < w.head) (hsel : w.sel < w.head) :
    ∃ w', w.changed = some w' ∧ w'.Good := by
  rw [changed, if_neg htop.ne]
  obtain hgt | hle := Nat.lt_or_ge w.sel w.top
  · rw [below_gt _ hgt htop]
    have hfound : (w.getPrev^[w.top - w.sel] w.top == w.sel) = true := by
      rw [getPrev_iterate (by omega), beq_iff_eq]
      omega
    obtain ⟨j, -, hseek, hend⟩ := seek_iterate w.getPrev (· == w.sel) w.head _ _ (by omega) hfound
    rw [beq_iff_eq] at hend
    rw [hseek, hend]
    exact ⟨_, rfl, minimize_good hnr (Nat.le_refl w.sel) hsel (Nat.lt_add_of_pos_right hnr)⟩
  · rw [below_le hle hsel (by omega)]
    refine ⟨_, rfl, ?_⟩
    rw [getNext_iterate (by omega)]
    apply minimize_good
    · exact hnr
    · dsimp only
      omega
    · exact hsel
    · dsimp only
      omega

/-- Where the top row is the head, both go to the first row, if there is one. -/
theorem changed_head (hnr : 0 < w.nrRows) (htop : w.top = w.head) :
    ∃ w', w.changed = some w' ∧ w'.Good := by
  rw [changed, if_pos htop, htop, getNext_head]
  refine ⟨_, rfl, ?_⟩
  obtain hempty | hrow := Nat.eq_zero_or_pos w.head
  · exact Good.ofEmpty hnr hempty rfl rfl
  · exact Good.ofRow hnr (Nat.le_refl 0) hrow (show 0 < 0 + w.nrRows by omega)

theorem Good.setNrRows (h : w.Good) (nrRows : Nat) :
    ∃ w', w.setNrRows nrRows = some w' ∧ w'.Good := by
  rw [Window.setNrRows]
  split
  · exact ⟨w, rfl, h⟩
  · rename_i hnr
    have hpos : 0 < nrRows := Nat.pos_of_ne_zero fun hzero => hnr (by omega)
    obtain hempty | hrow := Nat.eq_zero_or_pos w.head
    · exact changed_head hpos ((h.empty hempty).1.trans hempty.symm)
    · exact changed_rows hpos (h.row hrow).1 (h.row hrow).2.1

/-! ### Removed and added rows -/

theorem gap_pos {move : Nat → Nat} {fuel i : Nat} : 0 < w.gap move fuel i ↔
    ∃ k < fuel, (∀ j ≤ k, move^[j + 1] i < w.head) ∧
      w.selectableAt (move^[k + 1] i) = true := by
  induction fuel generalizing i with
  | zero => simp [gap]
  | succ fuel ih =>
    rw [gap]
    by_cases hrow : move i < w.head
    · rw [if_neg (not_not_intro hrow)]
      by_cases hsel : w.selectableAt (move i) = true
      · rw [if_pos hsel]
        refine iff_of_true Nat.one_pos ⟨0, Nat.succ_pos _, fun j hj => ?_, hsel⟩
        rw [Nat.le_zero.mp hj]
        exact hrow
      · have hgap : (0 < if w.gap move fuel (move i) = 0 then 0
            else w.gap move fuel (move i) + 1) ↔ 0 < w.gap move fuel (move i) := by
          split <;> omega
        rw [if_neg hsel, hgap, ih]
        constructor
        · intro h
          obtain ⟨k, hk, hrows, hfound⟩ := h
          refine ⟨k + 1, Nat.succ_lt_succ hk, fun j hj => ?_, hfound⟩
          cases j with
          | zero => exact hrow
          | succ j => exact hrows j (Nat.le_of_succ_le_succ hj)
        · intro h
          obtain ⟨k, hk, hrows, hfound⟩ := h
          cases k with
          | zero => exact absurd hfound hsel
          | succ k =>
            exact ⟨k, Nat.lt_of_succ_lt_succ hk,
              fun j hj => hrows (j + 1) (Nat.succ_le_succ hj), hfound⟩
    · rw [if_pos hrow]
      refine iff_of_false (Nat.lt_irrefl 0) fun h => ?_
      obtain ⟨k, -, hrows, -⟩ := h
      exact hrow (hrows 0 (Nat.zero_le k))

theorem gap_next {iter : Nat} (hiter : iter < w.head) :
    0 < w.gap w.getNext w.head iter ↔ 0 < w.nrSelectable (iter + 1) w.head := by
  rw [gap_pos, nrSelectable_pos]
  constructor
  · intro h
    obtain ⟨k, -, hrows, hfound⟩ := h
    have hall : ∀ j ≤ k, iter + (j + 1) < w.head := by
      intro j hj
      induction j with
      | zero =>
        have hrow := hrows 0 hj
        rwa [Function.iterate_one, getNext_row hiter] at hrow
      | succ j ih =>
        have hrow := hrows (j + 1) hj
        have hprev := ih (by omega)
        rwa [Function.iterate_succ_apply', getNext_iterate hprev.le, getNext_row hprev] at hrow
    have hk := hall k (Nat.le_refl k)
    rw [getNext_iterate hk.le] at hfound
    exact ⟨iter + (k + 1), by omega, hk, hk, hfound⟩
  · intro h
    obtain ⟨i, hlo, -, hrow, hfound⟩ := h
    refine ⟨i - iter - 1, by omega, fun j hj => ?_, ?_⟩
    · rw [getNext_iterate (by omega)]
      omega
    · have hi : iter + (i - iter - 1 + 1) = i := by omega
      rwa [getNext_iterate (by omega), hi]

theorem gap_prev {iter : Nat} (hiter : iter < w.head) :
    0 < w.gap w.getPrev w.head iter ↔ 0 < w.nrSelectable 0 iter := by
  rw [gap_pos, nrSelectable_pos]
  constructor
  · intro h
    obtain ⟨k, -, hrows, hfound⟩ := h
    have hall : ∀ j ≤ k, j + 1 ≤ iter := by
      intro j hj
      by_contra hgt
      have hrow := hrows iter (by omega)
      rw [Function.iterate_succ_apply', getPrev_iterate (Nat.le_refl iter), Nat.sub_self,
        getPrev_zero] at hrow
      exact Nat.lt_irrefl _ hrow
    have hk := hall k (Nat.le_refl k)
    rw [getPrev_iterate hk] at hfound
    exact ⟨iter - (k + 1), Nat.zero_le _, by omega, by omega, hfound⟩
  · intro h
    obtain ⟨i, -, hlt, hrow, hfound⟩ := h
    refine ⟨iter - i - 1, by omega, fun j hj => ?_, ?_⟩
    · rw [getPrev_iterate (by omega)]
      omega
    · have hi : iter - (iter - i - 1 + 1) = i := by omega
      rwa [getPrev_iterate (by omega), hi]

/-- Where the selected row vanishes, the selection goes to the nearest selectable row. -/
theorem nearest_spec {iter : Nat} (hiter : iter < w.head)
    (hsafe : w.head = 1 ∨ 0 < w.nrSelectable 0 iter + w.nrSelectable (iter + 1) w.head) :
    ∃ sel, w.nearest iter = some sel ∧
      (if w.head = 1 then sel = 1 else sel < w.head ∧ sel ≠ iter) := by
  have hnext := gap_next hiter
  have hprev := gap_prev hiter
  rw [nearest]
  split
  · rename_i hdown
    obtain ⟨i, hlo, -, hrow, hfound⟩ := nrSelectable_pos.mp (hnext.mp hdown.1)
    obtain ⟨sel, hseek, hge, hle⟩ := toSelectable_next hlo hrow hfound
    rw [getNext_row hiter]
    refine ⟨sel, hseek, ?_⟩
    rw [if_neg (by omega)]
    exact ⟨by omega, by omega⟩
  · rename_i hdown
    split
    · rename_i hup
      obtain ⟨i, -, hlt, hrow, hfound⟩ := nrSelectable_pos.mp (hprev.mp hup)
      obtain ⟨sel, hseek, hge, hle⟩ :=
        toSelectable_prev (i := iter - 1) (by omega) (by omega) hfound
      rw [getPrev_pos (by omega)]
      refine ⟨sel, hseek, ?_⟩
      rw [if_neg (by omega)]
      exact ⟨by omega, by omega⟩
    · rename_i hup
      have hone : w.head = 1 := by
        obtain hone | hother := hsafe
        · exact hone
        · have hnodown : ¬ 0 < w.gap w.getNext w.head iter := fun h => hdown ⟨h, by omega⟩
          rw [hnext] at hnodown
          rw [hprev] at hup
          omega
      exact ⟨w.head, rfl, by rw [if_pos hone, hone]⟩

/-- Neither of them is left on a vanishing row: it goes to another one, or, where there is
no other, to the head. -/
theorem rowVanishes_spec (htop : w.top < w.head) (hsel : w.sel < w.head) {iter : Nat}
    (hiter : iter < w.head) (hsafe : iter = w.sel → w.head = 1 ∨
      0 < w.nrSelectable 0 iter + w.nrSelectable (iter + 1) w.head) :
    ∃ top sel, w.rowVanishes iter = some {w with top, sel} ∧
      (if w.head = 1 then top = 1 ∧ sel = 1
        else top < w.head ∧ top ≠ iter ∧ sel < w.head ∧ sel ≠ iter) := by
  have hback : w.getPrev (w.getNext iter) < w.head := by
    rw [getNext_row hiter, getPrev_pos (Nat.succ_pos iter)]
    exact hiter
  rw [rowVanishes, if_neg fun hnot => hnot.2 hback]
  dsimp only
  have htop' : ∀ top, (if w.top = iter then
      (if w.getNext iter < w.head then w.getNext iter else w.getPrev iter) else w.top) = top →
      if w.head = 1 then top = 1 else top < w.head ∧ top ≠ iter := by
    intro top heq
    subst heq
    rw [getNext_row hiter, getPrev]
    split_ifs <;> omega
  generalize (if w.top = iter then (if w.getNext iter < w.head then w.getNext iter
    else w.getPrev iter) else w.top) = top at htop' ⊢
  have htop' := htop' top rfl
  split
  · rename_i hvanishes
    obtain ⟨sel, hnearest, hsel'⟩ := nearest_spec hiter (hsafe hvanishes.symm)
    rw [hnearest]
    refine ⟨top, sel, rfl, ?_⟩
    split
    · rename_i hone
      rw [if_pos hone] at htop' hsel'
      exact ⟨htop', hsel'⟩
    · rename_i hmany
      rw [if_neg hmany] at htop' hsel'
      exact ⟨htop'.1, htop'.2, hsel'.1, hsel'.2⟩
  · rename_i hother
    refine ⟨top, w.sel, rfl, ?_⟩
    rw [if_neg (by omega)] at htop' ⊢
    exact ⟨htop'.1, htop'.2, hsel, hother⟩

theorem remove_head {iter : Nat} (hiter : iter < w.head) : (w.remove iter).head + 1 = w.head := by
  show (w.rows.eraseIdx iter).length + 1 = w.rows.length
  have hlt : iter < w.rows.length := hiter
  rw [List.length_eraseIdx_of_lt hlt]
  omega

theorem Good.removeRow (h : w.Good) {iter : Nat} (hiter : iter < w.head)
    (hsafe : iter = w.sel → w.head = 1 ∨
      0 < w.nrSelectable 0 iter + w.nrSelectable (iter + 1) w.head) :
    ∃ w', ((w.rowVanishes iter).bind fun w => (w.remove iter).changed) = some w' ∧ w'.Good := by
  obtain ⟨htop, hsel, -, -⟩ := h.row (Nat.zero_lt_of_lt hiter)
  obtain ⟨top, sel, hvanishes, hplaces⟩ := rowVanishes_spec htop hsel hiter hsafe
  rw [hvanishes, Option.bind_some]
  have hhead : (({w with top, sel} : Window ρ).remove iter).head + 1 = w.head :=
    remove_head (w := {w with top, sel}) hiter
  split at hplaces
  · obtain ⟨rfl, rfl⟩ := hplaces
    apply changed_head
    · exact h.nrRows
    · show (if iter < 1 then 1 - 1 else 1) = _
      rw [if_pos (by omega)]
      omega
  · obtain ⟨htop, htopne, hsel, hselne⟩ := hplaces
    apply changed_rows
    · exact h.nrRows
    · show (if iter < top then top - 1 else top) < _
      split <;> omega
    · show (if iter < sel then sel - 1 else sel) < _
      split <;> omega

theorem Good.addRow (h : w.Good) {iter : Nat} (hiter : iter ≤ w.head) (row : ρ) :
    ∃ w', (w.insert iter row).changed = some w' ∧ w'.Good := by
  have hhead : (w.insert iter row).head = w.head + 1 :=
    List.length_insertIdx_of_le_length hiter row
  obtain hempty | hrow := Nat.eq_zero_or_pos w.head
  · apply changed_head
    · exact h.nrRows
    · show (if iter ≤ w.top then w.top + 1 else w.top) = _
      rw [(h.empty hempty).1, if_pos (by omega)]
      omega
  · obtain ⟨htop, hsel, -, -⟩ := h.row hrow
    apply changed_rows
    · exact h.nrRows
    · show (if iter ≤ w.top then w.top + 1 else w.top) < _
      split <;> omega
    · show (if iter ≤ w.sel then w.sel + 1 else w.sel) < _
      split <;> omega

/-! ### Runs -/

/-- The rows an operation goes over are there, and where it looks for a row that can be
selected, there is one on the page. -/
def Safe (w : Window ρ) : Nat × WindowOp ρ → Prop
  | (_, .up rows) => rows ≤ w.nrSelectable 0 w.sel ∨ w.nrSelectable 0 w.sel = 0 ∨
      w.selectableAt 0 = true
  | (_, .down rows) => rows ≤ w.nrSelectable (w.sel + 1) w.head ∨
      w.nrSelectable (w.sel + 1) w.head = 0 ∨ w.selectableAt (w.head - 1) = true
  | (_, .setSel iter) => iter < w.head
  | (_, .gotoTop) => w.Idle ∨ 0 < w.nrSelectable 0 w.nrRows
  | (_, .setContents rows) => ({w with rows} : Window ρ).Idle ∨
      0 < ({w with rows} : Window ρ).nrSelectable 0 w.nrRows
  | (_, .gotoBottom) => w.Idle ∨ 0 < w.nrSelectable (w.head - w.nrRows) w.head
  | (_, .scrollDown) => w.top + w.nrRows < w.head →
      0 < w.nrSelectable (max w.sel (w.top + 1)) (w.top + w.nrRows + 1)
  | (_, .scrollUp) => 0 < w.top → 0 < w.nrSelectable (w.top - 1)
      (min (w.sel + 1) (min (w.top + w.nrRows) w.head - 1))
  | (_, .pageTop) => w.Idle ∨ 0 < w.nrSelectable w.top (w.top + w.nrRows)
  | (_, .pageMiddle) => w.Idle ∨ w.top + w.nrRows / 2 < w.head ∧
      0 < w.nrSelectable (w.top + w.nrRows / 2) (w.top + w.nrRows)
  | (_, .pageBottom) => w.Idle ∨ w.top + w.nrRows ≤ w.head ∧
      0 < w.nrSelectable w.top (w.top + w.nrRows)
  | (_, .removeRow iter) => iter < w.head ∧ (iter = w.sel → w.head = 1 ∨
      0 < w.nrSelectable 0 iter + w.nrSelectable (iter + 1) w.head)
  | (_, .addRow iter _) => iter ≤ w.head
  | _ => True

instance (w : Window ρ) (op : Nat × WindowOp ρ) : Decidable (w.Safe op) := by
  obtain ⟨scrollOffset, op⟩ := op
  cases op <;> unfold Safe <;> infer_instance

theorem Good.step (h : w.Good) (op : Nat × WindowOp ρ) (hsafe : w.Safe op) :
    ∃ w', w.step op = some w' ∧ w'.Good := by
  obtain ⟨scrollOffset, op⟩ := op
  cases op with
  | up rows => exact h.up scrollOffset rows hsafe
  | down rows => exact h.down scrollOffset rows hsafe
  | setSel iter => exact h.setSel scrollOffset hsafe
  | gotoTop => exact gotoTop_good h.nrRows hsafe
  | setContents rows => exact gotoTop_good h.nrRows hsafe
  | gotoBottom => exact h.gotoBottom hsafe
  | pageUp => exact ⟨_, rfl, h.pageUp⟩
  | halfPageUp => exact ⟨_, rfl, h.halfPageUp⟩
  | pageDown => exact ⟨_, rfl, h.pageDown⟩
  | halfPageDown => exact ⟨_, rfl, h.halfPageDown⟩
  | scrollDown => exact h.scrollDown hsafe
  | scrollUp => exact h.scrollUp hsafe
  | pageTop => exact h.pageTop hsafe
  | pageBottom => exact h.pageBottom hsafe
  | pageMiddle => exact h.pageMiddle hsafe
  | setNrRows nrRows => exact h.setNrRows nrRows
  | removeRow iter =>
    rw [Window.step, if_pos hsafe.1]
    exact h.removeRow hsafe.1 hsafe.2
  | addRow iter row =>
    rw [Window.step, if_pos (show iter ≤ w.head from hsafe)]
    exact h.addRow hsafe row

/-- **The selection stays visible** in every state of every run in which no operation
walks off the list or the page. -/
theorem selection_visible (w : Window ρ) (history : List (Nat × WindowOp ρ)) (h : w.Good)
    (hsafe : Runs.Along step Safe w history) : Runs.Always step Good w history :=
  Runs.always_of_along (fun _ op hgood hok => hgood.step op hok) h hsafe

/-- A list of one row in a window of two, and the end of the page is the head. -/
def short : Window Unit := ⟨[()], fun _ => true, 2, 0, 0⟩

theorem page_bottom_selects_head :
    short.Shows ∧ ∃ w, short.step (0, .pageBottom) = some w ∧ w.sel = w.head ∧ ¬ w.Shows := by
  refine ⟨by decide +kernel, _, rfl, rfl, by decide +kernel⟩

/-- The other operations on a longer list. -/
theorem selection_visible_example :
    Runs.Always step Good (⟨[(), (), (), ()], fun _ => true, 2, 0, 0⟩ : Window Unit)
      [(1, .down 5), (1, .pageBottom), (0, .removeRow 3), (0, .up 1), (2, .setSel 0)] :=
  selection_visible _ _ ⟨by decide, by decide +kernel⟩ (by decide +kernel)

end Window

end GracefulMusic
