import GracefulMusic.Tracks.Counters
import GracefulMusic.Tracks.Layout

/-! Moving tracks under a window (`editable.c`).

`move_item` tells the window of each track that leaves the list. The window is repaired
only after all of them are back: until then its top and selected row are two rows of the
list, or both are the head. -/
namespace GracefulMusic

namespace Window
variable {ρ : Type} {w : Window ρ}

/-- What `window_changed` can repair. -/
structure Usable (w : Window ρ) : Prop where
  nrRows : 0 < w.nrRows
  selectable : ∀ row, w.selectable row = true
  places : w.top < w.head ∧ w.sel < w.head ∨ w.top = w.head ∧ w.sel = w.head

theorem Good.usable (h : w.Good) (hselectable : ∀ row, w.selectable row = true) : w.Usable := by
  refine ⟨h.nrRows, hselectable, ?_⟩
  obtain hempty | hrow := Nat.eq_zero_or_pos w.head
  · obtain ⟨htop, hsel⟩ := h.empty hempty
    exact .inr ⟨htop.trans hempty.symm, hsel.trans hempty.symm⟩
  · obtain ⟨htop, hsel, -, -⟩ := h.row hrow
    exact .inl ⟨htop, hsel⟩

theorem Usable.changed (h : w.Usable) : ∃ w', w.changed = some w' ∧ w'.Good := by
  obtain ⟨htop, hsel⟩ | ⟨htop, -⟩ := h.places
  · exact changed_rows h.nrRows htop hsel
  · exact changed_head h.nrRows htop

/-- Where all rows are selectable, there is another one unless it is the only one. -/
theorem nrSelectable_all (h : ∀ row, w.selectable row = true) {iter : Nat} (hiter : iter < w.head)
    (hmany : w.head ≠ 1) : 0 < w.nrSelectable 0 iter + w.nrSelectable (iter + 1) w.head := by
  obtain rfl | hpos := Nat.eq_zero_or_pos iter
  · have hbelow : 0 < w.nrSelectable (0 + 1) w.head :=
      nrSelectable_pos.mpr ⟨1, by omega, by omega, by omega, h _⟩
    omega
  · have habove : 0 < w.nrSelectable 0 iter :=
      nrSelectable_pos.mpr ⟨0, by omega, hpos, by omega, h _⟩
    omega

/-- A row leaves the list after the window was told. -/
theorem Usable.remove (h : w.Usable) {iter : Nat} (hiter : iter < w.head) :
    ∃ w', (w.rowVanishes iter).map (·.remove iter) = some w' ∧ w'.Usable ∧
      w'.rows = w.rows.eraseIdx iter := by
  have hhead : ∀ top sel, (({w with top, sel} : Window ρ).remove iter).head + 1 = w.head :=
    fun top sel => remove_head (w := {w with top, sel}) hiter
  obtain ⟨htop, hsel⟩ | ⟨htop, hsel⟩ := h.places
  · obtain ⟨top, sel, hvanishes, hplaces⟩ := rowVanishes_spec htop hsel hiter fun _ => by
      by_cases hone : w.head = 1
      · exact .inl hone
      · exact .inr (nrSelectable_all h.selectable hiter hone)
    rw [hvanishes, Option.map_some]
    refine ⟨_, rfl, ⟨h.nrRows, h.selectable, ?_⟩, rfl⟩
    have hhead := hhead top sel
    split at hplaces
    · refine .inr ⟨?_, ?_⟩
      · show (if iter < top then top - 1 else top) = _
        rw [if_pos (by omega)]
        omega
      · show (if iter < sel then sel - 1 else sel) = _
        rw [if_pos (by omega)]
        omega
    · refine .inl ⟨?_, ?_⟩
      · show (if iter < top then top - 1 else top) < _
        split <;> omega
      · show (if iter < sel then sel - 1 else sel) < _
        split <;> omega
  · have hvanishes : w.rowVanishes iter = some w := by
      rw [rowVanishes, if_neg, if_neg (by omega), if_neg (by omega)]
      intro hnot
      apply hnot.2
      rw [getNext_row hiter, getPrev_pos (Nat.succ_pos iter)]
      exact hiter
    rw [hvanishes, Option.map_some]
    refine ⟨_, rfl, ⟨h.nrRows, h.selectable, .inr ?_⟩, rfl⟩
    have hhead := remove_head hiter
    constructor
    · show (if iter < w.top then w.top - 1 else w.top) = (w.remove iter).head
      rw [if_pos (by omega)]
      omega
    · show (if iter < w.sel then w.sel - 1 else w.sel) = (w.remove iter).head
      rw [if_pos (by omega)]
      omega

theorem Usable.insert (h : w.Usable) {iter : Nat} (hiter : iter ≤ w.head) (row : ρ) :
    (w.insert iter row).Usable := by
  have hhead : (w.insert iter row).head = w.head + 1 :=
    List.length_insertIdx_of_le_length hiter row
  refine ⟨h.nrRows, h.selectable, ?_⟩
  obtain ⟨htop, hsel⟩ | ⟨htop, hsel⟩ := h.places
  · refine .inl ⟨?_, ?_⟩
    · show (if iter ≤ w.top then w.top + 1 else w.top) < _
      split <;> omega
    · show (if iter ≤ w.sel then w.sel + 1 else w.sel) < _
      split <;> omega
  · refine .inr ⟨?_, ?_⟩
    · show (if iter ≤ w.top then w.top + 1 else w.top) = _
      rw [if_pos (by omega)]
      omega
    · show (if iter ≤ w.sel then w.sel + 1 else w.sel) = _
      rw [if_pos (by omega)]
      omega

theorem changed_rows_eq {w' : Window ρ} (h : w.changed = some w') :
    w'.rows = w.rows ∧ w'.selectable = w.selectable := by
  rw [changed] at h
  split at h
  · obtain rfl := Option.some.inj h
    exact ⟨rfl, rfl⟩
  · split at h
    · obtain rfl := Option.some.inj h
      exact ⟨rfl, rfl⟩
    · obtain ⟨top, -, hend⟩ := Option.bind_eq_some_iff.mp h
      obtain rfl := Option.some.inj hend
      exact ⟨rfl, rfl⟩

theorem setSel_sel {scrollOffset iter : Nat} {w' : Window ρ}
    (h : w.setSel scrollOffset iter = some w') :
    w'.rows = w.rows ∧ w'.selectable = w.selectable ∧ w'.sel = iter := by
  rw [setSel] at h
  split at h
  · cases h
  split at h
  · rename_i hsel
    obtain rfl := Option.some.inj h
    exact ⟨rfl, rfl, hsel⟩
  obtain ⟨topNr, -, h⟩ := Option.bind_eq_some_iff.mp h
  obtain ⟨selNr, -, h⟩ := Option.bind_eq_some_iff.mp h
  dsimp only at h
  split at h
  · obtain rfl := Option.some.inj h
    exact ⟨rfl, rfl, rfl⟩
  split at h
  · obtain rfl := Option.some.inj h
    exact ⟨rfl, rfl, rfl⟩
  · obtain rfl := Option.some.inj h
    exact ⟨rfl, rfl, rfl⟩

end Window

namespace Tracks
variable {P : Type} [DecidableEq P] {e : Editable P} {w : Window P}

/-- The row behind a position; the first one behind the head. -/
def rowAfter (rows : List P) : Option P → Nat
  | some after => rows.idxOf after + 1
  | none => 0

/-- What `move_item` does to the window of the list. -/
def moveItem (w : Window P) (item : P) : Option (Window P) :=
  let iter := w.rows.idxOf item
  (w.rowVanishes iter).map (·.remove iter)

def putBack (after : Option P) (w : Window P) (item : P) : Window P :=
  w.insert (rowAfter w.rows after) item

/-- `move_sel` of the editable that owns the window. -/
def moveSelOwned (scrollOffset : Nat) (e : Editable P) (w : Window P) (t : P)
    (after : Option P) : Option (Editable P × Window P) := do
  let w ← (e.movedTracks t).foldlM moveItem w
  let w := (e.movedTracks t).reverse.foldl (putBack after) w
  let e ← e.moveSel (some t) after
  let w ← w.changed
  -- select top-most of the moved tracks
  let w ← w.setSel scrollOffset (rowAfter w.rows after)
  some (e, w)

def moveAfterOwned (scrollOffset : Nat) (e : Editable P) (w : Window P) :
    Option (Editable P × Window P) :=
  if e.nrTracks ≤ 1 ∨ e.sortKeys ≠ [] then some (e, w)
  else
    match w.rows[w.sel]? with
    | some t => moveSelOwned scrollOffset e w t (e.findInsertAfterPoint t)
    | none => some (e, w)

def moveBeforeOwned (scrollOffset : Nat) (e : Editable P) (w : Window P) :
    Option (Editable P × Window P) :=
  if e.nrTracks ≤ 1 ∨ e.sortKeys ≠ [] then some (e, w)
  else
    match w.rows[w.sel]? with
    | some t => moveSelOwned scrollOffset e w t (e.findInsertBeforePoint t)
    | none => some (e, w)

/-- The window shows the tracks of the list, all of which can be selected. -/
structure Owns (e : Editable P) (w : Window P) : Prop where
  good : w.Good
  rows : w.rows = e.head
  selectable : ∀ row, w.selectable row = true

theorem moveItem_usable (h : w.Usable) {item : P} (hitem : item ∈ w.rows) :
    ∃ w', moveItem w item = some w' ∧ w'.Usable ∧ w'.rows = w.rows.erase item := by
  have hiter : w.rows.idxOf item < w.head := List.idxOf_lt_length_iff.mpr hitem
  obtain ⟨w', hmove, h', hrows⟩ := h.remove hiter
  exact ⟨w', hmove, h', by rw [hrows, List.eraseIdx_idxOf_eq_erase]⟩

theorem moveItems_usable (h : w.Usable) {items : List P} (hnodup : items.Nodup)
    (hitems : ∀ t ∈ items, t ∈ w.rows) :
    ∃ w', items.foldlM moveItem w = some w' ∧ w'.Usable ∧ w'.rows = w.rows.diff items := by
  induction items generalizing w with
  | nil => exact ⟨w, rfl, h, (List.diff_nil _).symm⟩
  | cons t items ih =>
    obtain ⟨hnew, hrest⟩ := List.nodup_cons.mp hnodup
    obtain ⟨w₁, hmove, h₁, hrows⟩ := moveItem_usable h (hitems t List.mem_cons_self)
    have hleft : ∀ u ∈ items, u ∈ w₁.rows := by
      intro u hu
      rw [hrows]
      have hne : u ≠ t := fun heq => hnew (heq ▸ hu)
      exact (List.mem_erase_of_ne hne).mpr (hitems u (List.mem_cons_of_mem t hu))
    obtain ⟨w', hloop, h', hrows'⟩ := ih h₁ hrest hleft
    refine ⟨w', ?_, h', by rw [hrows', hrows, List.diff_cons]⟩
    rw [List.foldlM_cons, hmove]
    exact hloop

theorem rowAfter_gap {front rest : List P} (h : (front ++ rest).Nodup) :
    rowAfter (front ++ rest) front.getLast? = front.length := by
  rcases List.eq_nil_or_concat front with rfl | hconcat
  · rfl
  · obtain ⟨init, a, rfl⟩ := hconcat
    rw [List.concat_eq_append] at h ⊢
    have hfresh : a ∉ init := by
      rw [List.append_assoc, List.singleton_append] at h
      exact fun ha => (List.nodup_middle.mp h).notMem (List.mem_append_left _ ha)
    rw [List.getLast?_concat, rowAfter, List.append_assoc, List.idxOf_append_of_notMem hfresh,
      List.singleton_append, List.idxOf_cons_self]
    simp

omit [DecidableEq P] in
theorem insertIdx_gap (front rest : List P) (x : P) :
    (front ++ rest).insertIdx front.length x = front ++ x :: rest := by
  induction front with
  | nil => rfl
  | cons a front ih => rw [List.cons_append, List.length_cons, List.insertIdx_succ_cons, ih,
      List.cons_append]

/-- One after the other they are put back between front and rest. -/
theorem putBack_usable {front : List P} (items : List P) {rest : List P} (h : w.Usable)
    (hrows : w.rows = front ++ rest) (hnodup : (front ++ (items ++ rest)).Nodup) :
    (items.foldl (putBack front.getLast?) w).Usable ∧
      (items.foldl (putBack front.getLast?) w).rows = front ++ (items.reverse ++ rest) := by
  induction items generalizing w rest with
  | nil => exact ⟨h, hrows⟩
  | cons x items ih =>
    have hperm : (front ++ (x :: items ++ rest)).Perm (front ++ (items ++ x :: rest)) :=
      List.perm_middle.symm.append_left front
    have hmiddle : (front ++ rest).Nodup := hnodup.sublist
      ((List.sublist_append_right _ _).append_left front)
    have hat : rowAfter w.rows front.getLast? = front.length := by
      rw [hrows, rowAfter_gap hmiddle]
    have hnext : (putBack front.getLast? w x).Usable := by
      apply h.insert
      rw [hat]
      show front.length ≤ w.rows.length
      rw [hrows, List.length_append]
      omega
    have hinsert : (putBack front.getLast? w x).rows = front ++ x :: rest := by
      show w.rows.insertIdx (rowAfter w.rows front.getLast?) x = _
      rw [hat, hrows, insertIdx_gap]
    obtain ⟨h', hrows'⟩ := ih hnext hinsert (hperm.nodup_iff.mp hnodup)
    rw [List.foldl_cons, List.reverse_cons, List.append_assoc]
    exact ⟨h', hrows'⟩

omit [DecidableEq P] in
theorem movedTracks_mem (h : e.head.Nodup) (hcounted : Counted e) {t : P} (ht : t ∈ e.head) :
    (e.movedTracks t).Nodup ∧ (∀ u ∈ e.movedTracks t, u ∈ e.head) ∧ e.movedTracks t ≠ [] := by
  unfold Editable.movedTracks
  split
  · rename_i hmarked
    refine ⟨h.filter _, fun u hu => (List.mem_filter.mp hu).1, fun hnil => hmarked ?_⟩
    rw [hcounted.marked, List.countP_eq_length_filter, hnil, List.length_nil]
  · refine ⟨List.nodup_singleton t, fun u hu => ?_, List.cons_ne_nil t []⟩
    rw [List.mem_singleton.mp hu]
    exact ht

/-- The counters count the same tracks. -/
theorem MovedTo.counted {e' : Editable P} {stay : List P × List P} {moved : List P}
    (h : MovedTo e e' stay moved) (hcounted : Counted e) : Counted e' where
  tracks := by rw [h.nrTracks, h.perm.length_eq, hcounted.tracks]
  marked := by rw [h.nrMarked, h.marked, h.perm.countP_eq, hcounted.marked]
  time := by
    rw [h.totalTime, h.info, hcounted.time]
    have hperm := ((h.perm.map e.info).filter (·.duration ≠ -1)).map (·.duration)
    rw [hperm.sum_eq]

/-- The window ends up on the first of the moved tracks. -/
structure MovedBy (e : Editable P) (stay : List P × List P) (moved : List P)
    (r : Editable P × Window P) : Prop where
  moved : MovedTo e r.1 stay moved
  counted : Counted r.1
  owns : Owns r.1 r.2
  sel : r.2.sel = stay.1.length

theorem moveSelOwned_movedBy (h : Linked e) (hcounted : Counted e) (howns : Owns e w)
    (scrollOffset : Nat) {t : P} (ht : t ∈ e.head) {stay : List P × List P} {e' : Editable P}
    (hrun : e.moveSel (some t) stay.1.getLast? = some e')
    (hmoved : MovedTo e e' stay (e.movedTracks t)) :
    ∃ r, moveSelOwned scrollOffset e w t stay.1.getLast? = some r ∧
      MovedBy e stay (e.movedTracks t) r := by
  obtain ⟨hnodup, hmem, hne⟩ := movedTracks_mem h.nodup hcounted ht
  obtain ⟨w₁, hloop, h₁, hrows₁⟩ := moveItems_usable (howns.good.usable howns.selectable) hnodup
    (by rw [howns.rows]; exact hmem)
  have hstay : w₁.rows = stay.1 ++ stay.2 := by
    rw [hrows₁, howns.rows, h.nodup.sdiff_eq_filter, hmoved.others]
  have hgap : (stay.1 ++ ((e.movedTracks t).reverse ++ stay.2)).Nodup := by
    have hhead := hmoved.linked.nodup
    rw [hmoved.head] at hhead
    refine (List.Perm.nodup_iff ?_).mpr hhead
    exact ((List.reverse_perm _).append_right _).append_left _
  obtain ⟨h₂, hrows₂⟩ := putBack_usable (e.movedTracks t).reverse h₁ hstay hgap
  rw [List.reverse_reverse, ← hmoved.head] at hrows₂
  generalize hback : (e.movedTracks t).reverse.foldl (putBack stay.1.getLast?) w₁ = w₂
    at h₂ hrows₂
  obtain ⟨w₃, hchanged, h₃⟩ := h₂.changed
  obtain ⟨hrows₃, hselectable₃⟩ := Window.changed_rows_eq hchanged
  have hat : rowAfter w₃.rows stay.1.getLast? = stay.1.length := by
    have hnodup := hmoved.linked.nodup
    rw [hrows₃, hrows₂]
    rw [hmoved.head] at hnodup ⊢
    exact rowAfter_gap hnodup
  have hrow : stay.1.length < w₃.head := by
    have hsome : 0 < (e.movedTracks t).length := List.length_pos_iff.mpr hne
    show _ < w₃.rows.length
    rw [hrows₃, hrows₂, hmoved.head, List.length_append, List.length_append]
    omega
  obtain ⟨w₄, hset, h₄⟩ := h₃.setSel scrollOffset hrow
  obtain ⟨hrows₄, hselectable₄, hsel₄⟩ := Window.setSel_sel hset
  refine ⟨(e', w₄), ?_, hmoved, hmoved.counted hcounted, ⟨h₄, ?_, fun row => ?_⟩, hsel₄⟩
  · unfold moveSelOwned
    rw [hloop]
    dsimp only [Option.bind_eq_bind, Option.bind_some]
    rw [hback, hrun, Option.bind_some, hchanged, Option.bind_some, hat, hset]
    rfl
  · rw [hrows₄, hrows₃, hrows₂]
  · rw [hselectable₄, hselectable₃]
    exact h₂.selectable row

/-- A list of one track is what it is. -/
theorem movedBy_single (h : Linked e) (hcounted : Counted e) (howns : Owns e w) {t : P}
    (hhead : e.head = [t]) (hsel : w.sel = 0) :
    MovedBy e (e.stayAfter [] t []) (e.movedTracks t) (e, w) ∧
      MovedBy e (e.stayBefore [] t []) (e.movedTracks t) (e, w) := by
  have hmarked : e.nrMarked ≠ 0 → e.marked t = true := by
    intro hsome
    by_contra hnot
    apply hsome
    rw [hcounted.marked, hhead, List.countP_singleton, if_neg hnot]
  have hmoved : e.movedTracks t = [t] := by
    unfold Editable.movedTracks
    split
    · rename_i hsome
      rw [hhead, List.filter_singleton, hmarked hsome]
      rfl
    · rfl
  have hafter : e.stayAfter [] t [] = ([], []) := by
    unfold Editable.stayAfter
    split
    · rename_i hsome
      simp [hmarked hsome]
    · rfl
  have hbefore : e.stayBefore [] t [] = ([], []) := by
    unfold Editable.stayBefore
    split
    · rename_i hsome
      simp [hmarked hsome]
    · rfl
  have hsame : MovedBy e ([], []) [t] (e, w) :=
    ⟨⟨hhead, by simp [hhead], .refl _, h, rfl, rfl, rfl, rfl, rfl, rfl⟩, hcounted, howns, hsel⟩
  rw [hafter, hbefore, hmoved]
  exact ⟨hsame, hsame⟩

/-- Tracks are moved by hand only where no keys sort them. Then the moved tracks stand together
in the gap that the command names, under a window on the first of them. -/
theorem move_layout (h : Linked e) (hcounted : Counted e) (howns : Owns e w) (scrollOffset : Nat) :
    (e.sortKeys ≠ [] → moveAfterOwned scrollOffset e w = some (e, w) ∧
      moveBeforeOwned scrollOffset e w = some (e, w)) ∧
    (e.sortKeys = [] → ∀ front t back, e.head = front ++ t :: back → w.sel = front.length →
      (∃ r, moveAfterOwned scrollOffset e w = some r ∧
        MovedBy e (e.stayAfter front t back) (e.movedTracks t) r) ∧
      ∃ r, moveBeforeOwned scrollOffset e w = some r ∧
        MovedBy e (e.stayBefore front t back) (e.movedTracks t) r) := by
  refine ⟨fun hkeys => ⟨if_pos (.inr hkeys), if_pos (.inr hkeys)⟩, ?_⟩
  intro hkeys front t back hsplit hsel
  obtain hone | hmany := Nat.lt_or_ge 1 e.nrTracks |>.symm
  · have hlength := h.count
    rw [hsplit, List.length_append, List.length_cons] at hlength
    obtain rfl := List.length_eq_zero_iff.mp (show front.length = 0 by omega)
    obtain rfl := List.length_eq_zero_iff.mp (show back.length = 0 by omega)
    obtain ⟨hafter, hbefore⟩ := movedBy_single h hcounted howns hsplit hsel
    exact ⟨⟨_, if_pos (.inl hone), hafter⟩, ⟨_, if_pos (.inl hone), hbefore⟩⟩
  · have hmove : ¬(e.nrTracks ≤ 1 ∨ e.sortKeys ≠ []) := not_or.mpr ⟨by omega, not_not.mpr hkeys⟩
    have ht : t ∈ e.head := by
      rw [hsplit]
      exact List.mem_append_right _ List.mem_cons_self
    have hnew : t ∉ front := fun hf =>
      (List.nodup_middle.mp (hsplit ▸ h.nodup)).notMem (List.mem_append_left _ hf)
    have hselected : w.rows[w.sel]? = some t := by
      rw [howns.rows, hsplit, hsel, List.getElem?_append_right (Nat.le_refl _), Nat.sub_self]
      rfl
    constructor
    · obtain ⟨e', hrun, hmoved⟩ := moveAfter_movedTo h hkeys hmany hsplit
      rw [Editable.moveAfter, if_neg hmove] at hrun
      rw [moveAfterOwned, if_neg hmove, hselected]
      dsimp only at hrun ⊢
      rw [findInsertAfterPoint_eq hsplit hnew] at hrun ⊢
      exact moveSelOwned_movedBy h hcounted howns scrollOffset ht hrun hmoved
    · obtain ⟨e', hrun, hmoved⟩ := moveBefore_movedTo h hkeys hmany hsplit
      rw [Editable.moveBefore, if_neg hmove] at hrun
      rw [moveBeforeOwned, if_neg hmove, hselected]
      dsimp only at hrun ⊢
      rw [findInsertBeforePoint_eq hsplit hnew (h.count ▸ hmany)] at hrun ⊢
      exact moveSelOwned_movedBy h hcounted howns scrollOffset ht hrun hmoved

/-- Four tracks of which the second and the last one are marked. -/
def fourTracks (keys : List SortKey) : Editable Nat where
  index := ⟨[0, 1, 2, 3], .node .leaf 0 .leaf, fun t => decide (t ≠ 0)⟩
  info := fun _ => {uid := 0, filename := []}
  marked := fun t => t == 1 || t == 3
  nrTracks := 4
  nrMarked := 2
  totalTime := 0
  sortKeys := keys

def fourRows : Window Nat := ⟨[0, 1, 2, 3], fun _ => true, 2, 1, 2⟩

theorem fourTracks_linked (keys : List SortKey) : Linked (fourTracks keys) :=
  ⟨⟨[(0, [1, 2, 3])], ⟨rfl, rfl, by decide, by
    simp [flat, heads, fourTracks]⟩⟩, rfl, fun _ => Nat.le_refl 1⟩

theorem fourTracks_counted (keys : List SortKey) : Counted (fourTracks keys) :=
  ⟨rfl, rfl, rfl⟩

theorem fourTracks_owned (keys : List SortKey) : Owns (fourTracks keys) fourRows :=
  ⟨⟨by decide, by decide⟩, rfl, fun _ => rfl⟩

theorem move_layout_marked : (∃ r, moveAfterOwned 0 (fourTracks []) fourRows = some r ∧
    r.1.head = [0, 2, 1, 3] ∧ r.2.sel = 2) ∧
    ∃ r, moveBeforeOwned 0 (fourTracks []) fourRows = some r ∧
      r.1.head = [0, 1, 3, 2] ∧ r.2.sel = 1 := by
  obtain ⟨⟨r, hafter, hr⟩, s, hbefore, hs⟩ := (move_layout (fourTracks_linked [])
    (fourTracks_counted []) (fourTracks_owned []) 0).2 rfl [0, 1] 2 [3] rfl rfl
  exact ⟨⟨r, hafter, hr.moved.head, hr.sel⟩, s, hbefore, hs.moved.head, hs.sel⟩

/-- With sort keys the marked tracks stay apart. -/
theorem move_layout_sorted :
    ∃ (e : Editable Nat) (w : Window Nat), Linked e ∧ Counted e ∧ Owns e w ∧
      w.rows[w.sel]? = some 2 ∧ moveAfterOwned 0 e w = some (e, w) ∧
        moveBeforeOwned 0 e w = some (e, w) ∧
        ¬∃ front back, e.head = front ++ (e.movedTracks 2 ++ back) := by
  refine ⟨fourTracks [⟨.title, false⟩], fourRows, fourTracks_linked _, fourTracks_counted _,
    fourTracks_owned _, rfl, rfl, rfl, ?_⟩
  intro hlayout
  obtain ⟨front, back, hhead⟩ := hlayout
  have hinfix : [1, 3] <:+: [0, 1, 2, 3] :=
    ⟨front, back, (List.append_assoc _ _ _).trans hhead.symm⟩
  exact absurd hinfix (by decide)

end Tracks
end GracefulMusic
