import GracefulMusic.Window.Operations

/-! What the loops of `window.c` compute.

On the rows of the list `getNext` and `getPrev` add and subtract one, so the loops that
count have closed forms, and the searches end at the nearest row that can be selected. -/
namespace GracefulMusic.Window
variable {ρ : Type} {w : Window ρ}

theorem getNext_row {i : Nat} (h : i < w.head) : w.getNext i = i + 1 := if_pos h

theorem getNext_head : w.getNext w.head = 0 := if_neg (Nat.lt_irrefl _)

theorem getPrev_pos {i : Nat} (h : 0 < i) : w.getPrev i = i - 1 := if_pos h

theorem getPrev_zero : w.getPrev 0 = w.head := if_neg (Nat.lt_irrefl _)

theorem getNext_iterate {k i : Nat} (h : i + k ≤ w.head) : w.getNext^[k] i = i + k := by
  induction k generalizing i with
  | zero => rfl
  | succ k ih =>
    rw [Function.iterate_succ_apply, getNext_row (by omega), ih (by omega)]
    omega

theorem getPrev_iterate {k i : Nat} (h : k ≤ i) : w.getPrev^[k] i = i - k := by
  induction k generalizing i with
  | zero => rfl
  | succ k ih =>
    rw [Function.iterate_succ_apply, getPrev_pos (by omega), ih (by omega)]
    omega

theorem reach_next (bound : Nat) {i : Nat} (h : i < w.head) :
    w.reach w.getNext bound i = min bound (w.head - 1 - i) := by
  induction bound generalizing i with
  | zero => rw [reach, Nat.zero_min]
  | succ bound ih =>
    rw [reach, getNext_row h]
    split
    · rename_i hrow
      rw [ih hrow]
      omega
    · omega

theorem reach_prev (bound : Nat) {i : Nat} (h : i < w.head) :
    w.reach w.getPrev bound i = min bound i := by
  induction bound generalizing i with
  | zero => rw [reach, Nat.zero_min]
  | succ bound ih =>
    rw [reach]
    obtain rfl | hpos := Nat.eq_zero_or_pos i
    · rw [getPrev_zero, if_neg (Nat.lt_irrefl _), Nat.min_zero]
    · rw [getPrev_pos hpos, if_pos (by omega), ih (by omega)]
      omega

theorem distance_eq {target fuel i : Nat} (hle : i ≤ target) (htarget : target ≤ w.head)
    (hfuel : target ≤ i + fuel) : w.distance target fuel i = some (target - i) := by
  induction fuel generalizing i with
  | zero =>
    obtain rfl : i = target := by omega
    rw [distance, if_pos rfl, Nat.sub_self]
  | succ fuel ih =>
    rw [distance]
    split
    · rename_i heq
      rw [heq, Nat.sub_self]
    · rename_i hne
      have hlt : i < target := by omega
      rw [getNext_row (by omega), ih hlt (by omega), Option.map_some, Option.some.injEq]
      omega

theorem distance_first {target : Nat} (h : target ≤ w.head) :
    w.distance target w.head 0 = some target :=
  distance_eq (Nat.zero_le _) h (by omega)

/-! ### Searches -/

/-- A search that can find something within the fuel finds the first such position. -/
theorem seek_iterate (move : Nat → Nat) (found : Nat → Bool) (fuel k i : Nat) (hk : k ≤ fuel)
    (hfound : found (move^[k] i) = true) :
    ∃ j ≤ k, seek move found fuel i = some (move^[j] i) ∧ found (move^[j] i) = true := by
  induction fuel generalizing k i with
  | zero =>
    obtain rfl : k = 0 := by omega
    exact ⟨0, Nat.le_refl 0, if_pos hfound, hfound⟩
  | succ fuel ih =>
    by_cases hi : found i = true
    · exact ⟨0, Nat.zero_le k, if_pos hi, hi⟩
    · cases k with
      | zero => exact absurd hfound hi
      | succ k =>
        obtain ⟨j, hj, hseek, hend⟩ := ih k (move i) (Nat.le_of_succ_le_succ hk) hfound
        exact ⟨j + 1, Nat.succ_le_succ hj, by rw [seek, if_neg hi, hseek]; rfl, hend⟩

/-- Downwards from a row. -/
theorem toSelectable_next {i j : Nat} (hle : i ≤ j) (hrow : j < w.head)
    (hsel : w.selectableAt j = true) :
    ∃ sel, w.toSelectable w.getNext i = some sel ∧ i ≤ sel ∧ sel ≤ j := by
  have hj : w.getNext^[j - i] i = j := by
    rw [getNext_iterate (by omega)]
    omega
  obtain ⟨k, hk, hseek, -⟩ := seek_iterate w.getNext w.selectableAt w.head (j - i) i
    (by omega) (hj.symm ▸ hsel)
  rw [getNext_iterate (by omega)] at hseek
  exact ⟨i + k, hseek, by omega, by omega⟩

/-- Upwards from a row. -/
theorem toSelectable_prev {i j : Nat} (hle : j ≤ i) (hrow : i < w.head)
    (hsel : w.selectableAt j = true) :
    ∃ sel, w.toSelectable w.getPrev i = some sel ∧ j ≤ sel ∧ sel ≤ i := by
  have hj : w.getPrev^[i - j] i = j := by
    rw [getPrev_iterate (by omega)]
    omega
  obtain ⟨k, hk, hseek, -⟩ := seek_iterate w.getPrev w.selectableAt w.head (i - j) i
    (by omega) (hj.symm ▸ hsel)
  rw [getPrev_iterate (by omega)] at hseek
  exact ⟨i - k, hseek, by omega, by omega⟩

/-! ### The walk of `window_up` and `window_down` -/

/-- The number of selectable rows from one position up to another. -/
def nrSelectable (w : Window ρ) (lo hi : Nat) : Nat :=
  (List.range' lo (min hi w.head - lo)).countP w.selectableAt

theorem nrSelectable_pos {lo hi : Nat} : 0 < w.nrSelectable lo hi ↔
    ∃ i, lo ≤ i ∧ i < hi ∧ i < w.head ∧ w.selectableAt i = true := by
  rw [nrSelectable, List.countP_pos_iff]
  constructor
  · intro h
    obtain ⟨i, hi, hsel⟩ := h
    rw [List.mem_range'_1] at hi
    exact ⟨i, hi.1, by omega, by omega, hsel⟩
  · intro h
    obtain ⟨i, hlo, hhi, hrow, hsel⟩ := h
    exact ⟨i, List.mem_range'_1.mpr ⟨hlo, by omega⟩, hsel⟩

/-- The selectable rows among the next `m`. -/
def ahead (w : Window ρ) (move : Nat → Nat) (s m : Nat) : Nat :=
  (List.range m).countP fun j => w.selectableAt (move^[j + 1] s)

theorem ahead_succ (w : Window ρ) (move : Nat → Nat) (s m : Nat) : w.ahead move s (m + 1) =
    w.ahead move s m + if w.selectableAt (move^[m + 1] s) then 1 else 0 := by
  rw [ahead, List.range_succ, List.countP_append, List.countP_singleton]
  rfl

theorem ahead_next {s : Nat} (h : s < w.head) :
    w.ahead w.getNext s (w.head - 1 - s) = w.nrSelectable (s + 1) w.head := by
  have hlen : min w.head w.head - (s + 1) = w.head - 1 - s := by omega
  rw [nrSelectable, hlen, List.range'_eq_map_range, List.countP_map, ahead]
  apply List.countP_congr
  intro j hj
  rw [List.mem_range] at hj
  rw [getNext_iterate (by omega), Function.comp_apply, Nat.add_right_comm]
  exact Iff.rfl

theorem ahead_prev {s : Nat} (h : s < w.head) :
    w.ahead w.getPrev s s = w.nrSelectable 0 s := by
  have hlen : min s w.head - 0 = s := by omega
  rw [nrSelectable, hlen, ← List.countP_reverse, List.reverse_range', List.countP_map, ahead]
  apply List.countP_congr
  intro j hj
  rw [List.mem_range] at hj
  have hpos : 0 + s - 1 - j = s - (j + 1) := by omega
  rw [getPrev_iterate (by omega), Function.comp_apply, hpos]

/-- The loop has gone `d` rows from `s`, and the last row it selected is at distance `e`. -/
structure Walked (w : Window ρ) (move : Nat → Nat) (s rows d e : Nat) (k : Walk) : Prop where
  iter : k.iter = move^[d] s
  sel : k.sel = move^[e] s
  le : e ≤ d
  total : k.moved + k.skipped = d
  count : k.moved = w.ahead move s d
  between : ∀ j, e < j → j ≤ d → w.selectableAt (move^[j] s) = false
  start : k.moved = 0 → e = 0
  bound : k.moved ≤ rows
  last : k.moved = rows → 0 < k.moved → e = d

namespace Walked
variable {move : Nat → Nat} {s rows d e : Nat} {k : Walk}

theorem init (w : Window ρ) (move : Nat → Nat) (s rows : Nat) : Walked w move s rows 0 0 ⟨s, s, 0, 0⟩ where
  iter := rfl
  sel := rfl
  le := Nat.le_refl 0
  total := rfl
  count := rfl
  between j hlo hhi := by omega
  start _ := rfl
  bound := Nat.zero_le rows
  last _ _ := rfl

theorem advance (h : Walked w move s rows d e k) (hmore : k.moved < rows) :
    ∃ e', Walked w move s rows (d + 1) e' (w.advance k (move k.iter)) := by
  have hiter : move k.iter = move^[d + 1] s := by
    rw [h.iter, Function.iterate_succ_apply']
  have hcount := ahead_succ w move s d
  rw [Window.advance, hiter]
  split
  · rename_i hsel
    rw [if_pos hsel, ← h.count] at hcount
    exact ⟨d + 1, rfl, rfl, Nat.le_refl _, by have := h.total; dsimp only; omega, hcount.symm,
      fun j hlo hhi => by omega, fun hzero => absurd hzero (Nat.succ_ne_zero _), hmore,
      fun _ _ => rfl⟩
  · rename_i hsel
    rw [if_neg hsel, ← h.count] at hcount
    refine ⟨e, rfl, h.sel, Nat.le_succ_of_le h.le, by have := h.total; dsimp only; omega,
      hcount.symm, fun j hlo hhi => ?_, h.start, h.bound,
      fun hlast _ => absurd hlast (Nat.ne_of_lt hmore)⟩
    obtain hlt | rfl := Nat.lt_or_eq_of_le hhi
    · exact h.between j hlo (Nat.le_of_lt_succ hlt)
    · simpa using hsel

/-- The loop ends after so many selectable rows, or where the list ends. -/
theorem run {m : Nat} (hrow : ∀ j < m, move (move^[j] s) < w.head)
    (hend : ¬ move (move^[m] s) < w.head) (fuel : Nat) (hfuel : m ≤ d + fuel) (hd : d ≤ m)
    (h : Walked w move s rows d e k) :
    ∃ d' e', d' ≤ m ∧ Walked w move s rows d' e' (w.walk move rows fuel k) ∧
      (rows ≤ (w.walk move rows fuel k).moved ∨ d' = m) := by
  induction fuel generalizing d e k with
  | zero => exact ⟨d, e, hd, h, Or.inr (by omega)⟩
  | succ fuel ih =>
    rw [walk]
    by_cases hmore : k.moved < rows
    · obtain hlt | rfl := Nat.lt_or_eq_of_le hd
      · have hnext : move k.iter < w.head := by
          rw [h.iter]
          exact hrow d hlt
        obtain ⟨e', hadvance⟩ := h.advance hmore
        rw [if_pos ⟨hmore, hnext⟩]
        exact ih (by omega) hlt hadvance
      · rw [if_neg fun hboth => hend (h.iter ▸ hboth.2)]
        exact ⟨d, e, hd, h, Or.inr rfl⟩
    · rw [if_neg fun hboth => hmore hboth.1]
      exact ⟨d, e, hd, h, Or.inl (Nat.le_of_not_lt hmore)⟩

end Walked

/-- Where the walk passes no unselectable rows at the end of the list, the rows it counts
are the rows between the old selection and the new one. -/
theorem walk_exact (move : Nat → Nat) (s rows m : Nat)
    (hrow : ∀ j < m, move (move^[j] s) < w.head) (hend : ¬ move (move^[m] s) < w.head)
    (hm : m ≤ w.head)
    (hsafe : rows ≤ w.ahead move s m ∨ w.ahead move s m = 0 ∨
      w.selectableAt (move^[m] s) = true) :
    ∃ e ≤ m, (w.walk move rows w.head ⟨s, s, 0, 0⟩).sel = move^[e] s ∧
      (if (w.walk move rows w.head ⟨s, s, 0, 0⟩).moved = 0 then 0
        else (w.walk move rows w.head ⟨s, s, 0, 0⟩).moved +
          (w.walk move rows w.head ⟨s, s, 0, 0⟩).skipped) = e := by
  obtain ⟨d, e, hd, h, hstop⟩ := (Walked.init w move s rows).run hrow hend w.head (by omega)
    (Nat.zero_le m)
  generalize w.walk move rows w.head ⟨s, s, 0, 0⟩ = k at h hstop ⊢
  refine ⟨e, h.le.trans hd, h.sel, ?_⟩
  split
  · rename_i hzero
    exact (h.start hzero).symm
  · rename_i hmoved
    have hpos : 0 < k.moved := Nat.pos_of_ne_zero hmoved
    have hexact : e = d := by
      obtain hrows | rfl := hstop
      · exact h.last (Nat.le_antisymm h.bound hrows) hpos
      · obtain hrows | hnone | hlast := hsafe
        · exact h.last (Nat.le_antisymm h.bound (h.count ▸ hrows)) hpos
        · exact absurd (h.count.trans hnone) hmoved
        · by_contra hne
          have hlt : e < d := Nat.lt_of_le_of_ne h.le hne
          rw [h.between d hlt (Nat.le_refl d)] at hlast
          cases hlast
    rw [hexact]
    exact h.total

end GracefulMusic.Window
