import GracefulMusic.Queue.Order

/-! Lines forwards and backwards (`file.c`).

The callback gets each line with the data it has made so far, and a result that is not zero
ends the reading. Read backwards the byte in front of the end is taken for a newline, and a
carriage return at the very start is not taken for a part of one. -/
namespace GracefulMusic.Pl
open GracefulMusic.Queue

variable {D : Type}

/-- `buffer_for_each_line`; the data is what the callback leaves. -/
def forEachLineCb (cb : D → Text → Int × D) : Nat → Text → D → D
  | 0, _, data => data
  | fuel + 1, buf, data =>
    if buf = [] then data
    else
      let row := buf.takeWhile (· ≠ ch '\n')
      let (rc, data) := cb data (toLine (stripCr row))
      if rc ≠ 0 then data else forEachLineCb cb fuel (buf.drop (row.length + 1)) data

/-- `buffer_for_each_line_reverse`. -/
def forEachLineReverseCb (cb : D → Text → Int × D) : Nat → Text → D → D
  | 0, _, data => data
  | fuel + 1, buf, data =>
    if buf = [] then data
    else
      let front := buf.dropLast
      let front :=
        if 2 < buf.length ∧ buf.getLast? = some (ch '\n') ∧ front.getLast? = some (ch '\r') then
          front.dropLast
        else front
      let (rc, data) := cb data (toLine (front.rtakeWhile (· ≠ ch '\n')))
      if rc ≠ 0 then data else forEachLineReverseCb cb fuel (front.rdropWhile (· ≠ ch '\n')) data

/-- The callback on lines in order, up to the first result that is not zero. -/
def callUntil (cb : D → Text → Int × D) : List Text → D → D
  | [], data => data
  | line :: lines, data =>
    let (rc, data) := cb data line
    if rc ≠ 0 then data else callUntil cb lines data

theorem forEachLineCb_eq (cb : D → Text → Int × D) (fuel : Nat) (buf : Text) (data : D) :
    forEachLineCb cb fuel buf data = callUntil cb (forEachLineLoop fuel buf) data := by
  induction fuel generalizing buf data with
  | zero => rfl
  | succ fuel ih =>
    rw [forEachLineCb, forEachLineLoop]
    split
    · rfl
    · dsimp only
      rw [callUntil, ih]

theorem forEachLineReverseCb_eq (cb : D → Text → Int × D) (fuel : Nat) (buf : Text) (data : D) :
    forEachLineReverseCb cb fuel buf data =
      callUntil cb (forEachLineReverseLoop fuel buf) data := by
  induction fuel generalizing buf data with
  | zero => rfl
  | succ fuel ih =>
    rw [forEachLineReverseCb, forEachLineReverseLoop]
    split
    · rfl
    · dsimp only
      rw [callUntil, ih]

/-- A callback that never stops and keeps the lines. -/
theorem callUntil_log (lines front : List Text) :
    callUntil (fun log line => (0, log ++ [line])) lines front = front ++ lines := by
  induction lines generalizing front with
  | nil => exact (List.append_nil front).symm
  | cons line lines ih =>
    rw [callUntil]
    dsimp only
    rw [if_neg (by simp), ih, List.append_assoc, List.singleton_append]

/-- Lists that no callback tells apart. -/
theorem callUntil_inj {lines lines' : List Text} :
    (∀ (D : Type) (cb : D → Text → Int × D) (data : D),
      callUntil cb lines data = callUntil cb lines' data) ↔ lines = lines' := by
  constructor
  · intro h
    have hlog := h (List Text) (fun log line => (0, log ++ [line])) []
    rw [callUntil_log, callUntil_log] at hlog
    exact hlog
  · intro h D cb data
    rw [h]

/-! ### The lines of rows -/

/-- A row as it is read backwards: in front of all others, a lone carriage return stays. -/
def firstBackwards (row : Text) : Text := if row = [ch '\r'] then row else toLine (stripCr row)

theorem reverse_rows {rows : List Text} (hrows : ∀ row ∈ rows, ch '\n' ∉ row) {fuel : Nat}
    (hfuel : (savePlaylist rows).length ≤ fuel) :
    forEachLineReverseLoop fuel (savePlaylist rows) =
      (rows.tail.map fun row => toLine (stripCr row)).reverse ++
        (rows.head?.map firstBackwards).toList := by
  induction rows using List.reverseRecOn generalizing fuel with
  | nil => cases fuel <;> rfl
  | append_singleton rows row ih =>
    have hrow := hrows row (List.mem_append_right _ List.mem_cons_self)
    have hfront : ∀ r ∈ rows, ch '\n' ∉ r := fun r hr => hrows r (List.mem_append_left _ hr)
    rw [savePlaylist_append] at hfuel ⊢
    rw [List.length_append, List.length_append, List.length_singleton] at hfuel
    obtain ⟨fuel, rfl⟩ : ∃ k, fuel = k + 1 := ⟨fuel - 1, by omega⟩
    cases rows with
    | nil =>
      have hend : forEachLineReverseLoop fuel [] = [] := by cases fuel <;> rfl
      show forEachLineReverseLoop (fuel + 1) (row ++ [ch '\n']) = [firstBackwards row]
      rw [firstBackwards]
      by_cases hlone : row = [ch '\r']
      · rw [if_pos hlone, hlone]
        show [ch '\r'] :: forEachLineReverseLoop fuel [] = [[ch '\r']]
        rw [hend]
      · have hcr (hlast : row.getLast? = some (ch '\r')) :
            2 ≤ ([] : Text).length + row.length := by
          obtain ⟨init, hinit⟩ := List.getLast?_eq_some_iff.mp hlast
          have hne : init ≠ [] := fun h => hlone (by rw [hinit, h]; rfl)
          have hpos := List.length_pos_iff.mpr hne
          rw [hinit, List.length_append, List.length_singleton]
          omega
        have hline := forEachLineReverseLoop_append hrow hcr (.inl rfl) fuel
        rw [List.nil_append] at hline
        rw [if_neg hlone, hline, hend]
    | cons r rows =>
      have hcr (hlast : row.getLast? = some (ch '\r')) :
          2 ≤ (savePlaylist (r :: rows)).length + row.length := by
        have hpos := List.length_pos_of_ne_nil (List.ne_nil_of_mem (List.mem_of_getLast? hlast))
        rw [savePlaylist_cons, List.length_append, List.length_cons]
        omega
      rw [forEachLineReverseLoop_append hrow hcr (savePlaylist_end _), ih hfront (by omega)]
      simp

/-- The buffer as it has to end and to begin: with a newline behind the last line, or a
carriage return in its place, or a NUL in that line, and with no line end of two bytes. -/
structure Mirrored (buf : Text) : Prop where
  tail : buf.rtakeWhile (· ≠ ch '\n') = [] ∨ buf.getLast? = some (ch '\r') ∨
    0 ∈ buf.rtakeWhile (· ≠ ch '\n')
  head : ¬ [ch '\r', ch '\n'] <+: buf

theorem firstBackwards_iff (row : Text) :
    firstBackwards row = toLine (stripCr row) ↔ row ≠ [ch '\r'] := by
  rw [firstBackwards]
  by_cases hlone : row = [ch '\r']
  · rw [if_pos hlone, hlone]
    exact iff_of_false (by decide) fun h => h rfl
  · rw [if_neg hlone]
    exact iff_of_true rfl hlone

/-- The last byte of a line does not show where it is a carriage return, or behind a NUL. -/
theorem dropLast_iff {last : Text} (hne : last ≠ []) :
    toLine last.dropLast = toLine (stripCr last) ↔
      last.getLast? = some (ch '\r') ∨ 0 ∈ last := by
  rw [stripCr]
  split
  · next hcr => exact iff_of_true rfl (.inl hcr)
  · next hcr =>
    obtain ⟨init, c, rfl⟩ : ∃ init c, last = init ++ [c] :=
      ⟨last.dropLast, last.getLast hne, (List.dropLast_concat_getLast hne).symm⟩
    rw [List.dropLast_concat, or_iff_right hcr, List.mem_append, List.mem_singleton]
    by_cases hzero : 0 ∈ init
    · obtain ⟨front, back, rfl⟩ := List.append_of_mem hzero
      refine iff_of_true ?_ (.inl hzero)
      rw [List.append_assoc, List.cons_append, toLine, toLine, List.takeWhile_append,
        List.takeWhile_append]
      simp
    · have hall : ∀ b ∈ init, decide (b ≠ 0) = true :=
        fun b hb => decide_eq_true fun h => hzero (h ▸ hb)
      rw [or_iff_right hzero, toLine_of_notMem hzero, toLine,
        List.takeWhile_append_of_pos hall]
      by_cases hc : c = 0
      · rw [hc]
        exact iff_of_true (List.append_nil init).symm rfl
      · have hkeep : [c].takeWhile (fun b => decide (b ≠ 0)) = [c] :=
          List.takeWhile_cons_of_pos (decide_eq_true hc)
        rw [hkeep]
        refine iff_of_false (fun h => ?_) fun h => hc h.symm
        exact List.cons_ne_nil _ _ (List.self_eq_append_right.mp h)

theorem head_iff {buf : Text} {rows : List Text} {last : Text} (h : Lines buf rows last) :
    [ch '\r', ch '\n'] <+: buf ↔ rows.head? = some [ch '\r'] := by
  rw [h.joined]
  cases rows with
  | nil =>
    refine iff_of_false (fun hfront => h.last (hfront.subset ?_)) nofun
    exact List.mem_cons_of_mem _ List.mem_cons_self
  | cons row rows =>
    have hrow := h.rows row List.mem_cons_self
    rw [savePlaylist_cons, List.head?_cons, Option.some.injEq, List.append_assoc,
      List.cons_append]
    constructor
    · intro hfront
      obtain ⟨more, hmore⟩ := hfront
      cases row with
      | nil => exact absurd (List.cons.inj hmore).1 (by decide)
      | cons c row =>
        obtain ⟨hc, hmore⟩ := List.cons.inj hmore
        cases row with
        | nil => rw [hc]
        | cons d row =>
          obtain ⟨hd, -⟩ := List.cons.inj hmore
          exact absurd (hd ▸ List.mem_cons_of_mem c List.mem_cons_self) hrow
    · intro hlone
      rw [hlone]
      exact ⟨_, rfl⟩

theorem tail_iff {buf : Text} {rows : List Text} {last : Text} (h : Lines buf rows last) :
    (buf.rtakeWhile (· ≠ ch '\n') = [] ∨ buf.getLast? = some (ch '\r') ∨
        0 ∈ buf.rtakeWhile (· ≠ ch '\n')) ↔
      last = [] ∨ last.getLast? = some (ch '\r') ∨ 0 ∈ last := by
  have hclean : ∀ c ∈ last, decide (c ≠ ch '\n') = true :=
    fun c hc => decide_eq_true fun heq => h.last (heq ▸ hc)
  have hstop : savePlaylist rows = [] ∨
      ∃ c, (savePlaylist rows).getLast? = some c ∧ decide (c ≠ ch '\n') = false :=
    (savePlaylist_end rows).imp_right fun hnl => ⟨_, hnl, by decide⟩
  rw [h.joined, (rtakeWhile_append hclean hstop).1]
  by_cases hempty : last = []
  · exact iff_of_true (.inl hempty) (.inl hempty)
  · rw [List.getLast?_append_of_ne_nil _ hempty]

/-- The lines are the same in reverse, if and only if the buffer ends and begins so. -/
theorem reverse_iff (buf : Text) :
    bufferForEachLineReverse buf = (bufferForEachLine buf).reverse ↔ Mirrored buf := by
  obtain ⟨rows, last, h⟩ := exists_lines buf
  have hmirrored : Mirrored buf ↔ (last = [] ∨ last.getLast? = some (ch '\r') ∨ 0 ∈ last) ∧
      rows.head? ≠ some [ch '\r'] := by
    rw [← tail_iff h, Ne, ← head_iff h]
    exact ⟨fun hm => ⟨hm.tail, hm.head⟩, fun hm => ⟨hm.1, hm.2⟩⟩
  have hforward : bufferForEachLine buf = rows.map (fun row => toLine (stripCr row)) ++
      if last = [] then [] else [toLine (stripCr last)] := by
    rw [bufferForEachLine, h.joined]
    exact forEachLine_rows h.rows h.last (Nat.le_refl _)
  -- the first row is the last line backwards
  have hfirst : (rows.tail.map fun row => toLine (stripCr row)).reverse ++
        (rows.head?.map firstBackwards).toList =
      (rows.map fun row => toLine (stripCr row)).reverse ↔ rows.head? ≠ some [ch '\r'] := by
    cases rows with
    | nil => exact iff_of_true rfl fun h => by cases h
    | cons row rows =>
      rw [List.tail_cons, List.head?_cons, Option.map_some, Option.toList_some, List.map_cons,
        List.reverse_cons, List.append_cancel_left_eq, List.cons.injEq, and_iff_left rfl,
        firstBackwards_iff]
      exact not_congr (Option.some.injEq row _).to_iff.symm
  rw [hmirrored, hforward]
  by_cases hempty : last = []
  · have hbuf : buf = savePlaylist rows := by rw [h.joined, hempty, List.append_nil]
    rw [if_pos hempty, List.append_nil, and_iff_right (.inl hempty), ← hfirst,
      bufferForEachLineReverse, hbuf, reverse_rows h.rows (Nat.le_refl _)]
  · have hpos := List.length_pos_iff.mpr hempty
    have hlength : buf.length = (savePlaylist rows).length + last.length := by
      rw [h.joined, List.length_append]
    obtain ⟨fuel, hfuel⟩ : ∃ k, buf.length = k + 1 := ⟨buf.length - 1, by omega⟩
    rw [if_neg hempty, List.reverse_append, List.reverse_singleton, List.singleton_append,
      or_iff_right hempty, ← dropLast_iff hempty, ← hfirst, bufferForEachLineReverse, hfuel,
      h.joined, forEachLineReverse_last rows h.last hempty fuel,
      reverse_rows h.rows (by omega), List.cons.injEq]

/-- Forwards every callback gets the lines of the buffer, and backwards the same ones in
reverse, up to where it stops, if and only if the buffer ends and begins so. -/
theorem forEachLine_mirrored_iff (buf : Text) :
    ((∀ (D : Type) (cb : D → Text → Int × D) (data : D),
        forEachLineCb cb buf.length buf data = callUntil cb (bufferForEachLine buf) data) ∧
      ∀ (D : Type) (cb : D → Text → Int × D) (data : D),
        forEachLineReverseCb cb buf.length buf data =
          callUntil cb (bufferForEachLine buf).reverse data) ↔ Mirrored buf := by
  have hforward : ∀ (D : Type) (cb : D → Text → Int × D) (data : D),
      forEachLineCb cb buf.length buf data = callUntil cb (bufferForEachLine buf) data :=
    fun D cb data => forEachLineCb_eq cb buf.length buf data
  have hbackward : ∀ (D : Type) (cb : D → Text → Int × D) (data : D),
      forEachLineReverseCb cb buf.length buf data =
        callUntil cb (bufferForEachLineReverse buf) data :=
    fun D cb data => forEachLineReverseCb_eq cb buf.length buf data
  rw [and_iff_right hforward, ← reverse_iff, ← callUntil_inj]
  exact forall₃_congr fun D cb data => by rw [hbackward]

/-- The last line loses a byte, and a carriage return at the start is not dropped. -/
theorem forEachLine_not_mirrored :
    bufferForEachLine (ascii "a\nbc") = [ascii "a", ascii "bc"] ∧
      bufferForEachLineReverse (ascii "a\nbc") = [ascii "b", ascii "a"] ∧
      bufferForEachLine (ascii "\r\n") = [[]] ∧
      bufferForEachLineReverse (ascii "\r\n") = [ascii "\r"] ∧
      ¬ ∀ buf : Text, ∀ (cb : List Text → Text → Int × List Text) (data : List Text),
        forEachLineReverseCb cb buf.length buf data =
          callUntil cb (bufferForEachLine buf).reverse data := by
  refine ⟨by decide +kernel, by decide +kernel, by decide +kernel, by decide +kernel,
    fun h => ?_⟩
  have hlog := h (ascii "a\nbc") (fun log line => (0, log ++ [line])) []
  revert hlog
  decide +kernel

end GracefulMusic.Pl
