import GracefulMusic.Format.Copying
import GracefulMusic.Format.Language

/-! The columns that a format prints.

A part of the line has the columns that were counted, with two exceptions: a field narrower
than the clip mark loses the half of a wide character that the mark cuts, and a literal that
is no character gains columns. -/
namespace GracefulMusic.Format

/-! ### Calls -/

section
variable {D : Type} {T : Terminal D}

/-- A part is longer by what was counted, but for the columns that are lost. -/
structure Extends (T : Terminal D) (line line' : Line) (lost : Int) : Prop where
  width : T.uStrWidth line'.text + line.len + lost = T.uStrWidth line.text + line'.len
  len : line.len ≤ line'.len
  plain : ∀ u ∈ line'.text, Plain u

variable {line : Line} {field : Field} {width : Int}

theorem add_extends (hline : ∀ u ∈ line.text, Plain u) {s : List Uchar}
    (hs : ∀ u ∈ s, Printable u) : Extends T line (line.add s) 0 := by
  refine ⟨?_, ?_, Terminal.append_plain hline fun u hu => (hs u hu).plain⟩
  · show T.uStrWidth (line.text ++ s) + line.len + 0 = T.uStrWidth line.text + (line.len + s.length)
    rw [T.uStrWidth_append, T.uStrWidth_single fun u hu => T.uCharWidth_printable (hs u hu)]
    omega
  · show line.len ≤ line.len + s.length
    omega

theorem stackPrint_extends (hline : ∀ u ∈ line.text, Plain u) {stack : List Uchar}
    (hstack : ∀ u ∈ stack, Printable u) : Extends T line (stackPrint field width stack line) 0 := by
  have hpad : Printable (if field.padZero then uch '0' else uch ' ') := by
    split <;> decide
  rw [stackPrint]
  split
  · exact add_extends hline hstack
  split
  · refine add_extends hline fun u hu => ?_
    rcases List.mem_append.mp hu with hu | hu
    · exact hstack u (List.mem_of_mem_take hu)
    · exact List.eq_of_mem_replicate hu ▸ hpad
  · refine add_extends hline fun u hu => ?_
    rcases List.mem_append.mp hu with hu | hu
    · exact List.eq_of_mem_replicate hu ▸ hpad
    · exact hstack u (List.mem_of_mem_drop hu)

theorem digit_printable {n : Int} (hn : n.natAbs ≤ 9) : Printable (digit n) := by
  have hnat : (n + 48).toNat < 2 ^ 32 := by omega
  refine ⟨UInt32.le_iff_toNat_le.mpr ?_, UInt32.lt_iff_toNat_lt.mpr ?_⟩
  all_goals
    rw [digit, UInt32.toNat_ofNat_of_lt' hnat]
    simp
    omega

theorem digits_printable (fuel : Nat) (num : Int) : ∀ u ∈ digits fuel num, Printable u := by
  induction fuel generalizing num with
  | zero =>
    intro u hu
    cases hu
  | succ fuel ih =>
    intro u hu
    rw [digits] at hu
    rcases List.mem_append.mp hu with hu | hu
    · split at hu
      · cases hu
      · exact ih _ u hu
    · rw [List.mem_singleton.mp hu]
      apply digit_printable
      rw [Int.natAbs_tmod]
      exact Nat.le_of_lt_succ (Nat.mod_lt _ (by decide))

theorem timeStack_printable (leadingZero : Bool) (t : Int) :
    ∀ u ∈ timeStack leadingZero t, Printable u := by
  have hdiv : ∀ a b : Int, (a.tdiv b).natAbs = a.natAbs / b.natAbs := Int.natAbs_tdiv
  have hm : ∀ a : Int, (((a.tmod 3600).tdiv 60).tdiv 10).natAbs ≤ 9 ∧
      (((a.tmod 3600).tdiv 60).tmod 10).natAbs ≤ 9 := by
    intro a
    simp only [hdiv, Int.natAbs_tmod]
    show a.natAbs % 3600 / 60 / 10 ≤ 9 ∧ a.natAbs % 3600 / 60 % 10 ≤ 9
    omega
  have hs : ∀ a : Int, (((a.tmod 3600).tmod 60).tdiv 10).natAbs ≤ 9 ∧
      (((a.tmod 3600).tmod 60).tmod 10).natAbs ≤ 9 := by
    intro a
    simp only [hdiv, Int.natAbs_tmod]
    show a.natAbs % 3600 % 60 / 10 ≤ 9 ∧ a.natAbs % 3600 % 60 % 10 ≤ 9
    omega
  have hcolon : Printable (uch ':') := by decide
  intro u hu
  rw [timeStack] at hu
  generalize (if t < 0 then toInt (t * -1) else t) = a at hu
  obtain ⟨hm1, hm2⟩ := hm a
  obtain ⟨hs1, hs2⟩ := hs a
  simp only [List.mem_append, List.mem_cons, List.not_mem_nil, or_false] at hu
  rcases hu with ((hu | hu) | hu) | rfl | rfl | rfl | rfl
  · split at hu
    · rw [List.mem_singleton.mp hu]
      decide
    · cases hu
  · split at hu
    · rcases List.mem_append.mp hu with hu | hu
      · exact digits_printable 10 _ u hu
      · rw [List.mem_singleton.mp hu]
        exact hcolon
    · cases hu
  · split at hu
    · rw [List.mem_singleton.mp hu]
      exact digit_printable hm1
    · cases hu
  · exact digit_printable hm2
  · exact hcolon
  · exact digit_printable hs1
  · exact digit_printable hs2

variable (T) in
/-- The columns that a string loses where a mark wider than the field cuts a character of the
text before. -/
def strLost (field : Field) (width : Int) (src text : List Uchar) : Int :=
  if width ≠ 0 ∧ field.widthIsExact ∧ field.alignLeft = false ∧ width < T.uStrWidth src ∧
      width < T.uStrWidth T.mark then
    T.partOfChar text (T.uStrWidth text + width - T.uStrWidth T.mark)
  else 0

/-- The mark in front of a string that is too long. -/
theorem mark_extends (hmark : T.SingleWidth) (hwidth : 0 ≤ width) (text : List Uchar) :
    T.uStrWidth (T.gbufAddUstr text T.mark (min (T.uStrWidth T.mark) width)).1 +
        (if width < T.uStrWidth T.mark then
          T.partOfChar text (T.uStrWidth text + width - T.uStrWidth T.mark) else 0) =
      T.uStrWidth text + min (T.uStrWidth T.mark) width := by
  have hplain : ∀ u ∈ T.mark, Plain u := fun u hu => (hmark u hu).1
  split
  · rename_i hnarrow
    obtain ⟨hsum, -, -⟩ := Terminal.gbufAddUstr_spec hmark text hplain hwidth
    rw [Int.min_eq_right (Int.le_of_lt hnarrow), ← Terminal.gbufAddUstr_mark hmark hwidth hnarrow]
    exact hsum
  · rename_i hwide
    rw [Int.min_eq_left (Int.not_lt.mp hwide), Terminal.gbufAddUstr_fits hplain (Int.le_refl _),
      Int.add_zero]
    exact T.uStrWidth_append _ _

/-- A string that is too long: the mark, and as much of its end as there is room for. -/
theorem clipped_columns (hmark : T.SingleWidth) (hwidth : 0 ≤ width) {src text : List Uchar}
    (htext : ∀ u ∈ text, Plain u) (hsrc : ∀ u ∈ src, Plain u) :
    ∃ front rest skip, T.uSkipChars true src
        (T.uStrWidth src - width + min (T.uStrWidth T.mark) width) = some (front, rest, skip) ∧
      T.uStrWidth (T.gbufAddUstr ((T.gbufAddUstr text T.mark (min (T.uStrWidth T.mark) width)).1 ++
          spaces (-skip)) rest width).1 +
          (if width < T.uStrWidth T.mark then
            T.partOfChar text (T.uStrWidth text + width - T.uStrWidth T.mark) else 0) =
        T.uStrWidth text + width ∧
      ∀ u ∈ (T.gbufAddUstr ((T.gbufAddUstr text T.mark (min (T.uStrWidth T.mark) width)).1 ++
        spaces (-skip)) rest width).1, Plain u := by
  have hmarkWidth := T.uStrWidth_nonneg T.mark
  have hclip := mark_extends hmark hwidth text
  have hmarked : ∀ u ∈ (T.gbufAddUstr text T.mark (min (T.uStrWidth T.mark) width)).1, Plain u :=
    (Terminal.gbufAddUstr_spec hmark text (fun u hu => (hmark u hu).1) (by omega)).2.2 htext
  obtain ⟨front, rest, skip, hskip⟩ := T.uSkipChars_some (s := src)
    (n := T.uStrWidth src - width + min (T.uStrWidth T.mark) width) (by omega)
  obtain ⟨hsplit, hsum, hover⟩ := T.uSkipChars_over hskip
  have hrest : ∀ u ∈ rest, Plain u := fun u hu => hsrc u (hsplit ▸ List.mem_append_right _ hu)
  have hwidths : T.uStrWidth front + T.uStrWidth rest = T.uStrWidth src := by
    rw [← hsplit, T.uStrWidth_append]
  refine ⟨front, rest, skip, hskip, ?_, ?_⟩
  · rw [Terminal.gbufAddUstr_fits hrest (by omega), T.uStrWidth_append, T.uStrWidth_append,
      T.uStrWidth_spaces (by omega)]
    omega
  · rw [Terminal.gbufAddUstr_fits hrest (by omega)]
    exact Terminal.append_plain (Terminal.append_plain hmarked Terminal.spaces_plain) hrest

theorem printStr_extends (hmark : T.SingleWidth) (hwidth : 0 ≤ width)
    (hline : ∀ u ∈ line.text, Plain u) {src : List Uchar} (hsrc : ∀ u ∈ src, Plain u) :
    Extends T line (printStr T field width src line) (strLost T field width src line.text) := by
  have hnonneg := T.uStrWidth_nonneg src
  rw [printStr]
  dsimp only
  by_cases hexact : width ≠ 0 ∧ field.widthIsExact
  · rw [if_pos hexact]
    by_cases halign : field.alignLeft = true
    · obtain ⟨hsum, hleft, hplain⟩ :=
        Terminal.gbufAddUstr_spec hmark line.text hsrc hwidth
      rw [if_pos halign, strLost, if_neg (by simp [halign])]
      refine ⟨?_, ?_, Terminal.append_plain (hplain hline) Terminal.spaces_plain⟩
      · dsimp only
        rw [T.uStrWidth_append, T.uStrWidth_spaces hleft]
        omega
      · show line.len ≤ line.len + width
        omega
    rw [if_neg halign]
    by_cases hlong : width - T.uStrWidth src < 0
    · rw [if_pos hlong]
      obtain ⟨front, rest, skip, hskip, hsum, hplain⟩ :=
        clipped_columns hmark hwidth hline hsrc
      have hlost : strLost T field width src line.text = if width < T.uStrWidth T.mark then
          T.partOfChar line.text (T.uStrWidth line.text + width - T.uStrWidth T.mark) else 0 := by
        have hright : field.alignLeft = false := Bool.eq_false_iff.mpr halign
        rw [strLost]
        apply if_congr _ rfl rfl
        exact ⟨fun h => h.2.2.2.2, fun h => ⟨hexact.1, hexact.2, hright, by omega, h⟩⟩
      rw [hskip, hlost]
      refine ⟨?_, ?_, hplain⟩
      · dsimp only
        omega
      · show line.len ≤ line.len + width
        omega
    · rw [if_neg hlong, Terminal.gbufAddUstr_fits hsrc (by omega), strLost, if_neg (by omega)]
      refine ⟨?_, ?_,
        Terminal.append_plain (Terminal.append_plain hline Terminal.spaces_plain) hsrc⟩
      · dsimp only
        rw [T.uStrWidth_append, T.uStrWidth_append, T.uStrWidth_spaces (by omega)]
        omega
      · show line.len ≤ line.len + width
        omega
  · have hlost : strLost T field width src line.text = 0 :=
      if_neg fun h => hexact ⟨h.1, h.2.1⟩
    rw [if_neg hexact, hlost]
    have hroom : 1 ≤ (if width = 0 then T.uStrWidth src else width) ∨
        T.uStrWidth src ≤ (if width = 0 then T.uStrWidth src else width) := by
      split
      · exact .inr (Int.le_refl _)
      · exact .inl (by omega)
    generalize (if width = 0 then T.uStrWidth src else width) = w at hroom ⊢
    have hw : 0 ≤ w := by omega
    obtain ⟨hsum, -, hplain⟩ := Terminal.gbufAddUstr_spec hmark line.text hsrc hw
    have hleft := Terminal.gbufAddUstr_left hmark hline hsrc hroom
    refine ⟨?_, ?_, hplain hline⟩
    · dsimp only
      omega
    · dsimp only
      omega

theorem printNum_extends (hline : ∀ u ∈ line.text, Plain u) (num : Int) :
    Extends T line (printNum field width num line) 0 := by
  rw [printNum]
  split
  · refine add_extends hline fun u hu => ?_
    rw [List.eq_of_mem_replicate hu]
    decide
  · exact stackPrint_extends hline (digits_printable 10 num)

/-- A value without control characters or invalid bytes. -/
def FormatOption.Displayable (fo : FormatOption D) : Prop :=
  ∀ val, fo.value = .str val → ∀ u ∈ chars val, Plain u

variable (T)

def FormatOption.lost (field : Field) (width : Int) (fo : FormatOption D) (text : List Uchar) :
    Int :=
  if fo.empty then 0
  else
    match fo.value with
    | .str val => strLost T field width (chars val) text
    | _ => 0

/-- The columns lost at a call, and those gained: a literal that is no character is counted as
one column and printed in four. -/
def Call.lost (text : List Uchar) : Call D → Int
  | .char _ => 0
  | .option field columns fo => fo.lost T field columns text

def Call.gained : Call D → Int
  | .char u => T.uStrWidth (uSetChar u) - T.uCharWidth u
  | .option .. => 0

variable {T}

/-- The literal is not the terminator in more than one byte, the width has not overflowed. -/
def Call.InRange : Call D → Prop
  | .char u => u ≠ 0
  | .option _ columns _ => 0 ≤ columns

instance inRangeDecidable (call : Call D) : Decidable call.InRange :=
  match call with
  | .char u => inferInstanceAs (Decidable (u ≠ 0))
  | .option _ columns _ => inferInstanceAs (Decidable (0 ≤ columns))

/-- What a call is given in a run over a table of displayable values. -/
def Call.Sane : Call D → Prop
  | .char u => u ≠ 0
  | .option _ columns fo => 0 ≤ columns ∧ fo.Displayable

theorem option_extends (hmark : T.SingleWidth) (hwidth : 0 ≤ width)
    (hline : ∀ u ∈ line.text, Plain u) {fo : FormatOption D} (hfo : fo.Displayable) :
    Extends T line (fo.exec T field width line) (fo.lost T field width line.text) := by
  unfold FormatOption.exec FormatOption.lost
  split
  · refine add_extends hline fun u hu => ?_
    rw [List.eq_of_mem_replicate hu]
    exact Terminal.space_printable
  cases hvalue : fo.value with
  | str val => exact printStr_extends hmark hwidth hline (hfo val hvalue)
  | int val => exact printNum_extends hline val
  | time val => exact stackPrint_extends hline (timeStack_printable T.timeShowLeadingZero val)
  | double val => exact stackPrint_extends hline (T.formatDouble_ascii val)

theorem uSetChar_shown {u : Uchar} (hu : u ≠ 0) : ∀ v ∈ uSetChar u, Plain v := by
  intro v hv
  rw [uSetChar] at hv
  split at hv
  · rename_i hrange
    rw [List.mem_singleton.mp hv]
    exact hrange
  · simp only [List.mem_cons, List.not_mem_nil, or_false] at hv
    rcases hv with rfl | rfl | rfl | rfl
    · exact Printable.plain (by decide)
    · exact (hexTab_printable _).plain
    · exact (hexTab_printable _).plain
    · exact Printable.plain (by decide)

theorem call_extends (hmark : T.SingleWidth) (hline : ∀ u ∈ line.text, Plain u) {call : Call D}
    (hcall : call.Sane) :
    Extends T line (call.exec T line) (call.lost T line.text - call.gained T) := by
  cases call with
  | char u =>
    refine ⟨?_, ?_, Terminal.append_plain hline (uSetChar_shown hcall)⟩
    · show T.uStrWidth (line.text ++ uSetChar u) + line.len +
        (0 - (T.uStrWidth (uSetChar u) - T.uCharWidth u)) =
        T.uStrWidth line.text + (line.len + T.uCharWidth u)
      rw [T.uStrWidth_append]
      omega
    · show line.len ≤ line.len + T.uCharWidth u
      have hu := T.uCharWidth_nonneg u
      omega
  | option field columns fo =>
    show Extends T line (fo.exec T field columns line) (fo.lost T field columns line.text - 0)
    rw [Int.sub_zero]
    exact option_extends hmark hcall.1 hline hcall.2

/-! ### Runs -/

variable (T) in
/-- The columns that a part gains in a run, less those that it loses. -/
def balance (p : Part) : Lines → List (Part × Call D) → Int
  | _, [] => 0
  | lines, call :: rest =>
    (if call.1 = p then call.2.gained T - call.2.lost T (lines p).text else 0) +
      balance p (lines.exec T call) rest

theorem run_extends (hmark : T.SingleWidth) {calls : List (Part × Call D)}
    (hcalls : ∀ call ∈ calls, call.2.Sane) {lines : Lines}
    (hlines : ∀ p, ∀ u ∈ (lines p).text, Plain u) (p : Part) :
    Extends T (lines p) (lines.run T calls p) (-balance T p lines calls) := by
  induction calls generalizing lines with
  | nil => exact ⟨by rw [balance]; exact Int.add_zero _, Int.le_refl _, hlines p⟩
  | cons call calls ih =>
    have hstep : Extends T (lines p) (lines.exec T call p)
        (-(if call.1 = p then call.2.gained T - call.2.lost T (lines p).text else 0)) := by
      by_cases hp : call.1 = p
      · subst hp
        rw [if_pos rfl, Lines.exec, Function.update_self, Int.neg_sub]
        exact call_extends hmark (hlines _) (hcalls call (.head _))
      · rw [if_neg hp, Lines.exec, Function.update_of_ne (Ne.symm hp)]
        exact ⟨Int.add_zero _, Int.le_refl _, hlines p⟩
    have hnext : ∀ q, ∀ u ∈ (lines.exec T call q).text, Plain u := by
      intro q
      by_cases hq : q = call.1
      · subst hq
        rw [Lines.exec, Function.update_self]
        exact (call_extends hmark (hlines _) (hcalls call (.head _))).plain
      · rw [Lines.exec, Function.update_of_ne hq]
        exact hlines q
    have hrun := ih (fun c hc => hcalls c (.tail _ hc)) hnext
    have hwidth := hstep.width
    have hrunWidth := hrun.width
    refine ⟨?_, Int.le_trans hstep.len hrun.len, hrun.plain⟩
    rw [balance]
    show T.uStrWidth ((lines.exec T call).run T calls p).text + (lines p).len + _ =
      T.uStrWidth (lines p).text + ((lines.exec T call).run T calls p).len
    omega

/-! ### The line -/

/-- What the parts have more or less than was counted decides about the line: what is missing on
the left or in the middle is padded where they are clipped. -/
theorem formatWrite_columns (hmark : T.SingleWidth) {lines : Lines} {buf : List Uchar}
    {strWidth : Int} (hwidth : 0 < strWidth) (hlines : ∀ p, ∀ u ∈ (lines p).text, Plain u)
    (hlen : ∀ p, 0 ≤ (lines p).len) {b : Part → Int}
    (hb : ∀ p, T.uStrWidth (lines p).text = (lines p).len + b p) :
    (∃ out, formatWrite T lines buf strWidth = some out ∧
        T.uStrWidth out = T.uStrWidth buf + strWidth) ↔
      if (lines .left).len + (lines .middle).len + (lines .right).len ≤ strWidth then
        b .left + b .middle + b .right = 0
      else b .right = 0 := by
  have hleft := hb .left
  have hmiddle := hb .middle
  have hright := hb .right
  rw [formatWrite]
  dsimp only
  rw [if_neg (by omega : ¬ strWidth = 0)]
  split
  · rename_i hfits
    have hout : T.uStrWidth (buf ++ (lines .left).text ++ (lines .middle).text ++ spaces (strWidth -
        ((lines .left).len + (lines .middle).len + (lines .right).len)) ++ (lines .right).text) =
        T.uStrWidth buf + strWidth + (b .left + b .middle + b .right) := by
      simp only [T.uStrWidth_append]
      rw [T.uStrWidth_spaces (by omega)]
      omega
    constructor
    · intro h
      obtain ⟨out, hsome, hcolumns⟩ := h
      rw [← Option.some.inj hsome, hout] at hcolumns
      omega
    · intro hzero
      refine ⟨_, rfl, ?_⟩
      rw [hout, hzero, Int.add_zero]
  · have hmarkWidth := T.uStrWidth_nonneg T.mark
    have hmiddleLen := hlen .middle
    have hrightLen := hlen .right
    generalize hclip : min (T.uStrWidth T.mark + 1) strWidth = clippedMarkLen
    generalize hrWidth : min (strWidth - clippedMarkLen) (lines .right).len = rWidth
    generalize hmWidth : min (strWidth - clippedMarkLen - rWidth) (lines .middle).len = mWidth
    obtain ⟨hleftSum, hleftLeft, -⟩ := Terminal.gbufAddUstr_spec hmark buf (hlines .left)
      (w := strWidth - clippedMarkLen - rWidth - mWidth + clippedMarkLen) (by omega)
    rcases hleftOut : T.gbufAddUstr buf (lines .left).text
      (strWidth - clippedMarkLen - rWidth - mWidth + clippedMarkLen) with ⟨buf₁, lLeft⟩
    rw [hleftOut] at hleftSum hleftLeft
    obtain ⟨hmiddleSum, hmiddleLeft, -⟩ :=
      Terminal.gbufAddUstr_spec hmark buf₁ (hlines .middle) (w := mWidth) (by omega)
    rcases hmiddleOut : T.gbufAddUstr buf₁ (lines .middle).text mWidth with ⟨buf₂, mLeft⟩
    rw [hmiddleOut] at hmiddleSum hmiddleLeft
    dsimp only at hleftSum hleftLeft hmiddleSum hmiddleLeft ⊢
    constructor
    · intro h
      obtain ⟨out, hsome, hcolumns⟩ := h
      obtain ⟨⟨front, rest, rSkip⟩, hskip, hout⟩ := Option.map_eq_some_iff.mp hsome
      obtain ⟨hsplit, hsum, hover⟩ := T.uSkipChars_over hskip
      have hwidths : T.uStrWidth front + T.uStrWidth rest = T.uStrWidth (lines .right).text := by
        rw [← hsplit, T.uStrWidth_append]
      rw [← hout] at hcolumns
      simp only [T.uStrWidth_append] at hcolumns
      rw [T.uStrWidth_spaces (by omega)] at hcolumns
      omega
    · intro hzero
      obtain ⟨front, rest, rSkip, hskip⟩ := T.uSkipChars_some (s := (lines .right).text)
        (n := (lines .right).len - rWidth) (by omega)
      obtain ⟨hsplit, hsum, hover⟩ := T.uSkipChars_over hskip
      have hwidths : T.uStrWidth front + T.uStrWidth rest = T.uStrWidth (lines .right).text := by
        rw [← hsplit, T.uStrWidth_append]
      refine ⟨_, Option.map_eq_some_iff.mpr ⟨_, hskip, rfl⟩, ?_⟩
      simp only [T.uStrWidth_append]
      rw [T.uStrWidth_spaces (by omega)]
      omega

variable (T) in
/-- What is gained makes up for what is lost: in the whole line if it fits, else on the right. -/
def Balanced (calls : List (Part × Call D)) (strWidth : Int) : Prop :=
  let lines := Lines.empty.run T calls
  let b p := balance T p Lines.empty calls
  if (lines .left).len + (lines .middle).len + (lines .right).len ≤ strWidth then
    b .left + b .middle + b .right = 0
  else b .right = 0

instance balancedDecidable (calls : List (Part × Call D)) (strWidth : Int) :
    Decidable (Balanced T calls strWidth) :=
  inferInstanceAs (Decidable (
    if (Lines.empty.run T calls .left).len + (Lines.empty.run T calls .middle).len +
        (Lines.empty.run T calls .right).len ≤ strWidth then
      balance T .left Lines.empty calls + balance T .middle Lines.empty calls +
        balance T .right Lines.empty calls = 0
    else balance T .right Lines.empty calls = 0))

theorem write_balanced (hmark : T.SingleWidth) {calls : List (Part × Call D)}
    (hcalls : ∀ call ∈ calls, call.2.Sane) {strWidth : Int} (hwidth : 0 < strWidth)
    (buf : List Uchar) :
    (∃ out, formatWrite T (Lines.empty.run T calls) buf strWidth = some out ∧
        T.uStrWidth out = T.uStrWidth buf + strWidth) ↔ Balanced T calls strWidth := by
  have hempty : ∀ p, ∀ u ∈ (Lines.empty p).text, Plain u := by
    intro p u hu
    cases hu
  have hrun := run_extends hmark hcalls hempty
  refine formatWrite_columns (b := fun p => balance T p Lines.empty calls) hmark hwidth
    (fun p => (hrun p).plain) (fun p => (hrun p).len) fun p => ?_
  have hp := (hrun p).width
  have hnone : T.uStrWidth (Lines.empty p).text = 0 := rfl
  have hzero : (Lines.empty p).len = 0 := rfl
  omega

end

/-! ### Formats -/

section
variable {D : Type} {env : Env} {strWidth : Int} {fopts : List (FormatOption D)}

/-- Only options of the table are printed. -/
theorem print_options {p : Pieces} {out : Out D} {part : Part} {field : Field} {columns : Int}
    {fo : FormatOption D}
    (h : (part, Call.option field columns fo) ∈ (p.print env strWidth fopts out).printed) :
    (part, Call.option field columns fo) ∈ out.printed ∨ fo ∈ fopts := by
  induction p generalizing out with
  | nil => exact .inl h
  | char u rest ih =>
    rcases ih h with h | h
    · rcases List.mem_append.mp h with h | h
      · exact .inl h
      · cases List.mem_singleton.mp h
    · exact .inr h
  | part p rest ih =>
    rw [Pieces.print] at h
    exact @ih ⟨p, out.printed⟩ h
  | field f key rest ih =>
    rw [Pieces.print] at h
    cases hfind : fopts.find? (FormatOption.matches · key) with
    | none =>
      rw [hfind] at h
      exact ih h
    | some found =>
      rw [hfind] at h
      rcases ih h with h | h
      · rcases List.mem_append.mp h with h | h
        · exact .inl h
        · cases List.mem_singleton.mp h
          exact .inr (List.mem_of_find?_eq_some hfind)
      · exact .inr h
  | cond c yes no rest ihyes ihno ihrest =>
    rw [Pieces.print] at h
    rcases ihrest h with h | h
    · split at h
      · exact ihyes h
      · exact ihno h
    · exact .inr h

theorem read_sane {format : Text} {out : Out D}
    (hvalid : formatValid env.toEnv fopts format = .ok true)
    (hvalues : ∀ fo ∈ fopts, fo.Displayable)
    (hread : formatRead env strWidth fopts format = .ok out)
    (hcalls : ∀ call ∈ out.printed, call.2.InRange) : ∀ call ∈ out.printed, call.2.Sane := by
  obtain ⟨p, hreads, hallowed⟩ := reads_of_valid hvalid
  have hprint : formatRead env strWidth fopts format =
      .ok (p.print env strWidth fopts ⟨.left, []⟩) :=
    print_of_reads strWidth hreads hallowed (Nat.zero_le _) (Nat.le_refl _) _
  obtain rfl := Except.ok.inj (hprint.symm.trans hread)
  intro pc hmem
  obtain ⟨part, call⟩ := pc
  have hrange := hcalls _ hmem
  cases call with
  | char u => exact hrange
  | option field columns fo =>
    rcases print_options hmem with hnone | hfo
    · cases hnone
    · exact ⟨hrange, hvalues fo hfo⟩

end

/-! ### A wide character under the mark -/

/-- Characters from U+1100 on are wide, and the clip mark has three columns. -/
def wideTerminal : Terminal Unit where
  usingUtf8 := true
  wcwidth u := if u < 0x1100 then 1 else 2
  wcwidth_le u := by split <;> decide
  wcwidth_ascii u hu := by
    have hlt := UInt32.lt_iff_toNat_lt.mp hu.2
    rw [if_pos (UInt32.lt_iff_toNat_lt.mpr (by simp at hlt ⊢; omega))]
  clippedText := ascii "..."
  timeShowLeadingZero := false
  formatDouble _ := []
  formatDouble_ascii _ _ hu := by cases hu

def titleTable (title : Text) : List (FormatOption Unit) :=
  [⟨.str title, false, false, ch 't', some (ascii "title")⟩]

def noOptions : Env := { Expr.plainEnv with option := fun _ => none }

theorem wideTerminal_singleWidth : wideTerminal.SingleWidth := by
  have hall : (wideTerminal.mark.all fun u =>
      decide (Plain u ∧ wideTerminal.uCharWidth u = 1)) = true := by decide +kernel
  exact fun u hu => of_decide_eq_true (List.all_eq_true.mp hall u hu)

theorem titleTable_displayable {title : Text}
    (h : ((chars title).all fun u => decide (Plain u)) = true) :
    ∀ fo ∈ titleTable title, fo.Displayable := by
  intro fo hfo val hval
  rw [List.mem_singleton.mp hfo] at hval
  cases hval
  exact fun u hu => of_decide_eq_true (List.all_eq_true.mp h u hu)

end GracefulMusic.Format
