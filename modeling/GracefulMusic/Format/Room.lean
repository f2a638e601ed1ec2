import GracefulMusic.Format.Gbuf
import GracefulMusic.Format.Width
import GracefulMusic.Uchar.Validity

/-! Room for a string (`gbuf.c`).

The buffer is grown by the length of the source, and the length of what was written is taken
for a position in the source. Both are right where what is shown is as long as the string,
or shorter with the rest of it cut off. -/
namespace GracefulMusic.Format

namespace Terminal
variable {D : Type} (T : Terminal D)

/-! ### The mark -/

/-- Marking the end stays in the buffer if and only if the mark fits. -/
theorem markClippedText_isSome (buf : Gbuf) :
    (∃ r, T.markClippedText buf = some r) ↔ T.MarkFits buf.text buf.alloc := by
  have hmark : (T.copyBytes T.clippedText (T.markColumns buf.text)).bytes =
      T.shown T.mark (T.markColumns buf.text) := (T.copyBytes_spec _ _).1
  simp only [markClippedText, Option.bind_eq_bind, Option.bind_eq_some_iff, hmark]
  constructor
  · intro h
    obtain ⟨r, ⟨start, skip⟩, hskip, buf', hput, -⟩ := h
    exact ⟨start, skip, hskip, ((buf.cut start).grow_put_isSome _ _).mp ⟨buf', hput⟩⟩
  · intro h
    obtain ⟨start, skip, hskip, hin⟩ := h
    obtain ⟨buf', hput⟩ := ((buf.cut start).grow_put_isSome _ _).mpr hin
    exact ⟨_, ⟨start, skip⟩, hskip, buf', hput, rfl⟩

/-! ### A mark of single-width characters -/

/-- What is copied as it is takes no more bytes than before. -/
theorem plain_bytes_le {s : Text} {fuel idx : Nat} (hin : idx ≤ s.length)
    (hplain : ∀ u ∈ charsFrom s fuel idx, Plain u) :
    ((charsFrom s fuel idx).flatMap uSetCharBytes).length ≤ s.length - idx := by
  induction fuel generalizing idx with
  | zero => exact Nat.zero_le _
  | succ fuel ih =>
    rw [charsFrom] at hplain ⊢
    cases hget : uGetChar s idx with
    | none => exact Nat.zero_le _
    | some found =>
      obtain ⟨u, next⟩ := found
      rw [hget] at hplain
      dsimp only at hplain ⊢
      by_cases hu : u = 0
      · rw [if_pos hu]
        exact Nat.zero_le _
      rw [if_neg hu] at hplain ⊢
      rw [List.forall_mem_cons] at hplain
      obtain ⟨hhead, htail⟩ := hplain
      obtain ⟨hlt, ⟨-, hzero, -⟩ | hle⟩ := uGetChar_next hget
      · exact absurd hzero hu
      have hsize := uGetChar_size hget hhead.2
      have hrest := ih hle htail
      rw [List.flatMap_cons, List.length_append, length_uSetCharBytes, if_pos ⟨hhead.1, hhead.2⟩]
      omega

theorem fitting_prefix (src : List Uchar) (w : Int) : T.fitting src w <+: src := by
  induction src generalizing w with
  | nil => exact List.prefix_refl []
  | cons u src ih =>
    by_cases hover : w < T.uCharWidth u
    · rw [T.fitting_over hover]
      exact List.nil_prefix
    · rw [T.fitting_in hover]
      exact (List.prefix_cons_inj u).mpr (ih _)

theorem uCharWidth_terminator : T.uCharWidth 0 = 1 := rfl

/-- Skipping no more columns than there are stays in the string. -/
theorem skipLoop_isSome {str : Text} {fuel idx : Nat} {w : Int} (hin : idx ≤ str.length)
    (hfuel : str.length ≤ idx + fuel) (hw : w ≤ T.uStrWidth (charsFrom str fuel idx)) :
    ∃ start skip, T.skipLoop false str (fuel + 1) idx w = some (start, skip) := by
  induction fuel generalizing idx w with
  | zero =>
    obtain rfl : idx = str.length := by omega
    have hend : uGetChar str str.length = some (0, str.length + 1) := if_pos rfl
    have hw : ¬ 0 < w := Int.not_lt.mpr hw
    rw [skipLoop, hend]
    dsimp only
    rw [if_neg hw, if_neg (T.uCharWidth_terminator ▸ one_ne_zero)]
    exact ⟨_, _, rfl⟩
  | succ fuel ih =>
    obtain ⟨u, next, hget⟩ := uGetChar_isSome hin
    rw [charsFrom, hget] at hw
    rw [skipLoop, hget]
    dsimp only at hw ⊢
    by_cases hu : u = 0
    · subst hu
      have hw : ¬ 0 < w := Int.not_lt.mpr hw
      rw [if_neg hw, if_neg (T.uCharWidth_terminator ▸ one_ne_zero)]
      exact ⟨_, _, rfl⟩
    rw [if_neg hu, uStrWidth_cons] at hw
    obtain ⟨hlt, ⟨-, hzero, -⟩ | hle⟩ := uGetChar_next hget
    · exact absurd hzero hu
    have hrest := T.uStrWidth_nonneg (charsFrom str fuel next)
    split
    · split
      · exact ⟨_, _, rfl⟩
      · exact ih hle (by omega) (by omega)
    · split
      · exact ih hle (by omega) (by omega)
      · exact ⟨_, _, rfl⟩

variable {T} in
/-- Such a mark has room wherever it is put. -/
theorem SingleWidth.markFits (hmark : T.SingleWidth) (text : Text) (alloc : Nat) :
    T.MarkFits text alloc := by
  have hcolumns : 0 ≤ T.markColumns text :=
    le_min (T.uStrWidth_nonneg _) (T.uStrWidth_nonneg _)
  obtain ⟨start, skip, hskip⟩ := T.skipLoop_isSome (w := T.uStrWidth (chars text) -
    T.markColumns text) (Nat.zero_le text.length) (Nat.le_of_eq (Nat.zero_add _).symm)
    (Int.sub_le_self _ hcolumns)
  refine ⟨start, skip, hskip, ?_⟩
  have hpart : T.part T.mark (T.markColumns text) = [] := by
    rw [part]
    cases hrest : (T.mark.drop (T.fitting T.mark (T.markColumns text)).length).head? with
    | none => exact List.take_nil
    | some u =>
      have hu : u ∈ T.mark := List.mem_of_mem_drop (List.mem_of_mem_head? hrest)
      have hone : T.uCharWidth u ≠ 4 := by
        rw [(hmark u hu).2]
        decide
      show List.take _ (if T.uCharWidth u = 4 then hexStart u else []) = []
      rw [if_neg hone, List.take_nil]
  have hwhole : (T.mark.flatMap uSetCharBytes).length ≤ T.clippedText.length :=
    plain_bytes_le (Nat.zero_le _) fun u hu => (hmark u hu).1
  obtain ⟨rest, hsplit⟩ := T.fitting_prefix T.mark (T.markColumns text)
  rw [← hsplit, List.flatMap_append, List.length_append] at hwhole
  rw [shown, hpart, List.append_nil]
  have hlt := Gbuf.lt_growAlloc (text.take start).length T.clippedText.length
  omega

/-! ### Valid text -/

/-- Where every character is written in the bytes that it was read from, what is shown ends
where the loop stops. -/
theorem copyLoop_valid {src : Text} (front : List Text) {l : List Text} (hl : Decoded l)
    (hvalid : ∀ g ∈ l, ¬ Stray g ∧ ¬ OutOfRange g) (hsrc : front.flatten ++ l.flatten = src)
    {fuel : Nat} (hplain : ∀ u ∈ charsFrom src fuel front.flatten.length, 0x20 ≤ u) (w : Int) :
    front.flatten.length + (T.shown (charsFrom src fuel front.flatten.length) w).length =
      (T.copyLoop src fuel front.flatten.length w).stop := by
  have hnil (w : Int) : (T.shown [] w).length = 0 := by
    rw [shown, T.part_nil]
    rfl
  induction fuel generalizing front l w with
  | zero =>
    rw [charsFrom, hnil, copyLoop]
    rfl
  | succ fuel ih =>
    cases l with
    | nil =>
      rw [List.flatten_nil, List.append_nil] at hsrc
      have hend : uGetChar src front.flatten.length = some (0, front.flatten.length + 1) :=
        if_pos (congrArg List.length hsrc)
      rw [charsFrom, copyLoop, hend]
      dsimp only
      rw [if_pos rfl, if_pos rfl, ite_self, hnil]
      rfl
    | cons g l =>
      obtain ⟨hg, hl⟩ := hl
      rw [List.forall_mem_cons] at hvalid
      obtain ⟨u, hget, hsmall, hsize⟩ :=
        uGetChar_valid hg hvalid.1.1 hvalid.1.2 front.flatten
      rw [← List.flatten_cons, hsrc] at hget
      by_cases hu : u = 0
      · rw [charsFrom, copyLoop, hget]
        dsimp only
        rw [if_pos hu, if_pos hu, ite_self, hnil]
        rfl
      have hchars : charsFrom src (fuel + 1) front.flatten.length =
          u :: charsFrom src fuel (front.flatten.length + g.length) := by
        rw [charsFrom, hget]
        exact if_neg hu
      rw [hchars, List.forall_mem_cons] at hplain
      rw [hchars]
      by_cases hover : w < T.uCharWidth u
      · have hnarrow : T.uCharWidth u ≠ 4 := by
          have hwidth := T.uCharWidth_plain (u := u) ⟨hplain.1, hsmall⟩
          omega
        rw [T.copyLoop_over hget hu hover rfl, shown, T.fitting_over hover, T.part_over hover,
          if_neg hnarrow, List.take_nil]
        rfl
      · have hnext : (front ++ [g]).flatten.length = front.flatten.length + g.length := by
          rw [List.flatten_append, List.flatten_singleton, List.length_append]
        have hrest : (front ++ [g]).flatten ++ l.flatten = src := by
          rw [List.flatten_append, List.flatten_singleton, List.append_assoc, ← hsrc,
            List.flatten_cons]
        rw [← hnext] at hplain
        have hstop := ih (front ++ [g]) hl hvalid.2 hrest hplain.2 (w - T.uCharWidth u)
        have hwidth := T.uCharWidth_nonneg u
        rw [hnext] at hstop
        rw [copyLoop, hget, T.shown_in hover, List.length_append, length_uSetCharBytes,
          if_pos ⟨hplain.1, hsmall⟩, hsize]
        dsimp only
        rw [if_neg (by omega), if_neg hu, if_neg (by omega), ← hstop, Nat.add_assoc]

/-- Valid UTF-8 without control characters is measured right in every width. -/
theorem measured_of_valid {src : Text} (hvalid : uIsValid src = true)
    (hplain : ∀ u ∈ chars src, 0x20 ≤ u) (w : Int) : T.Measured src w := by
  obtain ⟨-, -, hle, hall⟩ := T.copyBytes_spec src w
  have hstop : 0 + (T.shown (chars src) w).length = (T.copyBytes src w).stop :=
    T.copyLoop_valid [] (characters_decoded src) ((uIsValid_iff src).mp hvalid)
      (characters_flatten src) hplain w
  rw [Nat.zero_add] at hstop
  rw [Measured, hstop]
  exact ⟨hle, hall⟩

/-! ### Adding a string -/

theorem fitting_negative {w : Int} (hw : w < 0) (src : List Uchar) : T.fitting src w = [] := by
  cases src with
  | nil => rfl
  | cons u src => exact T.fitting_over (Int.lt_of_lt_of_le hw (T.uCharWidth_nonneg u)) src

theorem columnsLeft_negative {w : Int} (hw : w < 0) (src : List Uchar) :
    T.columnsLeft src w = w := by
  rw [columnsLeft, T.fitting_negative hw, uStrWidth_nil, Int.sub_zero]

theorem shown_negative {w : Int} (hw : w < 0) (src : List Uchar) : T.shown src w = [] := by
  rw [shown, part, T.fitting_negative hw, T.columnsLeft_negative hw,
    Int.toNat_of_nonpos (Int.le_of_lt hw)]
  rfl

theorem padding_negative {w : Int} (hw : w < 0) (src : Text) : T.padding src w < 0 := by
  rw [padding, T.columnsLeft_negative hw]
  omega

theorem padding_nonneg {w : Int} (hw : 0 ≤ w) (src : Text) : 0 ≤ T.padding src w := by
  have hleft : ∀ cs (w : Int), 0 ≤ w → 0 ≤ T.columnsLeft cs w := by
    intro cs
    induction cs with
    | nil =>
      intro w hw
      rwa [columnsLeft, fitting, uStrWidth_nil, Int.sub_zero]
    | cons u cs ih =>
      intro w hw
      by_cases hover : w < T.uCharWidth u
      · rwa [T.columnsLeft_over hover]
      · rw [T.columnsLeft_in hover]
        exact ih _ (by omega)
  have hleft := hleft (chars src) w hw
  have hpart : (T.part (chars src) w).length ≤ (T.columnsLeft (chars src) w).toNat :=
    List.length_take_le _ _
  rw [padding]
  omega

/-- The text and the size after the padding. -/
theorem set_padded {buf buf' : Gbuf} {src : Text} {w : Int}
    (hput : (buf.grow src.length).put (T.shown (chars src) w) = some buf') :
    (∀ buf'', buf'.set (ch ' ') (T.padding src w) = some buf'' →
      buf''.text = T.padded buf.text src w ∧ buf''.alloc = T.paddedAlloc buf src w) ∧
      ((∃ buf'', buf'.set (ch ' ') (T.padding src w) = some buf'') ↔ 0 ≤ T.padding src w) := by
  obtain ⟨-, htext, halloc⟩ := Gbuf.put_eq_some.mp hput
  rw [Gbuf.grow_text] at htext
  rw [Gbuf.grow_alloc] at halloc
  refine ⟨fun buf'' hset => ?_, ?_⟩
  · obtain ⟨-, htext', halloc'⟩ := Gbuf.set_eq_some.mp hset
    rw [htext', halloc', htext, halloc]
    exact ⟨rfl, rfl⟩
  · constructor
    · intro h
      obtain ⟨buf'', hset⟩ := h
      exact (Gbuf.set_eq_some.mp hset).1
    · intro hpad
      rw [Gbuf.set, if_neg (by omega)]
      exact buf'.grow_put (Nat.le_of_eq (List.length_replicate ..))

/-- The test at the end of `gbuf_add_ustr`: a byte of the source at the length of what was
written. -/
theorem next_byte {src : Text} (hsrc : (0 : UInt8) ∉ src) {n : Nat} {next : UInt8} :
    (src ++ [0])[n]? = some next → n ≤ src.length ∧ (next = 0 ↔ n = src.length) := by
  intro h
  obtain ⟨hlt, hget⟩ := List.getElem?_eq_some_iff.mp h
  rw [List.length_append, List.length_singleton] at hlt
  refine ⟨by omega, ?_⟩
  constructor
  · intro hzero
    by_contra hne
    have hin : n < src.length := by omega
    rw [List.getElem_append_left hin] at hget
    exact hsrc (hzero ▸ hget ▸ List.getElem_mem hin)
  · intro hend
    subst hend
    rw [← hget, List.getElem_append_right (Nat.le_refl _)]
    simp

/-- Adding a string stays inside and notices what is cut off, if and only if what is shown
is measured right and the mark fits where it is needed. -/
theorem addUstr_inside_iff (buf : Gbuf) {src : Text} (hsrc : (0 : UInt8) ∉ src) (w : Int) :
    (∃ r, T.addUstr buf src w = some r ∧
        (r.clipped = true ↔ (T.copyBytes src w).stop < src.length)) ↔
      (src = [] ∨ 0 ≤ w) ∧ T.Measured src w ∧
        (T.AllFit src w ∨ T.MarkFits (T.padded buf.text src w) (T.paddedAlloc buf src w)) := by
  obtain ⟨hbytes, hleft, hle, hall⟩ := T.copyBytes_spec src w
  have hstop : (T.copyBytes src w).stop < src.length ↔ ¬ T.AllFit src w := by
    rw [← hall]
    omega
  simp only [addUstr, Option.bind_eq_bind, Option.bind_eq_some_iff, hbytes, hleft, hstop]
  constructor
  · intro h
    obtain ⟨r, ⟨buf', hput, next, hnext, hrest⟩, hclipped⟩ := h
    obtain ⟨hlen, hzero⟩ := next_byte hsrc hnext
    obtain ⟨hset, hpad⟩ := T.set_padded hput
    split at hrest
    · next hne =>
      obtain ⟨buf'', hset', hmark⟩ := Option.bind_eq_some_iff.mp hrest
      obtain ⟨marked, hmarked, hr⟩ := Option.bind_eq_some_iff.mp hmark
      cases hr
      have hcut : ¬ T.AllFit src w := hclipped.mp rfl
      have hshort : (T.shown (chars src) w).length ≠ src.length := fun h => hne (hzero.mpr h)
      obtain ⟨htext, halloc⟩ := hset buf'' hset'
      have hfits := (T.markClippedText_isSome buf'').mp ⟨_, hmarked⟩
      rw [htext, halloc] at hfits
      refine ⟨?_, ⟨hlen, iff_of_false hshort hcut⟩, .inr hfits⟩
      -- a negative width would be set
      by_contra hneg
      rw [not_or, Int.not_le] at hneg
      have hnone := T.padding_negative hneg.2 src
      have hsome := hpad.mp ⟨_, hset'⟩
      omega
    · next heq =>
      cases hrest
      have hall : T.AllFit src w := by
        by_contra hcut
        exact absurd (hclipped.mpr hcut) Bool.false_ne_true
      have hlong : (T.shown (chars src) w).length = src.length := hzero.mp (not_not.mp heq)
      refine ⟨?_, ⟨hlen, iff_of_true hlong hall⟩, .inl hall⟩
      by_contra hneg
      rw [not_or, Int.not_le] at hneg
      rw [T.shown_negative hneg.2] at hlong
      exact hneg.1 (List.length_eq_zero_iff.mp hlong.symm)
  · intro h
    obtain ⟨hsign, ⟨hlen, hall⟩, hmark⟩ := h
    obtain ⟨buf', hput⟩ := buf.grow_put hlen
    obtain ⟨hset, hpad⟩ := T.set_padded hput
    have hin : (T.shown (chars src) w).length < (src ++ [0]).length := by
      rw [List.length_append, List.length_singleton]
      omega
    have hnext := List.getElem?_eq_getElem hin
    obtain ⟨-, hzero⟩ := next_byte hsrc hnext
    by_cases hfit : T.AllFit src w
    · refine ⟨_, ⟨buf', hput, _, hnext, if_neg (not_not.mpr (hzero.mpr (hall.mpr hfit)))⟩, ?_⟩
      exact iff_of_false Bool.false_ne_true (not_not.mpr hfit)
    · have hshort : (T.shown (chars src) w).length ≠ src.length := fun h => hfit (hall.mp h)
      have hw : 0 ≤ w := by
        obtain hnil | hw := hsign
        · subst hnil
          exact absurd rfl hfit
        · exact hw
      obtain ⟨buf'', hset'⟩ := hpad.mpr (T.padding_nonneg hw src)
      obtain ⟨htext, halloc⟩ := hset buf'' hset'
      have hfits := hmark.resolve_left hfit
      rw [← htext, ← halloc] at hfits
      obtain ⟨marked, hmarked⟩ := (T.markClippedText_isSome buf'').mpr hfits
      refine ⟨⟨marked.1, marked.2, true⟩, ⟨buf', hput, _, hnext, ?_⟩, iff_of_true rfl hfit⟩
      rw [if_pos fun h => hshort (hzero.mp h), Option.bind_eq_some_iff]
      exact ⟨buf'', hset', Option.bind_eq_some_iff.mpr ⟨marked, hmarked, rfl⟩⟩

end Terminal

/-! ### Strings that are longer when they are printed -/

def emptyGbuf : Gbuf := ⟨[], 0, .inr ⟨rfl, rfl⟩⟩

/-- A string that is cut off at the right place, and marked. -/
theorem addUstr_inside_cut :
    ∃ r, wideTerminal.addUstr emptyGbuf (ascii "abcdef") 5 = some r ∧
      (r.clipped = true ↔ (wideTerminal.copyBytes (ascii "abcdef") 5).stop <
        (ascii "abcdef").length) :=
  (wideTerminal.addUstr_inside_iff emptyGbuf (by decide) 5).mpr
    ⟨.inr (by decide), ⟨by decide +kernel, by decide +kernel⟩,
      .inr (wideTerminal_singleWidth.markFits _ _)⟩

/-- 64 control characters overrun a buffer of 128 bytes, and eight columns of a longer
string are taken for all of it. -/
theorem addUstr_overrun :
    wideTerminal.addUstr emptyGbuf (List.replicate 64 1) 256 = none ∧
      (∃ r, wideTerminal.addUstr emptyGbuf (1 :: ascii "abcdefg") 8 = some r ∧
        r.clipped = false ∧ r.buf.text = ascii "<01>abcd") ∧
      ¬ ∀ (buf : Gbuf) (src : Text) (w : Int), (0 : UInt8) ∉ src →
        ∃ r, wideTerminal.addUstr buf src w = some r ∧
          (r.clipped = true ↔ (wideTerminal.copyBytes src w).stop < src.length) := by
  have hnone : wideTerminal.addUstr emptyGbuf (List.replicate 64 1) 256 = none :=
    Option.isNone_iff_eq_none.mp (by decide +kernel)
  refine ⟨hnone, ?_, ?_⟩
  · cases hadd : wideTerminal.addUstr emptyGbuf (1 :: ascii "abcdefg") 8 with
    | none =>
      have hsome : (wideTerminal.addUstr emptyGbuf (1 :: ascii "abcdefg") 8).isSome = true := by
        decide +kernel
      rw [hadd] at hsome
      cases hsome
    | some r =>
      have hresult : (wideTerminal.addUstr emptyGbuf (1 :: ascii "abcdefg") 8).map
          (fun r => (r.clipped, r.buf.text)) = some (false, ascii "<01>abcd") := by decide +kernel
      rw [hadd, Option.map_some, Option.some_inj, Prod.mk.injEq] at hresult
      exact ⟨r, rfl, hresult⟩
  · intro h
    obtain ⟨r, hr, -⟩ := h emptyGbuf (List.replicate 64 1) 256 (by decide)
    rw [hnone] at hr
    cases hr

end GracefulMusic.Format
