import GracefulMusic.Format.Copying
import GracefulMusic.Format.Printed

/-! The buffer behind a copied string (`gbuf.c`, `uchar.c`).

A buffer is grown by the length of the source, and what is written are its characters as
they are printed. A call fails where it writes behind what is allocated, or reads behind the
terminator of a string. -/
namespace GracefulMusic.Format

/-- A buffer has room for a terminator, unless nothing is allocated. -/
structure Gbuf where
  /-- The bytes before `len`. -/
  text : Text
  alloc : Nat
  fits : text.length < alloc ∨ alloc = 0 ∧ text = []

namespace Gbuf

/-- What `gbuf_grow` asks for, in steps of 64 bytes. -/
def growAlloc (len more : Nat) : Nat := (len + more + 1 + 63) / 64 * 64

theorem lt_growAlloc (len more : Nat) : len + more < growAlloc len more := by
  unfold growAlloc
  omega

theorem growAlloc_fits (text : Text) (more : Nat) :
    text.length < growAlloc text.length more ∨ growAlloc text.length more = 0 ∧ text = [] :=
  .inl (Nat.lt_of_le_of_lt (Nat.le_add_right _ _) (lt_growAlloc _ more))

def grow (buf : Gbuf) (more : Nat) : Gbuf :=
  if growAlloc buf.text.length more > buf.alloc then
    ⟨buf.text, growAlloc buf.text.length more, growAlloc_fits buf.text more⟩
  else buf

/-- Bytes that are written at the end, and `gbuf_used` with the terminator. -/
def put (buf : Gbuf) (bytes : Text) : Option Gbuf :=
  if h : (buf.text ++ bytes).length < buf.alloc then some ⟨buf.text ++ bytes, buf.alloc, .inl h⟩
  else none

/-- `gbuf_set`. A negative number is more than there is memory for. -/
def set (buf : Gbuf) (c : UInt8) (count : Int) : Option Gbuf :=
  if count < 0 then none else (buf.grow count.toNat).put (List.replicate count.toNat c)

theorem take_fits (buf : Gbuf) (len : Nat) :
    (buf.text.take len).length < buf.alloc ∨ buf.alloc = 0 ∧ buf.text.take len = [] := by
  obtain h | ⟨halloc, htext⟩ := buf.fits
  · exact .inl (Nat.lt_of_le_of_lt (List.length_take_le' _ _) h)
  · exact .inr ⟨halloc, by rw [htext, List.take_nil]⟩

def cut (buf : Gbuf) (len : Nat) : Gbuf := ⟨buf.text.take len, buf.alloc, buf.take_fits len⟩

end Gbuf

/-! ### Copying and skipping in bytes -/

structure Copied where
  bytes : Text
  /-- Where the first character starts that is not copied. -/
  stop : Nat
  width : Int

/-- The bytes of the result of `gbuf_add_ustr`, and whether the end is marked. -/
structure Added where
  buf : Gbuf
  width : Int
  clipped : Bool

/-- The start of `<xx>`. -/
def hexStart (u : Uchar) : Text := [ch '<', hexByte ((u >>> 4) &&& 0xf), hexByte (u &&& 0xf)]

namespace Terminal
variable {D : Type} (T : Terminal D)

def copyLoop (src : Text) : Nat → Nat → Int → Copied
  | 0, idx, w => ⟨[], idx, w⟩
  | fuel + 1, idx, w =>
    if w < 0 then ⟨[], idx, w⟩
    else
      match uGetChar src idx with
      | none => ⟨[], idx, w⟩
      | some (u, next) =>
        if u = 0 then ⟨[], idx, w⟩
        else
          let left := w - T.uCharWidth u
          if left < 0 then
            if T.uCharWidth u = 4 ∧ -3 ≤ left then
              ⟨ch '<' :: (if -2 ≤ left then [hexByte ((u >>> 4) &&& 0xf)] else []) ++
                (if -1 ≤ left then [hexByte (u &&& 0xf)] else []), idx, 0⟩
            else ⟨[], idx, w⟩
          else
            let copied := copyLoop src fuel next left
            ⟨uSetCharBytes u ++ copied.bytes, copied.stop, copied.width⟩

/-- `u_copy_chars`. -/
def copyBytes (src : Text) (width : Int) : Copied := T.copyLoop src src.length 0 width

/-- The position is behind what is skipped, and behind zero-width characters. -/
def skipLoop (overskip : Bool) (str : Text) : Nat → Nat → Int → Option (Nat × Int)
  | 0, _, _ => none
  | fuel + 1, idx, w =>
    match uGetChar str idx with
    | none => none
    | some (u, next) =>
      let left := w - T.uCharWidth u
      if 0 < w then
        -- undo last get if skipped too much
        if left < 0 && !overskip then some (idx, w) else skipLoop overskip str fuel next left
      else if T.uCharWidth u = 0 then skipLoop overskip str fuel next w
      else some (idx, w)

/-- `u_skip_chars`; the terminator is a character too. -/
def skipBytes (overskip : Bool) (str : Text) (width : Int) : Option (Nat × Int) :=
  T.skipLoop overskip str (str.length + 1) 0 width

/-- The columns of the mark behind a text. -/
def markColumns (text : Text) : Int := min (T.uStrWidth T.mark) (T.uStrWidth (chars text))

/-- `gbuf_mark_clipped_text`. -/
def markClippedText (buf : Gbuf) : Option (Gbuf × Int) := do
  let clippedMarkLen := T.markColumns buf.text
  let (len, skip) ← T.skipBytes false buf.text (T.uStrWidth (chars buf.text) - clippedMarkLen)
  let buf := (buf.cut len).grow T.clippedText.length
  let buf ← buf.put (T.copyBytes T.clippedText clippedMarkLen).bytes
  return (buf, skip)

/-- `gbuf_add_ustr`. -/
def addUstr (buf : Gbuf) (src : Text) (width : Int) : Option Added := do
  let copied := T.copyBytes src width
  let buf ← (buf.grow src.length).put copied.bytes
  let next ← (src ++ [0])[copied.bytes.length]?
  if next ≠ 0 then
    let buf ← buf.set (ch ' ') copied.width
    let (buf, width) ← T.markClippedText buf
    return ⟨buf, width, true⟩
  else return ⟨buf, copied.width, false⟩

/-! ### What fits -/

/-- The characters that fit into a number of columns. -/
def fitting : List Uchar → Int → List Uchar
  | [], _ => []
  | u :: src, w =>
    if w < T.uCharWidth u then [] else u :: fitting src (w - T.uCharWidth u)

def columnsLeft (src : List Uchar) (w : Int) : Int := w - T.uStrWidth (T.fitting src w)

/-- The part of `<xx>` in the columns that are left. -/
def part (src : List Uchar) (w : Int) : Text :=
  ((src.drop (T.fitting src w).length).head?.elim [] fun u =>
    if T.uCharWidth u = 4 then hexStart u else []).take (T.columnsLeft src w).toNat

/-- The bytes for a number of columns. -/
def shown (src : List Uchar) (w : Int) : Text :=
  (T.fitting src w).flatMap uSetCharBytes ++ T.part src w

/-- The characters that fit are all of the string. -/
def AllFit (src : Text) (w : Int) : Prop :=
  charIndex src (T.fitting (chars src) w).length = some src.length

instance allFitDecidable (src : Text) (w : Int) : Decidable (T.AllFit src w) :=
  inferInstanceAs (Decidable (_ = _))

/-- What is shown is as long as the string if all of it fits, and else it is shorter. -/
def Measured (src : Text) (w : Int) : Prop :=
  (T.shown (chars src) w).length ≤ src.length ∧
    ((T.shown (chars src) w).length = src.length ↔ T.AllFit src w)

/-- The mark has room in place of the last columns of a text. -/
def MarkFits (text : Text) (alloc : Nat) : Prop :=
  ∃ start skip, T.skipBytes false text (T.uStrWidth (chars text) - T.markColumns text) =
      some (start, skip) ∧
    (text.take start).length + (T.shown T.mark (T.markColumns text)).length <
      max alloc (Gbuf.growAlloc (text.take start).length T.clippedText.length)

/-- The columns behind what is shown. -/
def padding (src : Text) (w : Int) : Int :=
  T.columnsLeft (chars src) w - (T.part (chars src) w).length

/-- The text before its end is marked. -/
def padded (text src : Text) (w : Int) : Text :=
  text ++ T.shown (chars src) w ++ List.replicate (T.padding src w).toNat (ch ' ')

def paddedAlloc (buf : Gbuf) (src : Text) (w : Int) : Nat :=
  max (max buf.alloc (Gbuf.growAlloc buf.text.length src.length))
    (Gbuf.growAlloc (buf.text ++ T.shown (chars src) w).length (T.padding src w).toNat)

end Terminal

/-! ### Buffers -/

namespace Gbuf

theorem grow_text (buf : Gbuf) (more : Nat) : (buf.grow more).text = buf.text := by
  rw [grow]
  split <;> rfl

theorem grow_alloc (buf : Gbuf) (more : Nat) :
    (buf.grow more).alloc = max buf.alloc (growAlloc buf.text.length more) := by
  rw [grow]
  split
  · next h => exact (max_eq_right (Nat.le_of_lt h)).symm
  · next h => exact (max_eq_left (Nat.not_lt.mp h)).symm

/-- What is written is inside exactly where it is behind what is there. -/
theorem put_eq_some {buf buf' : Gbuf} {bytes : Text} :
    buf.put bytes = some buf' ↔
      (buf.text ++ bytes).length < buf.alloc ∧ buf'.text = buf.text ++ bytes ∧
        buf'.alloc = buf.alloc := by
  rw [put]
  split
  · next h =>
    rw [Option.some_inj]
    constructor
    · intro heq
      subst heq
      exact ⟨h, rfl, rfl⟩
    · intro hbuf
      obtain ⟨text, alloc, fits⟩ := buf'
      obtain ⟨-, rfl, rfl⟩ := hbuf
      rfl
  · next h => exact iff_of_false (fun heq => by cases heq) fun hbuf => h hbuf.1

theorem grow_put_isSome (buf : Gbuf) (more : Nat) (bytes : Text) :
    (∃ buf', (buf.grow more).put bytes = some buf') ↔
      buf.text.length + bytes.length < max buf.alloc (growAlloc buf.text.length more) := by
  rw [← grow_alloc, ← List.length_append, ← buf.grow_text more]
  constructor
  · intro h
    obtain ⟨buf', hput⟩ := h
    exact (put_eq_some.mp hput).1
  · intro hin
    exact ⟨⟨_, _, .inl hin⟩, put_eq_some.mpr ⟨hin, rfl, rfl⟩⟩

/-- As many bytes as the buffer was grown by are inside. -/
theorem grow_put (buf : Gbuf) {more : Nat} {bytes : Text} (h : bytes.length ≤ more) :
    ∃ buf', (buf.grow more).put bytes = some buf' := by
  rw [grow_put_isSome]
  have hlt := lt_growAlloc buf.text.length more
  omega

/-- What is set is inside, for every number that is not negative. -/
theorem set_eq_some {buf buf' : Gbuf} {c : UInt8} {count : Int} :
    buf.set c count = some buf' ↔ 0 ≤ count ∧
      buf'.text = buf.text ++ List.replicate count.toNat c ∧
        buf'.alloc = max buf.alloc (growAlloc buf.text.length count.toNat) := by
  rw [set]
  split
  · next h => exact iff_of_false (fun heq => by cases heq) fun hbuf => absurd hbuf.1 (by omega)
  · next h =>
    rw [put_eq_some, grow_text, grow_alloc]
    have hlt := lt_growAlloc buf.text.length count.toNat
    have hin : (buf.text ++ List.replicate count.toNat c).length <
        max buf.alloc (growAlloc buf.text.length count.toNat) := by
      rw [List.length_append, List.length_replicate]
      omega
    exact ⟨fun h' => ⟨by omega, h'.2⟩, fun h' => ⟨hin, h'.2⟩⟩

end Gbuf

/-! ### Copying -/

namespace Terminal
variable {D : Type} (T : Terminal D)

theorem fitting_over {u : Uchar} {w : Int} (h : w < T.uCharWidth u) (src : List Uchar) :
    T.fitting (u :: src) w = [] := if_pos h

theorem fitting_in {u : Uchar} {w : Int} (h : ¬ w < T.uCharWidth u) (src : List Uchar) :
    T.fitting (u :: src) w = u :: T.fitting src (w - T.uCharWidth u) := if_neg h

theorem columnsLeft_over {u : Uchar} {w : Int} (h : w < T.uCharWidth u) (src : List Uchar) :
    T.columnsLeft (u :: src) w = w := by
  rw [columnsLeft, T.fitting_over h, uStrWidth_nil, Int.sub_zero]

theorem columnsLeft_in {u : Uchar} {w : Int} (h : ¬ w < T.uCharWidth u) (src : List Uchar) :
    T.columnsLeft (u :: src) w = T.columnsLeft src (w - T.uCharWidth u) := by
  rw [columnsLeft, columnsLeft, T.fitting_in h, uStrWidth_cons]
  omega

theorem part_over {u : Uchar} {w : Int} (h : w < T.uCharWidth u) (src : List Uchar) :
    T.part (u :: src) w = (if T.uCharWidth u = 4 then hexStart u else []).take w.toNat := by
  rw [part, T.fitting_over h, T.columnsLeft_over h]
  rfl

theorem part_in {u : Uchar} {w : Int} (h : ¬ w < T.uCharWidth u) (src : List Uchar) :
    T.part (u :: src) w = T.part src (w - T.uCharWidth u) := by
  rw [part, part, T.fitting_in h, T.columnsLeft_in h]
  rfl

theorem part_nil (w : Int) : T.part [] w = [] := by
  rw [part, fitting]
  exact List.take_nil

theorem shown_in {u : Uchar} {w : Int} (h : ¬ w < T.uCharWidth u) (src : List Uchar) :
    T.shown (u :: src) w = uSetCharBytes u ++ T.shown src (w - T.uCharWidth u) := by
  rw [shown, shown, T.fitting_in h, T.part_in h, List.flatMap_cons, List.append_assoc]

/-- A character that does not fit is the start of `<xx>`, or is not written. -/
theorem copyLoop_over {src : Text} {fuel idx next : Nat} {u : Uchar} {w : Int}
    (hget : uGetChar src idx = some (u, next)) (hu : u ≠ 0) (hover : w < T.uCharWidth u)
    {bytes : Text} (hbytes : (if T.uCharWidth u = 4 then hexStart u else []).take w.toNat = bytes) :
    T.copyLoop src (fuel + 1) idx w = ⟨bytes, idx, w - bytes.length⟩ := by
  rw [copyLoop, hget]
  dsimp only
  by_cases hneg : w < 0
  · rw [Int.toNat_of_nonpos (Int.le_of_lt hneg), List.take_zero] at hbytes
    rw [if_pos hneg, ← hbytes, List.length_nil, Int.ofNat_zero, Int.sub_zero]
  rw [if_neg hneg, if_neg hu, if_pos (by omega)]
  by_cases hfour : T.uCharWidth u = 4
  · rw [hfour] at hover
    rw [if_pos hfour] at hbytes
    rw [hfour, ← hbytes]
    obtain rfl | rfl | rfl | rfl : w = 0 ∨ w = 1 ∨ w = 2 ∨ w = 3 := by omega
    · rfl
    · rfl
    · rfl
    · rfl
  · rw [if_neg hfour, List.take_nil] at hbytes
    rw [if_neg fun h => hfour h.1, ← hbytes, List.length_nil, Int.ofNat_zero, Int.sub_zero]

/-- The loop writes what is shown, and stops behind the characters that fit. -/
theorem copyLoop_spec (src : Text) (fuel idx : Nat) (w : Int) :
    (T.copyLoop src fuel idx w).bytes = T.shown (charsFrom src fuel idx) w ∧
      (T.copyLoop src fuel idx w).width = T.columnsLeft (charsFrom src fuel idx) w -
        (T.part (charsFrom src fuel idx) w).length ∧
      ∀ k, charIndex src k = some idx →
        charIndex src (k + (T.fitting (charsFrom src fuel idx) w).length) =
          some (T.copyLoop src fuel idx w).stop := by
  -- nothing is left to read
  have hnil : ∀ (idx : Nat) (w : Int), ([] : Text) = T.shown [] w ∧
      w = T.columnsLeft [] w - ((T.part [] w).length : Int) ∧
      ∀ k, charIndex src k = some idx →
        charIndex src (k + (T.fitting [] w).length) = some idx := by
    intro idx w
    rw [shown, T.part_nil, columnsLeft]
    refine ⟨rfl, ?_, fun k hk => hk⟩
    simp [fitting]
  induction fuel generalizing idx w with
  | zero => exact hnil idx w
  | succ fuel ih =>
    cases hget : uGetChar src idx with
    | none =>
      rw [copyLoop, charsFrom, hget]
      dsimp only
      rw [ite_self]
      exact hnil idx w
    | some found =>
      obtain ⟨u, next⟩ := found
      by_cases hu : u = 0
      · rw [copyLoop, charsFrom, hget]
        dsimp only
        rw [if_pos hu, if_pos hu, ite_self]
        exact hnil idx w
      have hchars : charsFrom src (fuel + 1) idx = u :: charsFrom src fuel next := by
        rw [charsFrom, hget]
        exact if_neg hu
      have hwidth := T.uCharWidth_nonneg u
      rw [hchars]
      by_cases hover : w < T.uCharWidth u
      · rw [T.copyLoop_over hget hu hover rfl, shown, T.fitting_over hover, T.part_over hover,
          T.columnsLeft_over hover]
        exact ⟨rfl, rfl, fun k hk => hk⟩
      · have hnext : ∀ k, charIndex src k = some idx → charIndex src (k + 1) = some next := by
          intro k hk
          obtain ⟨hlt, ⟨-, hzero, -⟩ | hle⟩ := uGetChar_next hget
          · exact absurd hzero hu
          have hin : idx < src.length := by omega
          rw [charIndex, hk]
          simp [hin, hget]
        obtain ⟨hbytes, hleft, hstop⟩ := ih next (w - T.uCharWidth u)
        rw [copyLoop, hget, T.shown_in hover, T.columnsLeft_in hover, T.part_in hover,
          T.fitting_in hover]
        dsimp only
        rw [if_neg (by omega), if_neg hu, if_neg (by omega)]
        refine ⟨by rw [← hbytes], hleft, fun k hk => ?_⟩
        rw [List.length_cons, Nat.add_comm _ 1, ← Nat.add_assoc]
        exact hstop _ (hnext k hk)

/-- `u_copy_chars` stays in the source. -/
theorem copyBytes_spec (src : Text) (w : Int) :
    (T.copyBytes src w).bytes = T.shown (chars src) w ∧
      (T.copyBytes src w).width = T.padding src w ∧
      (T.copyBytes src w).stop ≤ src.length ∧
      ((T.copyBytes src w).stop = src.length ↔ T.AllFit src w) := by
  obtain ⟨hbytes, hleft, hstop⟩ := T.copyLoop_spec src src.length 0 w
  have hstop := hstop 0 rfl
  rw [Nat.zero_add] at hstop
  refine ⟨hbytes, hleft, charIndex_le hstop, ?_⟩
  rw [AllFit, chars, hstop, Option.some_inj]
  rfl

/-! ### Bytes and characters -/

theorem uSetCharBytes_printable {u : Uchar} (h : Printable u) : uSetCharBytes u = [u.toUInt8] := by
  have hascii : u ≤ 0x7f := UInt32.le_of_lt h.2
  rw [uSetCharBytes, if_pos ⟨h.1, UInt32.le_trans hascii (by decide)⟩]
  exact if_pos hascii

/-- The bytes of the characters that are written. -/
theorem uSetChar_bytes (u : Uchar) : (uSetChar u).flatMap uSetCharBytes = uSetCharBytes u := by
  have hopen : uSetCharBytes (uch '<') = [ch '<'] := uSetCharBytes_printable (by decide)
  have hclose : uSetCharBytes (uch '>') = [ch '>'] := uSetCharBytes_printable (by decide)
  have hdigit (n : Uchar) : uSetCharBytes (hexTab (n &&& 0xf)) = [hexByte (n &&& 0xf)] :=
    uSetCharBytes_printable (hexTab_printable n)
  rw [uSetChar]
  split
  · exact List.append_nil _
  · next hplain =>
    split
    · next hzero =>
      subst hzero
      rfl
    · next hzero =>
      rw [List.flatMap_cons, List.flatMap_cons, List.flatMap_cons, List.flatMap_cons, hopen,
        hclose, hdigit, hdigit, uSetCharBytes, if_neg hplain, if_neg hzero]
      rfl

/-- The start of `<xx>` in characters and in bytes. -/
theorem hexStart_bytes {u : Uchar} {w : Int} (hw : 0 ≤ w) (h : w < 4) (hcut : -3 ≤ w - 4) :
    (uch '<' :: (if -2 ≤ w - 4 then [hexTab ((u >>> 4) &&& 0xf)] else []) ++
      (if -1 ≤ w - 4 then [hexTab (u &&& 0xf)] else [])).flatMap uSetCharBytes =
        (hexStart u).take w.toNat ∧ w = ((hexStart u).take w.toNat).length := by
  have hopen : uSetCharBytes (uch '<') = [ch '<'] := uSetCharBytes_printable (by decide)
  have hdigit (n : Uchar) : uSetCharBytes (hexTab (n &&& 0xf)) = [hexByte (n &&& 0xf)] :=
    uSetCharBytes_printable (hexTab_printable n)
  obtain rfl | rfl | rfl : w = 1 ∨ w = 2 ∨ w = 3 := by omega
  all_goals simp [hexStart, hopen, hdigit]

/-- Copying characters is copying bytes. -/
theorem uCopyChars_bytes (src : List Uchar) (w : Int) :
    (T.uCopyChars src w).1.flatMap uSetCharBytes = T.shown src w ∧
      (T.uCopyChars src w).2.2 = T.columnsLeft src w - (T.part src w).length := by
  induction src generalizing w with
  | nil =>
    rw [uCopyChars, shown, T.part_nil, columnsLeft]
    exact ⟨rfl, by simp [fitting]⟩
  | cons u src ih =>
    have hwidth := T.uCharWidth_nonneg u
    rw [uCopyChars]
    by_cases hover : w < T.uCharWidth u
    · rw [shown, T.fitting_over hover, T.part_over hover, T.columnsLeft_over hover]
      by_cases hneg : w < 0
      · rw [if_pos hneg, Int.toNat_of_nonpos (Int.le_of_lt hneg), List.take_zero]
        exact ⟨rfl, (Int.sub_zero w).symm⟩
      rw [if_neg hneg]
      dsimp only
      rw [if_pos (by omega)]
      by_cases hfour : T.uCharWidth u = 4
      · rw [hfour] at hover ⊢
        by_cases hcut : -3 ≤ w - 4
        · obtain ⟨hbytes, hlen⟩ := hexStart_bytes (u := u) (Int.not_lt.mp hneg) hover hcut
          rw [if_pos ⟨rfl, hcut⟩, if_pos rfl]
          exact ⟨hbytes, (Int.sub_eq_zero.mpr hlen).symm⟩
        · obtain rfl : w = 0 := by omega
          rw [if_neg fun h => hcut h.2]
          exact ⟨rfl, rfl⟩
      · rw [if_neg fun h => hfour h.1, if_neg hfour, List.take_nil]
        exact ⟨rfl, (Int.sub_zero w).symm⟩
    · obtain ⟨hbytes, hleft⟩ := ih (w - T.uCharWidth u)
      rw [if_neg (by omega), T.shown_in hover, T.columnsLeft_in hover, T.part_in hover]
      dsimp only
      rw [if_neg (by omega), List.flatMap_append, uSetChar_bytes, hbytes]
      exact ⟨rfl, hleft⟩

/-- `u_copy_chars` on the characters of a string. -/
theorem copyBytes_chars (src : Text) (w : Int) :
    (T.copyBytes src w).bytes = (T.uCopyChars (chars src) w).1.flatMap uSetCharBytes ∧
      (T.copyBytes src w).width = (T.uCopyChars (chars src) w).2.2 := by
  obtain ⟨hbytes, hwidth, -, -⟩ := T.copyBytes_spec src w
  obtain ⟨hbytes', hwidth'⟩ := T.uCopyChars_bytes (chars src) w
  rw [hbytes, hwidth, hbytes', hwidth']
  exact ⟨rfl, rfl⟩

end Terminal

end GracefulMusic.Format
