import GracefulMusic.Format.Print

/-! Columns on the terminal (`uchar.c`, `gbuf.c`, `format_print.c`).

A buffer is the list of its characters. What is copied from one buffer to another has been
converted before, so it is valid and without control characters, and a position in bytes
is one in characters. Columns are counted without a bound. -/
namespace GracefulMusic.Format

def Printable (u : Uchar) : Prop := 0x20 ≤ u ∧ u < 0x7f

instance printableDecidable (u : Uchar) : Decidable (Printable u) :=
  inferInstanceAs (Decidable (_ ∧ _))

/-- What the output depends on: the locale, two options and `printf`. -/
structure Terminal (D : Type) where
  usingUtf8 : Bool
  /-- -1 for what is not printable. -/
  wcwidth : Uchar → Int
  wcwidth_le : ∀ u, wcwidth u ≤ 2
  wcwidth_ascii : ∀ u, Printable u → wcwidth u = 1
  clippedText : Text
  timeShowLeadingZero : Bool
  /-- `%f` without trailing zeros. -/
  formatDouble : D → List Uchar
  formatDouble_ascii : ∀ d, ∀ u ∈ formatDouble d, Printable u

/-! ### Characters -/

/-- The characters from a position up to the terminator. -/
def charsFrom (s : Text) : Nat → Nat → List Uchar
  | 0, _ => []
  | fuel + 1, idx =>
    match uGetChar s idx with
    | some (u, next) => if u = 0 then [] else u :: charsFrom s fuel next
    | none => []

def chars (s : Text) : List Uchar := charsFrom s s.length 0

def hexTab (n : Uchar) : Uchar := if n < 10 then uch '0' + n else uch 'a' + (n - 10)

/-- `u_set_char`. -/
def uSetChar (u : Uchar) : List Uchar :=
  if 0x20 ≤ u ∧ u ≤ 0x10ffff then [u]
  else if u = 0 then [0]
  else [uch '<', hexTab ((u >>> 4) &&& 0xf), hexTab (u &&& 0xf), uch '>']

def spaces (n : Int) : List Uchar := List.replicate n.toNat (uch ' ')

namespace Terminal
variable {D : Type} (T : Terminal D)

def uCharWidth (u : Uchar) : Int :=
  if u < 0x20 then if u = 0 then 1 else 4
  else if !T.usingUtf8 then 1
  else if u &&& uInvalidMask ≠ 0 then 4
  else if 0 ≤ T.wcwidth u then T.wcwidth u
  else 1

def uStrWidth (s : List Uchar) : Int := (s.map T.uCharWidth).sum

/-- The characters that are copied, those that are not, and the columns that are left. -/
def uCopyChars : List Uchar → Int → List Uchar × List Uchar × Int
  | [], w => ([], [], w)
  | u :: src, w =>
    if w < 0 then ([], u :: src, w)
    else
      let left := w - T.uCharWidth u
      if left < 0 then
        if T.uCharWidth u = 4 ∧ -3 ≤ left then
          (uch '<' :: (if -2 ≤ left then [hexTab ((u >>> 4) &&& 0xf)] else []) ++
            (if -1 ≤ left then [hexTab (u &&& 0xf)] else []), u :: src, 0)
        else ([], u :: src, w)
      else
        let (dst, rest, left) := uCopyChars src left
        (uSetChar u ++ dst, rest, left)

/-- The characters that are skipped, those that are not, and the columns that are left, or
are too many if `overskip` is set. `none` reads behind the terminator. -/
def uSkipChars (overskip : Bool) : List Uchar → Int → Option (List Uchar × List Uchar × Int)
  | [], w => if w ≤ 0 then some ([], [], w) else none
  | u :: str, w =>
    if w ≤ 0 then
      -- consume any zero-width characters
      some ((u :: str).takeWhile (T.uCharWidth · = 0), (u :: str).dropWhile (T.uCharWidth · = 0), w)
    else if w - T.uCharWidth u < 0 && !overskip then some ([], u :: str, w)
    else (uSkipChars overskip str (w - T.uCharWidth u)).map fun (front, back, w) =>
      (u :: front, back, w)

def mark : List Uchar := chars T.clippedText

/-- The end of the buffer becomes the clip mark; what is left is a part of a character. -/
def gbufMarkClippedText (buf : List Uchar) : List Uchar × Int :=
  let clippedMarkLen := min (T.uStrWidth T.mark) (T.uStrWidth buf)
  match T.uSkipChars false buf (T.uStrWidth buf - clippedMarkLen) with
  | some (front, _, skip) => (front ++ (T.uCopyChars T.mark clippedMarkLen).1, skip)
  | none => (buf, 0) -- the buffer has as many columns

def gbufAddUstr (buf src : List Uchar) (width : Int) : List Uchar × Int :=
  let (dst, rest, width) := T.uCopyChars src width
  if rest ≠ [] then T.gbufMarkClippedText (buf ++ dst ++ spaces width) else (buf ++ dst, width)

end Terminal

/-! ### Printing -/

/-- A part of the line, with the columns that were counted. -/
structure Line where
  text : List Uchar
  len : Int

def Line.add (line : Line) (chars : List Uchar) : Line :=
  ⟨line.text ++ chars, line.len + chars.length⟩

/-- Characters of one column each; the stack from its top. -/
def stackPrint (field : Field) (width : Int) (stack : List Uchar) (line : Line) : Line :=
  let pad := if field.padZero then uch '0' else uch ' '
  if width = 0 then line.add stack
  else if field.alignLeft then
    let shown := stack.take width.toNat
    line.add (shown ++ List.replicate (width.toNat - shown.length) pad)
  else
    let stackLen := min stack.length width.toNat
    line.add (List.replicate (width.toNat - stackLen) pad ++ stack.drop (stack.length - stackLen))

def digit (n : Int) : Uchar := UInt32.ofNat (n + 48).toNat

/-- The digits of an `int`, which are no more than the fuel. -/
def digits : Nat → Int → List Uchar
  | 0, _ => []
  | fuel + 1, num =>
    (if num.tdiv 10 = 0 then [] else digits fuel (num.tdiv 10)) ++ [digit (num.tmod 10)]

def printNum (field : Field) (width num : Int) (line : Line) : Line :=
  if num < 0 then
    let width := if width = 0 then 1 else width
    line.add (List.replicate width.toNat (uch '?'))
  else stackPrint field width (digits 10 num) line

/-- `'{,-}{h:,}mm:ss'`. -/
def timeStack (leadingZero : Bool) (t : Int) : List Uchar :=
  let pos := if t < 0 then toInt (t * -1) else t
  let h := pos.tdiv 3600
  let m := (pos.tmod 3600).tdiv 60
  let s := (pos.tmod 3600).tmod 60
  (if t < 0 then [uch '-'] else []) ++ (if h ≠ 0 then digits 10 h ++ [uch ':'] else []) ++
    (if m.tdiv 10 ≠ 0 ∨ h ≠ 0 ∨ leadingZero then [digit (m.tdiv 10)] else []) ++
    [digit (m.tmod 10), uch ':', digit (s.tdiv 10), digit (s.tmod 10)]

section
variable {D : Type} (T : Terminal D)

def printStr (field : Field) (width : Int) (src : List Uchar) (line : Line) : Line :=
  let strWidth := T.uStrWidth src
  if width ≠ 0 ∧ field.widthIsExact then
    if field.alignLeft then
      let (text, left) := T.gbufAddUstr line.text src width
      ⟨text ++ spaces left, line.len + width⟩
    else if width - strWidth < 0 then
      let clippedMarkLen := min (T.uStrWidth T.mark) width
      let text := (T.gbufAddUstr line.text T.mark clippedMarkLen).1
      match T.uSkipChars true src (strWidth - width + clippedMarkLen) with
      | some (_, rest, skip) =>
        -- pad if a wide character caused us to skip too much
        ⟨(T.gbufAddUstr (text ++ spaces (-skip)) rest width).1, line.len + width⟩
      | none => ⟨text, line.len + width⟩ -- the string has as many columns
    else ⟨(T.gbufAddUstr (line.text ++ spaces (width - strWidth)) src width).1, line.len + width⟩
  else
    let width := if width = 0 then strWidth else width
    let (text, left) := T.gbufAddUstr line.text src width
    ⟨text, line.len + width - left⟩

def FormatOption.exec (field : Field) (width : Int) (fo : FormatOption D) (line : Line) : Line :=
  if fo.empty then line.add (spaces width)
  else
    match fo.value with
    | .str val => printStr T field width (chars val) line
    | .int val => printNum field width val line
    | .time val => stackPrint field width (timeStack T.timeShowLeadingZero val) line
    | .double val => stackPrint field width (T.formatDouble val) line

def Call.exec (line : Line) : Call D → Line
  | .char u => ⟨line.text ++ uSetChar u, line.len + T.uCharWidth u⟩
  | .option field columns fo => fo.exec T field columns line

/-- `l_str`, `m_str` and `r_str`. -/
abbrev Lines := Part → Line

def Lines.empty : Lines := fun _ => ⟨[], 0⟩

def Lines.exec (lines : Lines) (call : Part × Call D) : Lines :=
  Function.update lines call.1 (call.2.exec T (lines call.1))

def Lines.run (lines : Lines) (calls : List (Part × Call D)) : Lines :=
    calls.foldl (Lines.exec T) lines

/-- `none` reads behind a terminator. -/
def formatWrite (lines : Lines) (buf : List Uchar) (strWidth : Int) : Option (List Uchar) :=
  let (l, m, r) := (lines .left, lines .middle, lines .right)
  let strWidth := if strWidth =
    0 then l.len + m.len + r.len + (if 0 < r.len then 1 else 0) else strWidth
  if l.len + m.len + r.len ≤ strWidth then
    -- all fit
    some (buf ++ l.text ++ m.text ++ spaces (strWidth - (l.len + m.len + r.len)) ++ r.text)
  else
    -- keep first character since it's almost always padding
    let clippedMarkLen := min (T.uStrWidth T.mark + 1) strWidth
    let rSpace := strWidth - clippedMarkLen
    let rWidth := min rSpace r.len
    let mSpace := rSpace - rWidth
    let mWidth := min mSpace m.len
    let lSpace := mSpace - mWidth
    let lWidth := lSpace + clippedMarkLen
    let (buf, lLeft) := T.gbufAddUstr buf l.text lWidth
    let (buf, mLeft) := T.gbufAddUstr buf m.text mWidth
    (T.uSkipChars true r.text (r.len - rWidth)).map fun (_, rest, rSkip) =>
      buf ++ spaces (lLeft + mLeft + -rSkip) ++ rest

/-- `format_print`. -/
def formatPrint (env : Env) (fopts : List (FormatOption D)) (buf : List Uchar) (strWidth : Int)
    (format : Text) : Except Fault (List Uchar) := do
  let out ← formatRead env strWidth fopts format
  match formatWrite T (Lines.empty.run T out.printed) buf strWidth with
  | some buf => .ok buf
  | none => .error .overread

end

end GracefulMusic.Format
