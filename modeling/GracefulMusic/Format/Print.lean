import GracefulMusic.Format.Scan

/-! Printing by a format (`format_print.c`), up to the calls that print.

The calls are kept, in their order and with the part of the line that they print into. -/
namespace GracefulMusic.Format

/-- Left, middle and right of the line: what `str` and `len` point to. -/
inductive Part where
  | left
  | middle
  | right
  deriving DecidableEq

/-- `align_left`, `width_is_exact`, `pad` and `width`, before a percentage is worked out. -/
structure Field where
  alignLeft : Bool
  widthIsExact : Bool
  padZero : Bool
  width : Int
  percent : Bool
  deriving DecidableEq

/-- The width in columns; half a column is rounded up. -/
def Field.columns (field : Field) (strWidth : Int) : Int :=
  if field.percent then (toInt (field.width * strWidth) + 50).tdiv 100 else field.width

inductive Call (D : Type) where
  | char (u : Uchar)
  | option (field : Field) (columns : Int) (fo : FormatOption D)

structure Out (D : Type) where
  part : Part
  printed : List (Part × Call D)

def Out.print {D : Type} (out : Out D) (call : Call D) : Out D :=
  {out with printed := out.printed ++ [(out.part, call)]}

/-- The digits of a width. -/
def readWidth (format : Text) : Nat → Int → Uchar → Nat → Except Fault (Int × Uchar × Nat)
  | 0, _, _, _ => .error .fuel
  | fuel + 1, width, u, s =>
    if isDigitU u then do
      let width := toInt (width * 10 + (u - uch '0').toNat)
      let (u, s) ← getChar format s
      readWidth format fuel width u s
    else .ok (width, u, s)

/-- What stands between the percent sign and the name. -/
def readField (format : Text) (u : Uchar) (s : Nat) : Except Fault (Field × Uchar × Nat) := do
  let alignLeft := u = uch '-'
  let (u, s) ← skipIf format '-' u s
  let widthIsExact := u ≠ uch '.'
  let (u, s) ← skipIf format '.' u s
  let padZero := u = uch '0'
  let (u, s) ← skipIf format '0' u s
  let (width, u, s) ← readWidth format (enough format) 0 u s
  let percent := u = uch '%'
  let (u, s) ← skipIf format '%' u s
  .ok (⟨alignLeft, widthIsExact, padZero, width, percent⟩, u, s)

variable {D : Type} (env : Env) (strWidth : Int) (fopts : List (FormatOption D))

def printOption (field : Field) (key : Key) (out : Out D) : Except Fault (Out D) :=
  match fopts.find? (FormatOption.matches · key) with
  | some fo => .ok (out.print (.option field (field.columns strWidth) fo))
  | none => .error .bug

/-- `format_parse` from a position on, with `format_parse_if` in its place. -/
def formatParse : Nat → Text → Nat → Nat → Out D → Except Fault (Out D)
  | 0, _, _, _, _ => .error .fuel
  | fuel + 1, format, fSize, s, out =>
    if fSize ≤ s then .ok out
    else do
      let (u, s) ← getChar format s
      if u ≠ uch '%' then formatParse fuel format fSize s (out.print (.char u))
      else do
        let (u, s) ← getChar format s
        if u = uch '%' ∨ u = uch '?' then formatParse fuel format fSize s (out.print (.char u))
        else if u = uch '!' then formatParse fuel format fSize s {out with part := .middle}
        else if u = uch '=' then formatParse fuel format fSize s {out with part := .right}
        else do
          let (field, u, s) ← readField format u s
          if u ≠ uch '{' then do
            let out ← printOption strWidth fopts field (.short u) out
            formatParse fuel format fSize s out
          else do
            let c ← byteAt format s
            if c = ch '?' then do
              let condPos := s + 1
              match ← formatReadCond format condPos with
              | none => .error .bug
              | some b =>
                match formatParseCond env.toEnv format condPos b.thenPos with
                | none => .error .bug
                | some cond =>
                  let branch := if formatEvalCond env fopts cond then some (b.yes format)
                    else b.no format
                  let out ← match branch with
                    | some (format, fSize) => formatParse fuel format fSize 0 out
                    | none => .ok out
                  if fSize < b.endPos + 1 then .error .bug
                  else formatParse fuel format fSize (b.endPos + 1) out
            else do
              match ← readLongName format fSize (enough format) s 0 with
              | none => .error .bug
              | some (longLen, s') =>
                let out ← printOption strWidth fopts field (.of format s longLen (uch '}')) out
                formatParse fuel format fSize s' out

/-- `format_read`. -/
def formatRead (format : Text) : Except Fault (Out D) :=
  formatParse env strWidth fopts (enough format) format format.length 0 ⟨.left, []⟩

end GracefulMusic.Format

/-! The check of a format (`format_print.c`). -/
namespace GracefulMusic.Format

/-- What stands between the percent sign and the name, with whether the width starts with
a zero. -/
def validField (format : Text) (u : Uchar) (s : Nat) : Except Fault (Bool × Uchar × Nat) := do
  let (u, s) ← skipIf format '-' u s
  let (u, s) ← skipIf format '.' u s
  let padZero := u = uch '0'
  let (u, s) ← skipIf format '0' u s
  let (u, s) ← skipDigits format (enough format) u s
  let (u, s) ← skipIf format '%' u s
  .ok (padZero, u, s)

variable {D : Type} (env : Expr.Env) (fopts : List (FormatOption D))

/-- The option is there, and zeros may pad it if they are asked for. -/
def validOption (padZero : Bool) (key : Key) : Bool :=
  match fopts.find? (FormatOption.matches · key) with
  | some fo => !(padZero && !fo.padZero)
  | none => false

/-- `format_valid_sub` from a position on, with `format_valid_if` in its place. -/
def formatValidSub : Nat → Text → Nat → Nat → Except Fault Bool
  | 0, _, _, _ => .error .fuel
  | fuel + 1, format, fSize, s =>
    if fSize ≤ s then .ok true
    else do
      let (u, s) ← getChar format s
      if u ≠ uch '%' then formatValidSub fuel format fSize s
      else do
        let (u, s) ← getChar format s
        if isPlain u then formatValidSub fuel format fSize s
        else do
          let (padZero, u, s) ← validField format u s
          if u ≠ uch '{' then
            if validOption fopts padZero (.short u) then formatValidSub fuel format fSize s
            else .ok false
          else do
            let c ← byteAt format s
            if c = ch '?' then do
              let condPos := s + 1
              match ← formatReadCond format condPos with
              | none => .ok false
              | some b =>
                match formatParseCond env format condPos b.thenPos with
                | none => .ok false
                | some _ => do
                  let (yes, yesSize) := b.yes format
                  if !(← formatValidSub fuel yes yesSize 0) then .ok false
                  else do
                    let no ← match b.no format with
                      | some (no, noSize) => formatValidSub fuel no noSize 0
                      | none => .ok true
                    if !no then .ok false
                    else if fSize < b.endPos + 1 then .ok false
                    else formatValidSub fuel format fSize (b.endPos + 1)
            else do
              match ← readLongName format fSize (enough format) s 0 with
              | none => .ok false
              | some (longLen, s') =>
                if validOption fopts padZero (.of format s longLen (uch '}')) then
                  formatValidSub fuel format fSize s'
                else .ok false

def formatValid (format : Text) : Except Fault Bool :=
  formatValidSub env fopts (enough format) format format.length 0

end GracefulMusic.Format
