import GracefulMusic.Uchar.Unidecomp

/-! Comparison of strings with their case folded (`uchar.c`).

A pointer into a string is an index of it, which may be that of the terminator; what reads
behind it has no result. -/
namespace GracefulMusic

/-- `towlower` of the C library: it keeps characters characters, and what is none as it is. -/
structure Locale where
  towlower : Uchar → Uchar
  towlower_ne_zero : ∀ ch, ch ≠ 0 → towlower ch ≠ 0
  towlower_le : ∀ ch, ch ≤ 0x10ffff → towlower ch ≤ 0x10ffff
  towlower_eq : ∀ ch, 0x10ffff < ch → towlower ch = ch

/-- The locale in which there are no capitals but those of ASCII. -/
def Locale.c : Locale := ⟨id, fun _ h => h, fun _ h => h, fun _ _ => rfl⟩

section
variable (L : Locale)

def uCasefoldChar (ch : Uchar) : Uchar :=
  if ch < 0x41 then ch
  else if ch ≤ 0x5a then ch + 0x20
  else if ch < 128 then ch
  else L.towlower ch

/-- The base letter with its case folded. -/
def foldBase (ch : Uchar) : Uchar := uCasefoldChar L (getBaseFromComposed ch)

def utf8Skip (c : UInt8) : Nat :=
  if c < 0xc0 then 1
  else if c < 0xe0 then 2
  else if c < 0xf0 then 3
  else if c < 0xf8 then 4
  else if c < 0xfc then 5
  else if c < 0xfe then 6
  else 1

def uStrlenLoop : Nat → Text → Option Nat
  | _, [] => some 0
  | 0, _ :: _ => none
  | fuel + 1, c :: s =>
    if utf8Skip c ≤ s.length + 1 then
      (uStrlenLoop fuel ((c :: s).drop (utf8Skip c))).map (· + 1)
    else none

def uStrlen (str : Text) : Option Nat := uStrlenLoop str.length str

/-- An `int` as a `size_t`. -/
def sizeT (x : Int) : Nat := (x % 2 ^ 64).toNat

/-- `do_u_strncase_equal` from two indices on. -/
def doUStrncaseEqual (onlyBaseChars : Bool) (a b : Text) : (len ai bi : Nat) → Option Bool
  | 0, _, _ => some true
  | len + 1, ai, bi => do
    let (au, ai) ← uGetChar a ai
    let (bu, bi) ← uGetChar b bi
    let (au, bu) := if onlyBaseChars then (getBaseFromComposed au, getBaseFromComposed bu)
      else (au, bu)
    if uCasefoldChar L au ≠ uCasefoldChar L bu then some false
    else doUStrncaseEqual onlyBaseChars a b len ai bi

def uStrncaseEqualBase (a b : Text) (len bi : Nat) : Option Bool :=
  doUStrncaseEqual L true a b len 0 bi

/-- The search from an index on; `NULL` is an inner `none`. -/
def strcasestrLoop (onlyBaseChars : Bool) (haystack needle : Text) (needleLen : Int) :
    (fuel : Nat) → (haystackLen : Int) → Nat → Option (Option Nat)
  | 0, _, _ => none
  | fuel + 1, haystackLen, pos =>
    if haystackLen < needleLen then some none
    else do
      let equal ← doUStrncaseEqual L onlyBaseChars needle haystack (sizeT needleLen) 0 pos
      if equal then some (some pos)
      else
        -- skip one char
        let (_, next) ← uGetChar haystack pos
        strcasestrLoop onlyBaseChars haystack needle needleLen fuel
          (haystackLen - (next - pos : Int)) next

def doUStrcasestr (onlyBaseChars : Bool) (haystack needle : Text) (pos : Nat) :
    Option (Option Nat) :=
  if haystack.length < pos then none
  else do
    let needleLen ← uStrlen needle
    strcasestrLoop L onlyBaseChars haystack needle (toInt needleLen)
      (haystack.length - pos + 1) (toInt (haystack.length - pos)) pos

def uStrcasestr (haystack needle : Text) (pos : Nat) : Option (Option Nat) :=
  doUStrcasestr L false haystack needle pos

def uStrcasestrBase (haystack needle : Text) (pos : Nat) : Option (Option Nat) :=
  doUStrcasestr L true haystack needle pos

end

/-! ### Folding -/

section
variable (L : Locale) {ch : Uchar}

theorem uCasefoldChar_ne_zero (h : ch ≠ 0) : uCasefoldChar L ch ≠ 0 := by
  unfold uCasefoldChar
  split
  · exact h
  split
  · rename_i hlow hhigh
    rw [ne_eq, ← UInt32.toNat_inj, UInt32.toNat_add]
    rw [UInt32.le_iff_toNat_le] at hhigh
    rw [UInt32.lt_iff_toNat_lt] at hlow
    simp only [UInt32.toNat_ofNat] at *
    omega
  split
  · exact h
  · exact L.towlower_ne_zero ch h

theorem uCasefoldChar_le (h : ch ≤ 0x10ffff) : uCasefoldChar L ch ≤ 0x10ffff := by
  unfold uCasefoldChar
  split
  · exact h
  split
  · rename_i hlow hhigh
    rw [UInt32.le_iff_toNat_le, UInt32.toNat_add]
    rw [UInt32.le_iff_toNat_le] at hhigh
    simp only [UInt32.toNat_ofNat] at *
    omega
  split
  · exact h
  · exact L.towlower_le ch h

theorem foldBase_zero : foldBase L 0 = 0 := by
  have hbase : getBaseFromComposed 0 = 0 := by decide +kernel
  rw [foldBase, hbase]
  rfl

theorem foldBase_ne_zero (h : ch ≠ 0) : foldBase L ch ≠ 0 := by
  refine uCasefoldChar_ne_zero L ?_
  rcases getBaseFromComposed_cases ch with hbase | hbase
  · rwa [hbase]
  · exact (unidecompMap_valid hbase).2.2

theorem foldBase_le (h : ch ≤ 0x10ffff) : foldBase L ch ≤ 0x10ffff := by
  refine uCasefoldChar_le L ?_
  rcases getBaseFromComposed_cases ch with hbase | hbase
  · rwa [hbase]
  · exact (unidecompMap_valid hbase).2.1

/-- What is not a character is folded to itself. -/
theorem foldBase_eq (h : 0x10ffff < ch) : foldBase L ch = ch := by
  have hbase : getBaseFromComposed ch = ch := by
    rcases getBaseFromComposed_cases ch with hbase | hbase
    · exact hbase
    · exact absurd (unidecompMap_valid hbase).1 (UInt32.not_le.mpr h)
  rw [foldBase, hbase]
  rw [UInt32.lt_iff_toNat_lt] at h
  unfold uCasefoldChar
  rw [if_neg, if_neg, if_neg]
  · exact L.towlower_eq ch (UInt32.lt_iff_toNat_lt.mpr h)
  all_goals
    simp only [UInt32.lt_iff_toNat_lt, UInt32.le_iff_toNat_le, UInt32.toNat_ofNat] at *
    omega

end

end GracefulMusic
