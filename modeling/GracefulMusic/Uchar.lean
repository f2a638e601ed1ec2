import GracefulMusic.Text

/-! UTF-8 (`uchar.c`).

The end of a string reads as the terminator, which is a character of one byte. -/
namespace GracefulMusic

abbrev Uchar := UInt32

/-- `len_tab`: the length of the sequence a byte starts, 0 for a byte inside one, -1
for one that is never used. -/
def lenTab (c : UInt8) : Int :=
  if c < 0x80 then 1
  else if c < 0xc0 then 0
  else if c < 0xe0 then 2
  else if c < 0xf0 then 3
  else if c < 0xf5 then 4
  else -1

/-- Range and first-byte mask of the sequences of a length. -/
def minVal : Nat → Uchar
  | 1 => 0
  | 2 => 0x80
  | 3 => 0x800
  | _ => 0x10000

def maxVal : Nat → Uchar
  | 1 => 0x7f
  | 2 => 0x7ff
  | 3 => 0xffff
  | _ => 0x10ffff

def firstByteMask : Nat → UInt8
  | 1 => 0x7f
  | 2 => 0x1f
  | 3 => 0x0f
  | _ => 0x07

/-- `n` bytes that continue a sequence, shifted in under what is there; `none` where
another byte or the end comes first. -/
def continuation : Nat → Uchar → Text → Option (Uchar × Text)
  | 0, u, s => some (u, s)
  | _ + 1, _, [] => none
  | n + 1, u, c :: s =>
    if lenTab c ≠ 0 then none else continuation n ((u <<< 6) ||| (c &&& 0x3f).toUInt32) s

def uIsValidLoop : Nat → Text → Bool
  | 0, _ => true
  | _ + 1, [] => true
  | fuel + 1, c :: s =>
    let len := lenTab c
    if len ≤ 0 then false
    else if len = 1 then uIsValidLoop fuel s
    else
      match continuation (len.toNat - 1) (c &&& firstByteMask len.toNat).toUInt32 s with
      | none => false
      | some (u, s) =>
        if u < minVal len.toNat || u > maxVal len.toNat then false else uIsValidLoop fuel s

def uIsValid (s : Text) : Bool := uIsValidLoop s.length s

/-! ### Decoding -/

/-- A character constant. -/
def uch (c : Char) : Uchar := c.val

def uInvalidMask : Uchar := 0x10000000

/-- `u_get_char` at an index, with the index behind the character. There is nothing to
read behind the terminator. -/
def uGetChar (s : Text) (idx : Nat) : Option (Uchar × Nat) :=
  if idx = s.length then some (0, idx + 1)
  else
    match s.drop idx with
    | [] => none
    | c :: rest =>
      let invalid := some (c.toUInt32 ||| uInvalidMask, idx + 1)
      let len := lenTab c
      if c < 128 then some (c.toUInt32, idx + 1)
      else if len < 1 then invalid
      else
        match continuation (len.toNat - 1) (c &&& firstByteMask len.toNat).toUInt32 rest with
        | none => invalid
        | some (u, _) => some (u, idx + len.toNat)

theorem continuation_length {n : Nat} {u v : Uchar} {s rest : Text}
    (h : continuation n u s = some (v, rest)) : rest.length + n = s.length := by
  induction n generalizing u s with
  | zero =>
    cases h
    rfl
  | succ n ih =>
    cases s with
    | nil => cases h
    | cons c s =>
      rw [continuation] at h
      split at h
      · cases h
      · rw [List.length_cons, ← ih h]
        rfl

/-- A character lies in the string or is its terminator. -/
theorem uGetChar_next {s : Text} {idx next : Nat} {u : Uchar}
    (h : uGetChar s idx = some (u, next)) :
    idx < next ∧ (idx = s.length ∧ u = 0 ∧ next = idx + 1 ∨ next ≤ s.length) := by
  rw [uGetChar] at h
  split at h
  · rename_i hend
    cases h
    exact ⟨Nat.lt_succ_self _, .inl ⟨hend, rfl, rfl⟩⟩
  split at h
  · cases h
  rename_i c rest hdrop
  have hlength : rest.length + 1 + idx = s.length := by
    have hlength := congrArg List.length hdrop
    rw [List.length_drop, List.length_cons] at hlength
    omega
  dsimp only at h
  split at h
  · cases h
    exact ⟨by omega, .inr (by omega)⟩
  split at h
  · cases h
    exact ⟨by omega, .inr (by omega)⟩
  rename_i hlen
  split at h
  · cases h
    exact ⟨by omega, .inr (by omega)⟩
  · rename_i v rest' hcont
    cases h
    have hcont := continuation_length hcont
    exact ⟨by omega, .inr (by omega)⟩

end GracefulMusic
