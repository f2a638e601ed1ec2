import GracefulMusic.Format.Columns
import GracefulMusic.Uchar.Chars

/-! The bytes that are printed for a string (`uchar.c`).

Control characters and what is not unicode become `<xx>`. The size of the result is counted
apart from the writing. Lengths fit into an `int`. -/
namespace GracefulMusic.Format

/-- `hex_tab` in bytes. -/
def hexByte (n : Uchar) : UInt8 := (hexTab n).toUInt8

/-- The bytes that `u_set_char` writes. -/
def uSetCharBytes (u : Uchar) : Text :=
  if 0x20 ≤ u ∧ u ≤ 0x10ffff then uSetCharRaw u
  else if u = 0 then [0]
  else [ch '<', hexByte ((u >>> 4) &&& 0xf), hexByte (u &&& 0xf), ch '>']

def uPrintSize (u : Uchar) : Nat :=
  -- control characters and invalid unicode set as <XX>
  if u < 0x1f ∧ u ≠ 0 then 4 else uCharSize u

/-- The loop of `u_to_utf8`, with the bytes from a position in the source on. -/
def uToUtf8Loop (s : Text) : Nat → Nat → Text
  | 0, _ => []
  | fuel + 1, idx =>
    match uGetChar s idx with
    | none => []
    | some (u, next) => uSetCharBytes u ++ if u ≠ 0 then uToUtf8Loop s fuel next else []

/-- What `u_to_utf8` writes; the terminator is read once. -/
def uToUtf8 (s : Text) : Text := uToUtf8Loop s (s.length + 1) 0

def uStrPrintSizeLoop (s : Text) : Nat → Nat → Nat
  | 0, _ => 0
  | fuel + 1, idx =>
    match uGetChar s idx with
    | none => 0
    | some (u, next) => uPrintSize u + if u ≠ 0 then uStrPrintSizeLoop s fuel next else 0

def uStrPrintSize (s : Text) : Nat := uStrPrintSizeLoop s (s.length + 1) 0

/-- A character whose size is counted as it is written. -/
def Counted (u : Uchar) : Prop := u ≠ 0x1f ∧ u ≤ 0x10ffff

instance countedDecidable (u : Uchar) : Decidable (Counted u) :=
  inferInstanceAs (Decidable (_ ∧ _))

/-! ### One character -/

theorem length_uSetCharBytes (u : Uchar) :
    (uSetCharBytes u).length =
      if 0x20 ≤ u ∧ u ≤ 0x10ffff then uCharSize u else if u = 0 then 1 else 4 := by
  rw [uSetCharBytes]
  split
  · exact length_uSetCharRaw u
  split <;> rfl

/-- No size is counted too large, and the size of some characters is counted too small. -/
theorem uPrintSize_spec (u : Uchar) :
    uPrintSize u ≤ (uSetCharBytes u).length ∧
      ((uSetCharBytes u).length ≤ uPrintSize u ↔ Counted u) := by
  have hsmall : u ≤ 0x7f → uCharSize u = 1 := fun h => if_pos h
  have hlarge : ¬ u ≤ 0x10ffff → uCharSize u = 1 := by
    intro h
    rw [UInt32.le_iff_toNat_le] at h
    have hout : ∀ v : Uchar, v.toNat ≤ 0x10ffff → ¬ u ≤ v := by
      intro v hv hle
      have hle := UInt32.le_iff_toNat_le.mp hle
      exact h (le_trans hle hv)
    rw [uCharSize, if_neg (hout _ (by decide)), if_neg (hout _ (by decide)),
      if_neg (hout _ (by decide)), if_neg (hout _ (by decide))]
  rw [length_uSetCharBytes, uPrintSize, Counted]
  by_cases hzero : u = 0
  · subst hzero
    decide
  by_cases hctrl : u ≤ 0x1f
  · have hone : uCharSize u = 1 := hsmall (UInt32.le_trans hctrl (by decide))
    have hno : ¬ (0x20 ≤ u ∧ u ≤ 0x10ffff) := by
      intro h
      exact absurd (UInt32.le_trans h.1 hctrl) (by decide)
    rw [if_neg hno, if_neg hzero]
    by_cases hlast : u = 0x1f
    · subst hlast
      decide
    · have hlt : u < 0x1f := UInt32.lt_of_le_of_ne hctrl hlast
      rw [if_pos ⟨hlt, hzero⟩]
      exact ⟨le_refl _, iff_of_true (le_refl _)
        ⟨hlast, UInt32.le_trans hctrl (by decide)⟩⟩
  · have hplain : 0x20 ≤ u := by
      have hlt := UInt32.lt_iff_toNat_lt.mp (UInt32.not_le.mp hctrl)
      exact UInt32.le_iff_toNat_le.mpr hlt
    have hnot : ¬ (u < 0x1f ∧ u ≠ 0) := fun h => hctrl (UInt32.le_of_lt h.1)
    have hlast : u ≠ 0x1f := fun h => hctrl (h ▸ UInt32.le_refl _)
    rw [if_neg hnot]
    by_cases hunicode : u ≤ 0x10ffff
    · rw [if_pos ⟨hplain, hunicode⟩]
      exact ⟨le_refl _, iff_of_true (le_refl _) ⟨hlast, hunicode⟩⟩
    · rw [if_neg fun h => hunicode h.2, if_neg hzero, hlarge hunicode]
      exact ⟨by decide, iff_of_false (by decide) fun h => hunicode h.2⟩

/-! ### Strings -/

/-- Both loops go over the characters of the string and its terminator. -/
theorem uToUtf8Loop_eq {s : Text} {fuel idx : Nat} (hin : idx ≤ s.length)
    (hfuel : s.length ≤ idx + fuel) :
    uToUtf8Loop s (fuel + 1) idx = (charsFrom s fuel idx).flatMap uSetCharBytes ++ [0] ∧
      uStrPrintSizeLoop s (fuel + 1) idx = ((charsFrom s fuel idx).map uPrintSize).sum + 1 := by
  induction fuel generalizing idx with
  | zero =>
    obtain rfl : idx = s.length := by omega
    have hend : uGetChar s s.length = some (0, s.length + 1) := if_pos rfl
    rw [uToUtf8Loop, uStrPrintSizeLoop, hend]
    exact ⟨rfl, rfl⟩
  | succ fuel ih =>
    obtain ⟨u, next, hget⟩ := uGetChar_isSome hin
    obtain ⟨hlt, hnext⟩ := uGetChar_next hget
    rw [uToUtf8Loop, uStrPrintSizeLoop, charsFrom, hget]
    dsimp only
    by_cases hu : u = 0
    · subst hu
      exact ⟨rfl, rfl⟩
    · obtain ⟨-, hzero, -⟩ | hle := hnext
      · exact absurd hzero hu
      obtain ⟨hbytes, hsize⟩ := ih hle (by omega)
      rw [if_pos hu, if_pos hu, if_neg hu, hbytes, hsize, List.flatMap_cons, List.map_cons,
        List.sum_cons, List.append_assoc, Nat.add_assoc]
      exact ⟨rfl, rfl⟩

/-- Sizes that are nowhere too large add up to enough where none is too small. -/
theorem sum_enough {α : Type} {f g : α → Nat} (hle : ∀ a, f a ≤ g a) (l : List α) :
    (l.map f).sum ≤ (l.map g).sum ∧
      ((l.map g).sum ≤ (l.map f).sum ↔ ∀ a ∈ l, g a ≤ f a) := by
  induction l with
  | nil => simp
  | cons a l ih =>
    obtain ⟨hsum, hiff⟩ := ih
    have ha := hle a
    rw [List.map_cons, List.map_cons, List.sum_cons, List.sum_cons, List.forall_mem_cons, ← hiff]
    omega

/-- A buffer of the counted size holds what is written, if and only if every character up to
the end of the string is counted as it is written. -/
theorem uToUtf8_fits_iff (s : Text) :
    (uToUtf8 s).length ≤ uStrPrintSize s ↔ ∀ u ∈ chars s, Counted u := by
  obtain ⟨hbytes, hsize⟩ := uToUtf8Loop_eq (Nat.zero_le s.length)
    (Nat.le_of_eq (Nat.zero_add _).symm)
  rw [uToUtf8, hbytes, uStrPrintSize, hsize, List.length_append, List.length_flatMap,
    List.length_singleton, Nat.add_le_add_iff_right,
    (sum_enough (fun u => (uPrintSize_spec u).1) _).2]
  exact forall₂_congr fun u _ => (uPrintSize_spec u).2

/-- A single byte that is not UTF-8 is written as `<ff>`, and counted as one. -/
theorem uToUtf8_overruns :
    uToUtf8 [0xff] = ascii "<ff>" ++ [0] ∧ uStrPrintSize [0xff] = 2 ∧
      ¬ ∀ s : Text, (uToUtf8 s).length ≤ uStrPrintSize s := by
  refine ⟨by decide +kernel, by decide +kernel, fun h => ?_⟩
  have hfits := h [0xff]
  revert hfits
  decide +kernel

end GracefulMusic.Format
