import Mathlib.Algebra.BigOperators.Group.List.Basic
import Mathlib.Algebra.Order.Ring.Int
import Mathlib.Data.List.DropRight
import Mathlib.Data.List.Induction
import Mathlib.Data.List.Infix
import Mathlib.Data.List.Nodup
import Mathlib.Data.List.TakeWhile

/-! C strings, characters and integers.

A string is the bytes before its terminator. Literals are written in ASCII, and the
character classes are those of the C locale. An `int` has 32 bits and a `long` 64. -/
namespace GracefulMusic

abbrev Text := List UInt8

instance : LawfulBEq Text := inferInstance

/-- A character constant. -/
def ch (c : Char) : UInt8 := c.toNat.toUInt8

/-- What holds of the 256 bytes. -/
theorem forall_byte {P : UInt8 → Prop} (h : ∀ n : Fin 256, P (UInt8.ofNat n)) (c : UInt8) : P c := by
  have := h ⟨c.toNat, c.toNat_lt⟩
  simpa using this

/-- A string constant. -/
def ascii (s : String) : Text := s.toList.map ch

def isDigit (c : UInt8) : Bool := ch '0' ≤ c && c ≤ ch '9'

def isAlpha (c : UInt8) : Bool := (ch 'A' ≤ c && c ≤ ch 'Z') || (ch 'a' ≤ c && c ≤ ch 'z')

def isSpace (c : UInt8) : Bool := c == ch ' ' || (9 ≤ c && c ≤ 13)

def toLower (c : UInt8) : UInt8 := if ch 'A' ≤ c && c ≤ ch 'Z' then c + 32 else c

def strcmp : Text → Text → Int
  | [], [] => 0
  | [], d :: _ => -(d.toNat : Int)
  | c :: _, [] => c.toNat
  | c :: s, d :: t => if c = d then strcmp s t else (c.toNat : Int) - d.toNat

def strcasecmp (s t : Text) : Int := strcmp (s.map toLower) (t.map toLower)

/-- The value of a row of decimal digits. -/
def digitsValue (s : Text) : Nat := s.foldl (fun n c => 10 * n + (c - ch '0').toNat) 0

/-- `strtol` to base 10: the value, clamped to a `long`, and what is left. -/
def strtol (s : Text) : Int × Text :=
  let body := s.dropWhile isSpace
  let (negative, digits) := match body with
    | c :: rest => if c = ch '-' then (true, rest) else if c = ch '+' then (false, rest)
      else (false, body)
    | [] => (false, [])
  let value : Int := digitsValue (digits.takeWhile isDigit)
  if digits.takeWhile isDigit = [] then (0, s)
  else (max (-2 ^ 63) (min (2 ^ 63 - 1) (if negative then -value else value)),
    digits.dropWhile isDigit)

/-- `str_to_int`: the value, and whether it is the whole of a string that is not
empty. -/
def strToInt (s : Text) : Int × Bool := ((strtol s).1, s ≠ [] && (strtol s).2 = [])

/-- A value stored in an `int`. -/
def toInt (x : Int) : Int := x.bmod (2 ^ 32)

def intMax : Int := 2 ^ 31 - 1

end GracefulMusic

/-! Loops that count an `int` up to a last value. -/
namespace GracefulMusic

theorem toInt_of_le {n : Int} (hlow : 0 ≤ n) (hhigh : n ≤ intMax) : toInt n = n := by
  unfold intMax at hhigh
  unfold toInt
  apply Int.bmod_eq_of_le <;> omega

theorem toInt_le (n : Int) : toInt n ≤ intMax := by
  have hlt := Int.bmod_lt (x := n) (m := 2 ^ 32) (by decide)
  unfold toInt intMax
  omega

/-- The values that the body of `for (; i <= last; i++)` sees, as long as the loop takes no
more than the given rounds. -/
def countUp (last : Int) : Nat → Int → Option (List Int)
  | 0, _ => none
  | rounds + 1, i =>
    if i ≤ last then (countUp last rounds (toInt (i + 1))).map (i :: ·) else some []

/-- The values from the first to the last. -/
def interval (first last : Int) : List Int :=
  (List.range (last + 1 - first).toNat).map fun k : Nat => first + k

theorem interval_empty {first last : Int} (h : last < first) : interval first last = [] := by
  have hzero : (last + 1 - first).toNat = 0 := by omega
  rw [interval, hzero]
  rfl

theorem interval_cons {first last : Int} (h : first ≤ last) :
    interval first last = first :: interval (first + 1) last := by
  have hsucc : (last + 1 - first).toNat = (last + 1 - (first + 1)).toNat + 1 := by omega
  rw [interval, hsucc, List.range_succ_eq_map, List.map_cons, List.map_map, interval]
  congr 1
  · simp
  · apply List.map_congr_left
    intro k _
    show first + ((k + 1 : Nat) : Int) = first + 1 + k
    push_cast
    omega

theorem mem_interval {first last i : Int} (h : i ∈ interval first last) : first ≤ i ∧ i ≤ last := by
  obtain ⟨k, hk, hi⟩ := List.mem_map.mp h
  have hlt := List.mem_range.mp hk
  omega

theorem interval_length (first last : Int) :
    (interval first last).length = (last + 1 - first).toNat := by
  rw [interval, List.length_map, List.length_range]

/-- In front of the greatest `int` the loop sees each value once. -/
theorem countUp_eq {last : Int} (hlast : last < intMax) (rounds : Nat) {i : Int} (hi : 0 ≤ i) :
    countUp last rounds i =
      if (last + 1 - i).toNat < rounds then some (interval i last) else none := by
  induction rounds generalizing i with
  | zero => rfl
  | succ rounds ih =>
    rw [countUp]
    by_cases h : i ≤ last
    · have hnext : toInt (i + 1) = i + 1 := toInt_of_le (by omega) (by omega)
      rw [if_pos h, hnext, ih (by omega)]
      by_cases hrounds : (last + 1 - (i + 1)).toNat < rounds
      · rw [if_pos hrounds, if_pos (by omega), interval_cons h]
        rfl
      · rw [if_neg hrounds, if_neg (by omega)]
        rfl
    · rw [if_neg h, if_pos (by omega), interval_empty (by omega)]

/-- Behind the greatest `int` comes the least. -/
theorem countUp_endless (rounds : Nat) {i : Int} (hi : i ≤ intMax) :
    countUp intMax rounds i = none := by
  induction rounds generalizing i with
  | zero => rfl
  | succ rounds ih =>
    rw [countUp, if_pos hi, ih (toInt_le _)]
    rfl

end GracefulMusic
