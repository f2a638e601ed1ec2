import Mathlib.Data.List.Infix
import Mathlib.Algebra.Order.Ring.Nat

/-! Base64.

Three bytes are a number of 24 bits, which is written in four digits of six bits. What is
left at the end, one byte or two, is written in two digits or three and padded. -/
namespace Base64

/-- A digit of six bits. -/
def digit (n : Nat) : UInt8 :=
  if n < 26 then UInt8.ofNat (65 + n) -- A-Z
  else if n < 52 then UInt8.ofNat (97 + (n - 26)) -- a-z
  else if n < 62 then UInt8.ofNat (48 + (n - 52)) -- 0-9
  else if n = 62 then 43 -- +
  else 47 -- /

def pad : UInt8 := 61 -- =

def digitValue (c : UInt8) : Option Nat := (List.range 64).find? fun n => digit n = c

/-- The number of three bytes. -/
def group (a b c : UInt8) : Nat := a.toNat * 2 ^ 16 + b.toNat * 2 ^ 8 + c.toNat

/-- A digit of a group, counted from the right. -/
def digitAt (n i : Nat) : UInt8 := digit (n / 2 ^ (6 * i) % 64)

/-- A byte of a group, counted from the right. -/
def byteAt (n i : Nat) : UInt8 := UInt8.ofNat (n / 2 ^ (8 * i))

def encode : List UInt8 → List UInt8
  | [] => []
  | [a] => [digitAt (group a 0 0) 3, digitAt (group a 0 0) 2, pad, pad]
  | [a, b] => [digitAt (group a b 0) 3, digitAt (group a b 0) 2, digitAt (group a b 0) 1, pad]
  | a :: b :: c :: rest =>
    let n := group a b c
    digitAt n 3 :: digitAt n 2 :: digitAt n 1 :: digitAt n 0 :: encode rest

/-- The number of four digits. -/
def number (c₃ c₂ c₁ c₀ : UInt8) : Option Nat := do
  let v₃ ← digitValue c₃
  let v₂ ← digitValue c₂
  let v₁ ← digitValue c₁
  let v₀ ← digitValue c₀
  some (v₃ * 2 ^ 18 + v₂ * 2 ^ 12 + v₁ * 2 ^ 6 + v₀)

/-- Padding is read at the end only. -/
def decode : List UInt8 → Option (List UInt8)
  | [] => some []
  | c₃ :: c₂ :: c₁ :: c₀ :: rest =>
    if rest = [] ∧ c₀ = pad ∧ c₁ = pad then
      (number c₃ c₂ (digit 0) (digit 0)).map fun n => [byteAt n 2]
    else if rest = [] ∧ c₀ = pad then
      (number c₃ c₂ c₁ (digit 0)).map fun n => [byteAt n 2, byteAt n 1]
    else do
      let n ← number c₃ c₂ c₁ c₀
      let rest ← decode rest
      some (byteAt n 2 :: byteAt n 1 :: byteAt n 0 :: rest)
  | _ => none

/-! ### Digits -/

@[simp] theorem digitValue_digit {n : Nat} (hn : n < 64) : digitValue (digit n) = some n := by
  have hall : ∀ n : Fin 64, digitValue (digit n) = some n.val := by decide +kernel
  exact hall ⟨n, hn⟩

/-- Neither the padding nor a zero byte is a digit. -/
theorem digitAt_ne (n i : Nat) : digitAt n i ≠ pad ∧ digitAt n i ≠ 0 := by
  have hall : ∀ n : Fin 64, digit n ≠ pad ∧ digit n ≠ 0 := by decide
  exact hall ⟨_, Nat.mod_lt _ (by decide)⟩

theorem digitAt_ne_pad (n i : Nat) : digitAt n i ≠ pad := (digitAt_ne n i).1

/-- Four digits are 24 bits. -/
theorem number_digits {n : Nat} (hn : n < 2 ^ 24) :
    number (digitAt n 3) (digitAt n 2) (digitAt n 1) (digitAt n 0) = some n := by
  have hvalue (i : Nat) : digitValue (digitAt n i) = some (n / 2 ^ (6 * i) % 64) :=
    digitValue_digit (Nat.mod_lt _ (by decide))
  simp only [number, hvalue, Option.bind_eq_bind, Option.bind_some, Option.some.injEq]
  omega

theorem group_lt (a b c : UInt8) : group a b c < 2 ^ 24 := by
  have ha := a.toNat_lt
  have hb := b.toNat_lt
  have hc := c.toNat_lt
  simp only [group]
  omega

theorem byteAt_eq {n i : Nat} {a : UInt8} (h : n / 2 ^ (8 * i) % 2 ^ 8 = a.toNat) : byteAt n i = a := by
  rw [byteAt, ← UInt8.toNat_inj, UInt8.toNat_ofNat', h]

theorem group_bytes (a b c : UInt8) :
    byteAt (group a b c) 2 = a ∧ byteAt (group a b c) 1 = b ∧ byteAt (group a b c) 0 = c := by
  have ha := a.toNat_lt
  have hb := b.toNat_lt
  have hc := c.toNat_lt
  refine ⟨byteAt_eq ?_, byteAt_eq ?_, byteAt_eq ?_⟩
  all_goals
    simp only [group]
    omega

/-- The number of the digits of a group that ends in zeros. -/
theorem number_padded {n i : Nat} (hn : n < 2 ^ 24) (hzero : ∀ j < i, n / 2 ^ (6 * j) % 64 = 0) :
    number (digitAt n 3) (digitAt n 2) (if i ≤ 1 then digitAt n 1 else digit 0)
      (if i = 0 then digitAt n 0 else digit 0) = some n := by
  have hdigit : ∀ j < i, digitAt n j = digit 0 := fun j hj => by rw [digitAt, hzero j hj]
  rw [← number_digits hn]
  congr 1
  · split
    · rfl
    · exact (hdigit 1 (by omega)).symm
  · split
    · rfl
    · exact (hdigit 0 (by omega)).symm

/-! ### Decoding -/

theorem decode_encode (s : List UInt8) : decode (encode s) = some s := by
  induction s using encode.induct with
  | case1 => rfl
  | case2 a =>
    have hnumber := number_padded (group_lt a 0 0) (i := 2) fun j hj => by
      have : j = 0 ∨ j = 1 := by omega
      rcases this with rfl | rfl
      all_goals
        simp only [group, UInt8.toNat_zero]
        omega
    rw [encode, decode, if_pos ⟨rfl, rfl, rfl⟩]
    exact (congrArg _ hnumber).trans (by rw [Option.map_some, (group_bytes a 0 0).1])
  | case3 a b =>
    have hnumber := number_padded (group_lt a b 0) (i := 1) fun j hj => by
      obtain rfl : j = 0 := by omega
      simp only [group, UInt8.toNat_zero]
      omega
    rw [encode, decode, if_neg fun h => digitAt_ne_pad _ _ h.2.2, if_pos ⟨rfl, rfl⟩]
    exact (congrArg _ hnumber).trans
      (by rw [Option.map_some, (group_bytes a b 0).1, (group_bytes a b 0).2.1])
  | case4 a b c rest ih =>
    obtain ⟨ha, hb, hc⟩ := group_bytes a b c
    rw [encode, decode, if_neg fun h => digitAt_ne_pad _ _ h.2.1,
      if_neg fun h => digitAt_ne_pad _ _ h.2, number_digits (group_lt a b c), ih]
    simp only [Option.bind_eq_bind, Option.bind_some, ha, hb, hc]

theorem length_encode (s : List UInt8) : (encode s).length = (s.length + 2) / 3 * 4 := by
  induction s using encode.induct with
  | case1 => rfl
  | case2 a => simp [encode]
  | case3 a b => simp [encode]
  | case4 a b c rest ih =>
    simp only [encode, List.length_cons, ih]
    omega

theorem zero_notMem_encode (s : List UInt8) : 0 ∉ encode s := by
  induction s using encode.induct with
  | case1 => simp [encode]
  | case2 a => simp [encode, (digitAt_ne _ _).2.symm, pad]
  | case3 a b => simp [encode, (digitAt_ne _ _).2.symm, pad]
  | case4 a b c rest ih => simp [encode, (digitAt_ne _ _).2.symm, ih]

/-- Only whole groups of digits are decoded. -/
theorem length_of_decode {s bytes : List UInt8} (h : decode s = some bytes) : s.length % 4 = 0 := by
  induction s using decode.induct generalizing bytes with
  | case1 => rfl
  | case2 c₃ c₂ c₁ c₀ rest hpad => simp [hpad.1]
  | case3 c₃ c₂ c₁ c₀ rest hpads hpad => simp [hpad.1]
  | case4 c₃ c₂ c₁ c₀ rest hpads hpad ih =>
    rw [decode, if_neg hpads, if_neg hpad] at h
    obtain ⟨n, -, h⟩ := Option.bind_eq_some_iff.mp h
    obtain ⟨behind, hrest, -⟩ := Option.bind_eq_some_iff.mp h
    have := ih hrest
    simp only [List.length_cons]
    omega
  | case5 s hnil hcons =>
    rw [decode] at h
    · cases h
    · exact hnil
    · exact hcons

end Base64
