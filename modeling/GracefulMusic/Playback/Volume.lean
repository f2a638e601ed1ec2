import GracefulMusic.Input.Conversion
import GracefulMusic.Foundation.Bytes
import Mathlib.Algebra.Order.Round
import Mathlib.Data.Rat.Floor

/-! The software volume (`player.c`).

A factor is a multiple of 1/65536. `replaygain_scale` is a `double`, so what `l *=
replaygain_scale` makes of the factors before is a function of the volume here. The product
of a sample and a factor has 32 bits for 16-bit samples and 64 bits otherwise, and signed
arithmetic that leaves its range is undefined: `none`. -/
namespace GracefulMusic.Samples

def softVolScale : Int := 65536

/-- Coefficients for volumes 0..99, for 100 65536 is used. -/
def softVolDb : List Int := [
  0x0000, 0x0110, 0x011c, 0x012f, 0x013d, 0x0152, 0x0161, 0x0179,
  0x018a, 0x01a5, 0x01c1, 0x01d5, 0x01f5, 0x020b, 0x022e, 0x0247,
  0x026e, 0x028a, 0x02b6, 0x02d5, 0x0306, 0x033a, 0x035f, 0x0399,
  0x03c2, 0x0403, 0x0431, 0x0479, 0x04ac, 0x04fd, 0x0553, 0x058f,
  0x05ef, 0x0633, 0x069e, 0x06ea, 0x0761, 0x07b5, 0x083a, 0x0898,
  0x092c, 0x09cb, 0x0a3a, 0x0aeb, 0x0b67, 0x0c2c, 0x0cb6, 0x0d92,
  0x0e2d, 0x0f21, 0x1027, 0x10de, 0x1202, 0x12cf, 0x1414, 0x14f8,
  0x1662, 0x1761, 0x18f5, 0x1a11, 0x1bd3, 0x1db4, 0x1f06, 0x211d,
  0x2297, 0x24ec, 0x2690, 0x292a, 0x2aff, 0x2de5, 0x30fe, 0x332b,
  0x369f, 0x390d, 0x3ce6, 0x3f9b, 0x43e6, 0x46eb, 0x4bb3, 0x4f11,
  0x5466, 0x5a18, 0x5e19, 0x6472, 0x68ea, 0x6ffd, 0x74f8, 0x7cdc,
  0x826a, 0x8b35, 0x9499, 0x9b35, 0xa5ad, 0xad0b, 0xb8b7, 0xc0ee,
  0xcdf1, 0xd71a, 0xe59c, 0xefd3]

/-- What the scaling depends on. The products with `replaygain_scale` are numbers that an
`int` has. -/
structure Volume where
  softVol : Bool
  softVolL : Nat
  softVolR : Nat
  /-- `replaygain_scale == 1.0` -/
  rgIsOne : Bool
  /-- `l *= replaygain_scale` -/
  rgTimes : Int → Int
  softVolL_le : softVolL ≤ 100
  softVolR_le : softVolR ≤ 100
  rgTimes_one : rgIsOne = true → rgTimes = id
  rgTimes_range : ∀ x, 0 ≤ x → x ≤ softVolScale → 0 ≤ rgTimes x ∧ rgTimes x < 2 ^ 31

namespace Volume

/-- The factor for one side, before replay gain. -/
def factor (v : Volume) (vol : Nat) : Int :=
  if v.softVol ∧ vol ≠ 100 then softVolDb.getD vol 0 else softVolScale

def left (v : Volume) : Int := v.rgTimes (v.factor v.softVolL)

def right (v : Volume) : Int := v.rgTimes (v.factor v.softVolR)

end Volume

/-! ### One sample -/

/-- A value of a signed type of so many bits. -/
def checked (width : Nat) (x : Int) : Option Int :=
  if -2 ^ (width - 1) ≤ x ∧ x < 2 ^ (width - 1) then some x else none

/-- A sample of so many bits, scaled in arithmetic of a given width. -/
def scaleSample (width bits : Nat) (sample vol : Int) : Option Int := do
  let product ← checked width (sample * vol)
  if sample < 0 then
    let rounded ← checked width (product - softVolScale / 2)
    let sample := rounded.tdiv softVolScale
    some (if sample < -2 ^ (bits - 1) then -2 ^ (bits - 1) else sample)
  else
    let rounded ← checked width (product + softVolScale / 2)
    let sample := rounded.tdiv softVolScale
    some (if sample > 2 ^ (bits - 1) - 1 then 2 ^ (bits - 1) - 1 else sample)

/-- The word at a place, with its bytes swapped first where that is needed. -/
def loadWord (host : Endian) (swap : Bool) (word : Text) : Int :=
  let word := if swap then word.reverse else word
  let value : Int := match host with
    | .little => Bytes.toNat .little word
    | .big => Bytes.toNat .big word
  value.bmod (256 ^ word.length)

def storeWord (host : Endian) (swap : Bool) (size : Nat) (sample : Int) : Text :=
  let value := (sample % 256 ^ size).toNat
  let word := match host with
    | .little => Bytes.ofNat .little size value
    | .big => Bytes.ofNat .big size value
  if swap then word.reverse else word

def scaleSampleInt16 (host : Endian) (swap : Bool) (vol : Int) (word : Text) : Option Text :=
  (scaleSample 32 16 (loadWord host swap word) vol).map (storeWord host swap 2)

def scaleSampleS24le (s vol : Int) : Option Int := scaleSample 64 24 s vol

def scaleSampleInt32 (host : Endian) (swap : Bool) (vol : Int) (word : Text) : Option Text :=
  (scaleSample 64 32 (loadWord host swap word) vol).map (storeWord host swap 4)

def readS24le : Text → Int
  | b0 :: b1 :: b2 :: _ => b0.toNat + b1.toNat * 2 ^ 8 + b2.toInt8.toInt * 2 ^ 16
  | _ => 0

def writeS24le (x : Int) : Text :=
  [UInt8.ofInt x, UInt8.ofInt (x / 2 ^ 8), UInt8.ofInt (x / 2 ^ 16)]

/-! ### The buffer -/

def sfNeedSwap (host : Endian) (sf : SampleFormat) : Bool :=
  match host with
  | .big => sfGetBigendian sf == 0
  | .little => sfGetBigendian sf != 0

/-- The frames of a buffer in place, each side in its own way. -/
def scaleLoop (size : Nat) (l r : Text → Option Text) : Nat → Text → Option Text
  | 0, buf => some buf
  | frames + 1, buf => do
    let first ← l (buf.take size)
    let second ← r ((buf.drop size).take size)
    let rest ← scaleLoop size l r frames (buf.drop (size * 2))
    some (first ++ second ++ rest)

/-- `SCALE_SAMPLES` and `scale_samples_s24le`: a side whose factor is 65536 is left alone,
to avoid underflowing -32768 to 32767. -/
def scaleFrames (size : Nat) (scale : Int → Text → Option Text) (l r : Int) (buf : Text) :
    Option Text :=
  let frames := buf.length / size / 2
  if l ≠ softVolScale ∧ r ≠ softVolScale then scaleLoop size (scale l) (scale r) frames buf
  else if l ≠ softVolScale then scaleLoop size (scale l) some frames buf
  else if r ≠ softVolScale then scaleLoop size some (scale r) frames buf
  else some buf

def scaleSamplesS24le (l r : Int) (buf : Text) : Option Text :=
  scaleFrames 3 (fun vol word => (scaleSampleS24le (readS24le word) vol).map writeS24le) l r buf

/-- `scale_samples` on the part of the buffer that is not scaled yet. -/
def scaleSamples (host : Endian) (sf : SampleFormat) (v : Volume) (buf : Text) : Option Text :=
  if v.rgIsOne ∧ v.softVolL = 100 ∧ v.softVolR = 100 then some buf
  else
    let ch := sfGetChannels sf
    let bits := sfGetBits sf
    if ch ≠ 2 ∨ (bits ≠ 16 ∧ bits ≠ 24 ∧ bits ≠ 32) then some buf
    else if bits = 16 then
      scaleFrames 2 (scaleSampleInt16 host (sfNeedSwap host sf)) v.left v.right buf
    else if bits = 24 then
      if sfGetBigendian sf = 0 then scaleSamplesS24le v.left v.right buf else some buf
    else scaleFrames 4 (scaleSampleInt32 host (sfNeedSwap host sf)) v.left v.right buf

/-! ### What a scaled sample is -/

def roundHalfAway (x : Rat) : Int := if x < 0 then -⌊-x + 1 / 2⌋ else ⌊x + 1 / 2⌋

/-- The exact value rounded and clamped. -/
def scaledValue (bits : Nat) (sample vol : Int) : Int :=
  max (-2 ^ (bits - 1)) (min (roundHalfAway ((sample * vol : Int) / 65536)) (2 ^ (bits - 1) - 1))

/-- The factor is so near to 65536, or the sample so near to zero or at an end of the range,
that scaling leaves the sample alone. -/
def LeftAlone (bits : Nat) (sample vol : Int) : Prop :=
  -32768 ≤ |sample| * (vol - 65536) ∧
    (|sample| * (vol - 65536) < 32768 ∨ sample = -2 ^ (bits - 1) ∨ sample = 2 ^ (bits - 1) - 1)

/-- A sample of a signed type of so many bits. -/
def InBits (bits : Nat) (sample : Int) : Prop := -2 ^ (bits - 1) ≤ sample ∧ sample < 2 ^ (bits - 1)

theorem floor_scaled (n : Int) : ⌊((n : Int) : ℚ) / 65536 + 1 / 2⌋ = (n + 32768) / 65536 := by
  have hsum : ((n : Int) : ℚ) / 65536 + 1 / 2 = ((n + 32768 : Int) : ℚ) / (65536 : Nat) := by
    push_cast
    ring
  rw [hsum, Rat.floor_intCast_div_natCast]
  rfl

theorem roundHalfAway_eq (n : Int) : roundHalfAway ((n : ℚ) / 65536) =
    if n < 0 then (n - 32768).tdiv 65536 else (n + 32768).tdiv 65536 := by
  have hsign : (n : ℚ) / 65536 < 0 ↔ n < 0 := by
    rw [div_lt_iff₀ (by norm_num), zero_mul]
    exact Int.cast_lt_zero
  rw [roundHalfAway]
  by_cases hneg : n < 0
  · rw [if_pos (hsign.mpr hneg), if_pos hneg]
    have hminus : -((n : ℚ) / 65536) = ((-n : Int) : ℚ) / 65536 := by
      push_cast
      ring
    rw [hminus, floor_scaled, ← Int.tdiv_eq_ediv_of_nonneg (by omega), ← Int.neg_tdiv]
    congr 1
    omega
  · rw [if_neg (mt hsign.mp hneg), if_neg hneg, floor_scaled,
      Int.tdiv_eq_ediv_of_nonneg (by omega)]

theorem tdiv_nonpos {x : Int} (hx : x ≤ 0) : x.tdiv 65536 = -(-x / 65536) := by
  rw [← Int.tdiv_eq_ediv_of_nonneg (by omega), Int.neg_tdiv, neg_neg]

theorem scaledValue_eq {bits : Nat} {sample vol : Int} (hvol : 0 ≤ vol) :
    scaledValue bits sample vol =
      if sample < 0 then max (-2 ^ (bits - 1)) ((sample * vol - 32768).tdiv 65536)
      else min ((sample * vol + 32768).tdiv 65536) (2 ^ (bits - 1) - 1) := by
  have hpow : (0 : Int) < 2 ^ (bits - 1) := by positivity
  have hround := roundHalfAway_eq (sample * vol)
  rw [scaledValue, hround]
  by_cases hneg : sample < 0
  · have hproduct : sample * vol ≤ 0 := mul_nonpos_of_nonpos_of_nonneg (Int.le_of_lt hneg) hvol
    have hscaled := tdiv_nonpos (show sample * vol - 32768 ≤ 0 by omega)
    have hzero : ¬sample * vol < 0 → (sample * vol + 32768).tdiv 65536 = 0 := by
      intro hnot
      rw [show sample * vol = 0 by omega]
      rfl
    rw [if_pos hneg]
    split
    · omega
    · rename_i hnot
      have := hzero hnot
      omega
  · have hproduct : 0 ≤ sample * vol := mul_nonneg (Int.not_lt.mp hneg) hvol
    have hscaled := Int.tdiv_eq_ediv_of_nonneg (b := 65536) (show 0 ≤ sample * vol + 32768 by omega)
    rw [if_neg hneg, if_neg (by omega)]
    omega

/-- The rounded product, in arithmetic that has it. -/
def Fits (width : Nat) (sample vol : Int) : Prop :=
  if sample < 0 then -2 ^ (width - 1) ≤ sample * vol - 32768
  else sample * vol + 32768 < 2 ^ (width - 1)

instance instDecidableFits (width : Nat) (sample vol : Int) : Decidable (Fits width sample vol) :=
  inferInstanceAs (Decidable (if sample < 0 then -2 ^ (width - 1) ≤ sample * vol - 32768
    else sample * vol + 32768 < 2 ^ (width - 1)))

theorem scaleSample_eq {width bits : Nat} {sample vol : Int} (hvol : 0 ≤ vol) :
    scaleSample width bits sample vol =
      if Fits width sample vol then some (scaledValue bits sample vol) else none := by
  have hpow : (0 : Int) < 2 ^ (width - 1) := by positivity
  have hhalf : (65536 : Int) / 2 = 32768 := by decide
  rw [scaledValue_eq hvol]
  unfold scaleSample checked Fits softVolScale
  by_cases hneg : sample < 0
  · have hproduct : sample * vol ≤ 0 := mul_nonpos_of_nonpos_of_nonneg (Int.le_of_lt hneg) hvol
    simp only [if_pos hneg, Option.bind_eq_bind, hhalf]
    by_cases hfits : -2 ^ (width - 1) ≤ sample * vol - 32768
    · rw [if_pos (show _ ∧ _ by omega), Option.bind_some, if_pos (show _ ∧ _ by omega),
        Option.bind_some, if_pos hfits]
      congr 1
      split <;> omega
    · rw [if_neg hfits]
      by_cases hfirst : -2 ^ (width - 1) ≤ sample * vol ∧ sample * vol < 2 ^ (width - 1)
      · rw [if_pos hfirst, Option.bind_some, if_neg (show ¬(_ ∧ _) by omega), Option.bind_none]
      · rw [if_neg hfirst, Option.bind_none]
  · have hproduct : 0 ≤ sample * vol := mul_nonneg (Int.not_lt.mp hneg) hvol
    simp only [if_neg hneg, Option.bind_eq_bind, hhalf]
    by_cases hfits : sample * vol + 32768 < 2 ^ (width - 1)
    · rw [if_pos (show _ ∧ _ by omega), Option.bind_some, if_pos (show _ ∧ _ by omega),
        Option.bind_some, if_pos hfits]
      congr 1
      split <;> omega
    · rw [if_neg hfits]
      by_cases hfirst : -2 ^ (width - 1) ≤ sample * vol ∧ sample * vol < 2 ^ (width - 1)
      · rw [if_pos hfirst, Option.bind_some, if_neg (show ¬(_ ∧ _) by omega), Option.bind_none]
      · rw [if_neg hfirst, Option.bind_none]

/-- 64 bits have room for every product. -/
theorem fits_64 {bits : Nat} (hbits : bits ≤ 32) {sample vol : Int} (hsample : InBits bits sample)
    (hvol : 0 ≤ vol) (hmax : vol < 2 ^ 31) : Fits 64 sample vol := by
  have hpow : (2 : Int) ^ (bits - 1) ≤ 2 ^ 31 := pow_le_pow_right₀ (by decide) (by omega)
  obtain ⟨hlow, hhigh⟩ := hsample
  unfold Fits
  split
  · have : -(2 ^ 31) * 2 ^ 31 ≤ sample * vol := by nlinarith
    omega
  · have : sample * vol ≤ 2 ^ 31 * 2 ^ 31 := by nlinarith
    omega

/-- Factor 65536 changes nothing. -/
theorem scaledValue_unit {bits : Nat} {sample : Int} (h : InBits bits sample) :
    scaledValue bits sample softVolScale = sample := by
  obtain ⟨hlow, hhigh⟩ := h
  rw [scaledValue_eq (by decide), softVolScale]
  split
  · rw [tdiv_nonpos (by omega)]
    omega
  · rw [Int.tdiv_eq_ediv_of_nonneg (by omega)]
    omega

theorem leftAlone_iff {bits : Nat} {sample vol : Int} (hvol : 0 ≤ vol) (h : InBits bits sample) :
    scaledValue bits sample vol = sample ↔ LeftAlone bits sample vol := by
  obtain ⟨hlow, hhigh⟩ := h
  rw [scaledValue_eq hvol, LeftAlone]
  by_cases hneg : sample < 0
  · have hproduct : sample * vol ≤ 0 := mul_nonpos_of_nonpos_of_nonneg (Int.le_of_lt hneg) hvol
    have habs : |sample| * (vol - 65536) = 65536 * sample - sample * vol := by
      rw [abs_of_neg hneg]
      ring
    rw [if_pos hneg, tdiv_nonpos (by omega), habs]
    omega
  · have hproduct : 0 ≤ sample * vol := mul_nonneg (Int.not_lt.mp hneg) hvol
    have habs : |sample| * (vol - 65536) = sample * vol - 65536 * sample := by
      rw [abs_of_nonneg (Int.not_lt.mp hneg)]
      ring
    rw [if_neg hneg, Int.tdiv_eq_ediv_of_nonneg (by omega), habs]
    omega

end GracefulMusic.Samples
