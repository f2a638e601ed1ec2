import GracefulMusic.Text
import Mathlib.Data.Rat.Floor

/-! The volume command (`command_mode.c`, `player.c`, `utils.h`).

The arithmetic is that of `int`, and a result that does not fit is `none`: the code checks
none of it, and only the last step clamps. Where all the results fit, the volume is the
exact one, and percentages of the maximum come back. -/
namespace GracefulMusic.Volume

/-- A result of `int` arithmetic. -/
def checked (n : Int) : Option Int := if -2 ^ 31 ≤ n ∧ n ≤ intMax then some n else none

structure Flags where
  relative : Bool
  percentage : Bool
  deriving DecidableEq

/-- The loop over the digits; what it stops at is left. -/
def scanDigits (val : Int) : Text → Option (Int × Text)
  | [] => some (val, [])
  | c :: arg =>
    if isDigit c then do
      let val ← checked (val * 10)
      let val ← checked (val + (c - ch '0').toNat)
      scanDigits val arg
    else some (val, c :: arg)

/-- The sign, its flag, and the rest. -/
def scanSign (arg : Text) : Int × Bool × Text :=
  match arg with
  | [] => (1, false, [])
  | c :: rest =>
    if c = ch '-' then (-1, true, rest) else if c = ch '+' then (1, true, rest)
    else (1, false, c :: rest)

/-- `parse_vol_arg`: the inner `none` is its error. -/
def parseVolArg (arg : Text) : Option (Option (Int × Flags)) := do
  let (sign, relative, arg) := scanSign arg
  let (val, rest) ← scanDigits 0 arg
  if arg.takeWhile isDigit = [] then some none
  else
    let percentage := rest.head? == some (ch '%')
    let rest := if percentage then rest.tail else rest
    if rest ≠ [] then some none
    else (checked (sign * val)).map fun value => some (value, ⟨relative, percentage⟩)

def clamp (val minval maxval : Int) : Int :=
  if val < minval then minval else if val > maxval then maxval else val

def scaleFromPercentage (val maxVal : Int) : Option Int :=
  (checked (val * maxVal)).bind fun product =>
    (checked (if val < 0 then product - 50 else product + 50)).map fun n => n.tdiv 100

def calcVol (val old maxVol : Int) (flags : Flags) : Option Int :=
  (if flags.percentage then scaleFromPercentage val maxVol else some val).bind fun val =>
    (if flags.relative then checked (val + old) else some val).map fun val => clamp val 0 maxVol

/-- Who sets the volume, and the volumes there are; `volumeL` and `volumeR` are what
`mixer_read_volume` leaves. -/
structure Volumes where
  softVol : Bool
  softVolL : Int
  softVolR : Int
  volumeL : Int
  volumeR : Int
  volumeMax : Int

/-- The old volumes and the maximum that `player_set_vol` passes on. -/
def Volumes.old (v : Volumes) : Int × Int :=
  if v.softVol then (v.softVolL, v.softVolR) else (v.volumeL, v.volumeR)

def Volumes.max (v : Volumes) : Int := if v.softVol then 100 else v.volumeMax

/-- The volumes that `player_set_vol` sets. -/
def playerSetVol (v : Volumes) (l : Int) (lf : Flags) (r : Int) (rf : Flags) :
    Option (Int × Int) := do
  let l ← calcVol l v.old.1 v.max lf
  let r ← calcVol r v.old.2 v.max rf
  some (l, r)

/-- `cmd_vol` with its words; the inner `none` is its error. -/
def cmdVol (v : Volumes) (first : Text) (second : Option Text) : Option (Option (Int × Int)) := do
  match ← parseVolArg first with
  | none => some none
  | some (l, lf) =>
    match second with
    | none => (playerSetVol v l lf l lf).map some
    | some second =>
      match ← parseVolArg second with
      | none => some none
      | some (r, rf) => (playerSetVol v l lf r rf).map some

/-! ### What the command means -/

/-- The digits of an argument. -/
def digits (arg : Text) : Text := (scanSign arg).2.2.takeWhile isDigit

def tail (arg : Text) : Text := (scanSign arg).2.2.dropWhile isDigit

/-- `[-+]?[0-9]+%?` -/
def Accepted (arg : Text) : Prop := digits arg ≠ [] ∧ (tail arg = [] ∨ tail arg = [ch '%'])

instance (arg : Text) : Decidable (Accepted arg) := by
  unfold Accepted
  infer_instance

def number (arg : Text) : Int := (scanSign arg).1 * digitsValue (digits arg)

def flags (arg : Text) : Flags := ⟨(scanSign arg).2.1, (tail arg).head? == some (ch '%')⟩

/-- The nearest integer, and of two the one away from zero. -/
def roundAway (q : ℚ) : Int := if q < 0 then -⌊-q + 1 / 2⌋ else ⌊q + 1 / 2⌋

/-- The number, or its share of the maximum. -/
def amount (arg : Text) (maxVol : Int) : Int :=
  if (flags arg).percentage then roundAway (maxVol * number arg / 100) else number arg

def exactVolume (arg : Text) (old maxVol : Int) : Int :=
  max 0 (min (if (flags arg).relative then amount arg maxVol + old else amount arg maxVol) maxVol)

/-- The number, its product with the maximum and the sum with the old volume fit. -/
structure Fits (arg : Text) (old maxVol : Int) : Prop where
  number : digitsValue (digits arg) ≤ intMax
  percentage : (flags arg).percentage → if Volume.number arg < 0 then
    -2 ^ 31 ≤ Volume.number arg * maxVol - 50 else Volume.number arg * maxVol + 50 ≤ intMax
  relative : (flags arg).relative →
    -2 ^ 31 ≤ amount arg maxVol + old ∧ amount arg maxVol + old ≤ intMax

/-! ### The argument -/

theorem checked_eq_some_iff {n m : Int} :
    checked n = some m ↔ (-2 ^ 31 ≤ n ∧ n ≤ intMax) ∧ n = m := by
  unfold checked
  by_cases h : -2 ^ 31 ≤ n ∧ n ≤ intMax
  · rw [if_pos h, Option.some_inj, and_iff_right h]
  · rw [if_neg h]
    exact iff_of_false (Option.some_ne_none m).symm fun hn => h hn.1

theorem checked_of_fits {n : Int} (hlow : -2 ^ 31 ≤ n) (hhigh : n ≤ intMax) :
    checked n = some n := if_pos ⟨hlow, hhigh⟩

theorem le_foldl_digits (n : Nat) (s : Text) :
    n ≤ s.foldl (fun n c => 10 * n + (c - ch '0').toNat) n := by
  induction s generalizing n with
  | nil => exact Nat.le_refl n
  | cons c s ih => exact Nat.le_trans (by omega) (ih (10 * n + (c - ch '0').toNat))

/-- The digits overflow exactly when their number does. -/
theorem scanDigits_eq (n : Nat) (s : Text) (hn : (n : Int) ≤ intMax) :
    scanDigits n s =
      let value := (s.takeWhile isDigit).foldl (fun n c => 10 * n + (c - ch '0').toNat) n
      if (value : Int) ≤ intMax then some ((value : Int), s.dropWhile isDigit) else none := by
  induction s generalizing n with
  | nil => exact (if_pos hn).symm
  | cons c s ih =>
    rw [scanDigits]
    by_cases hc : isDigit c = true
    · rw [if_pos hc, List.takeWhile_cons_of_pos hc, List.dropWhile_cons_of_pos hc, List.foldl_cons]
      have hle := le_foldl_digits (10 * n + (c - ch '0').toNat) (s.takeWhile isDigit)
      by_cases hten : (n : Int) * 10 ≤ intMax
      · rw [checked_of_fits (by omega) hten]
        by_cases hnext : (n : Int) * 10 + (c - ch '0').toNat ≤ intMax
        · have hcast : (n : Int) * 10 + (c - ch '0').toNat =
              ((10 * n + (c - ch '0').toNat : Nat) : Int) := by
            push_cast
            omega
          simp only [Option.bind_eq_bind, Option.bind_some]
          rw [checked_of_fits (by omega) hnext, Option.bind_some, hcast]
          exact ih _ (by omega)
        · simp only [Option.bind_eq_bind, Option.bind_some]
          rw [checked, if_neg (fun h => hnext h.2), if_neg (by omega)]
          rfl
      · rw [checked, if_neg (fun h => hten h.2), if_neg (by omega)]
        rfl
    · rw [if_neg hc, List.takeWhile_cons_of_neg hc, List.dropWhile_cons_of_neg hc]
      exact (if_pos hn).symm

theorem scanSign_unit (arg : Text) : (scanSign arg).1 = 1 ∨ (scanSign arg).1 = -1 := by
  unfold scanSign
  split
  · exact .inl rfl
  · split
    · exact .inr rfl
    · split
      · exact .inl rfl
      · exact .inl rfl

/-- The whole of `parse_vol_arg`. -/
theorem parseVolArg_eq (arg : Text) :
    parseVolArg arg =
      if (digitsValue (digits arg) : Int) ≤ intMax then
        if Accepted arg then some (some (number arg, flags arg)) else some none
      else none := by
  have hscan := scanDigits_eq 0 (scanSign arg).2.2 (by decide)
  have hunit := scanSign_unit arg
  rcases hsign : scanSign arg with ⟨sign, relative, body⟩
  have hdigits : digits arg = body.takeWhile isDigit := by rw [digits, hsign]
  have htail : tail arg = body.dropWhile isDigit := by rw [tail, hsign]
  have hnumber : number arg = sign * digitsValue (digits arg) := by rw [number, hsign]
  have hflags : flags arg = ⟨relative, (tail arg).head? == some (ch '%')⟩ := by rw [flags, hsign]
  rw [hsign, Nat.cast_zero] at hscan
  rw [hsign] at hunit
  have hvalue : List.foldl (fun n c => 10 * n + (c - ch '0').toNat) 0 (body.takeWhile isDigit) =
      digitsValue (digits arg) := by rw [hdigits, digitsValue]
  dsimp only at hscan hunit
  rw [hvalue, ← htail] at hscan
  simp only [parseVolArg, hsign, hscan, ← hdigits]
  by_cases hfits : (digitsValue (digits arg) : Int) ≤ intMax
  · have hchecked : checked (sign * digitsValue (digits arg)) = some (number arg) := by
      rw [hnumber]
      unfold intMax at hfits
      obtain rfl | rfl := hunit
      · exact checked_of_fits (by omega) (by unfold intMax; omega)
      · exact checked_of_fits (by omega) (by unfold intMax; omega)
    simp only [if_pos hfits, Option.bind_eq_bind, Option.bind_some, hchecked, Option.map_some,
      hflags, Accepted]
    by_cases hnone : digits arg = []
    · simp [hnone]
    · rcases htail : tail arg with _ | ⟨c, rest⟩
      · simp [hnone]
      · by_cases hc : c = ch '%'
        · cases rest with
          | nil => simp [hnone, hc]
          | cons d rest => simp [hnone, hc]
        · simp [hnone, hc]
  · simp only [if_neg hfits, Option.bind_eq_bind, Option.bind_none]

/-! ### The volume -/

theorem roundAway_of_nonneg {n : Int} (hn : 0 ≤ n) : roundAway (n / 100) = (n + 50).tdiv 100 := by
  have hq : ¬(n / 100 : ℚ) < 0 := not_lt.mpr (div_nonneg (by exact_mod_cast hn) (by norm_num))
  have hfloor : ⌊((n + 50 : Int) : ℚ) / (100 : Nat)⌋ = (n + 50) / 100 :=
    Rat.floor_intCast_div_natCast (n + 50) 100
  rw [roundAway, if_neg hq, Int.tdiv_eq_ediv_of_nonneg (by omega), ← hfloor]
  congr 1
  push_cast
  ring

theorem roundAway_of_nonpos {n : Int} (hn : n ≤ 0) : roundAway (n / 100) = (n - 50).tdiv 100 := by
  obtain rfl | hneg := Int.le_iff_eq_or_lt.mp hn
  · rw [Int.cast_zero, zero_div]
    decide +kernel
  · have hq : (n / 100 : ℚ) < 0 := div_neg_of_neg_of_pos (by exact_mod_cast hneg) (by norm_num)
    have hfloor : ⌊((-n + 50 : Int) : ℚ) / (100 : Nat)⌋ = (-n + 50) / 100 :=
      Rat.floor_intCast_div_natCast (-n + 50) 100
    rw [roundAway, if_pos hq, show n - 50 = -(-n + 50) by omega, Int.neg_tdiv,
      Int.tdiv_eq_ediv_of_nonneg (by omega), ← hfloor]
    congr 2
    push_cast
    ring

/-- Only the larger of the two intermediate results can overflow. -/
theorem scaleFromPercentage_eq (val : Int) {maxVol : Int} (hmax : 0 ≤ maxVol) :
    scaleFromPercentage val maxVol =
      if if val < 0 then -2 ^ 31 ≤ val * maxVol - 50 else val * maxVol + 50 ≤ intMax then
        some (roundAway (maxVol * val / 100))
      else none := by
  have hscaled : (maxVol * val / 100 : ℚ) = ((val * maxVol : Int) : ℚ) / 100 := by
    push_cast
    ring
  rw [hscaled]
  unfold scaleFromPercentage
  by_cases hneg : val < 0
  · have hproduct : val * maxVol ≤ 0 := Int.mul_nonpos_of_nonpos_of_nonneg (by omega) hmax
    rw [roundAway_of_nonpos hproduct]
    generalize val * maxVol = product at hproduct
    simp only [if_pos hneg]
    by_cases hfits : -2 ^ 31 ≤ product - 50
    · rw [if_pos hfits, checked_of_fits (by omega) (by unfold intMax; omega), Option.bind_some,
        checked_of_fits hfits (by unfold intMax; omega), Option.map_some]
    · rw [if_neg hfits]
      refine Option.bind_eq_none_iff.mpr fun n hn => ?_
      obtain ⟨-, rfl⟩ := checked_eq_some_iff.mp hn
      rw [show checked (product - 50) = none from if_neg fun h => hfits h.1]
      rfl
  · have hproduct : 0 ≤ val * maxVol := Int.mul_nonneg (by omega) hmax
    rw [roundAway_of_nonneg hproduct]
    generalize val * maxVol = product at hproduct
    simp only [if_neg hneg]
    by_cases hfits : product + 50 ≤ intMax
    · rw [if_pos hfits, checked_of_fits (by omega) (by omega), Option.bind_some,
        checked_of_fits (by omega) hfits, Option.map_some]
    · rw [if_neg hfits]
      refine Option.bind_eq_none_iff.mpr fun n hn => ?_
      obtain ⟨-, rfl⟩ := checked_eq_some_iff.mp hn
      rw [show checked (product + 50) = none from if_neg fun h => hfits h.2]
      rfl

theorem clamp_eq (val : Int) {maxVol : Int} (hmax : 0 ≤ maxVol) :
    clamp val 0 maxVol = max 0 (min val maxVol) := by
  unfold clamp
  split
  · omega
  · split
    · omega
    · omega

/-- One channel. -/
theorem calcVol_eq_some_iff {arg : Text} {old maxVol : Int} (hmax : 0 ≤ maxVol)
    (hnumber : digitsValue (digits arg) ≤ intMax) {vol : Int} :
    calcVol (number arg) old maxVol (flags arg) = some vol ↔
      Fits arg old maxVol ∧ vol = exactVolume arg old maxVol := by
  have hamount : ∀ scaled, (if (flags arg).percentage then
      scaleFromPercentage (number arg) maxVol else some (number arg)) = some scaled ↔
      ((flags arg).percentage → if number arg < 0 then -2 ^ 31 ≤ number arg * maxVol - 50
        else number arg * maxVol + 50 ≤ intMax) ∧ scaled = amount arg maxVol := by
    intro scaled
    rw [amount]
    by_cases hpercent : (flags arg).percentage = true
    · rw [if_pos hpercent, if_pos hpercent, scaleFromPercentage_eq _ hmax, forall_prop_of_true hpercent,
        Option.ite_none_right_eq_some, Option.some_inj, eq_comm (a := scaled)]
    · rw [if_neg hpercent, if_neg hpercent, Option.some_inj, eq_comm (a := scaled)]
      exact (and_iff_right fun h => absurd h hpercent).symm
  have hsum : (if (flags arg).relative then checked (amount arg maxVol + old)
      else some (amount arg maxVol)).map (fun val => clamp val 0 maxVol) = some vol ↔
      ((flags arg).relative → -2 ^ 31 ≤ amount arg maxVol + old ∧
        amount arg maxVol + old ≤ intMax) ∧ vol = exactVolume arg old maxVol := by
    rw [exactVolume]
    by_cases hrelative : (flags arg).relative = true
    · simp only [if_pos hrelative, forall_prop_of_true hrelative, Option.map_eq_some_iff,
        checked_eq_some_iff, clamp_eq _ hmax]
      constructor
      · intro h
        obtain ⟨sum, ⟨hfits, rfl⟩, rfl⟩ := h
        exact ⟨hfits, rfl⟩
      · intro h
        obtain ⟨hfits, rfl⟩ := h
        exact ⟨_, ⟨hfits, rfl⟩, rfl⟩
    · rw [if_neg hrelative, if_neg hrelative, Option.map_some, Option.some_inj, clamp_eq _ hmax,
        eq_comm (b := vol)]
      exact (and_iff_right fun h => absurd h hrelative).symm
  unfold calcVol
  rw [Option.bind_eq_some_iff]
  constructor
  · intro h
    obtain ⟨scaled, hscaled, hvol⟩ := h
    obtain ⟨hpercent, rfl⟩ := (hamount scaled).mp hscaled
    obtain ⟨hrelative, rfl⟩ := hsum.mp hvol
    exact ⟨⟨hnumber, hpercent, hrelative⟩, rfl⟩
  · intro h
    obtain ⟨hfits, hvol⟩ := h
    exact ⟨_, (hamount _).mpr ⟨hfits.percentage, rfl⟩, hsum.mpr ⟨hfits.relative, hvol⟩⟩

theorem Volumes.max_nonneg {v : Volumes} (h : 0 ≤ v.volumeMax) : 0 ≤ v.max := by
  unfold Volumes.max
  split
  · decide
  · exact h

/-- Both channels. -/
theorem playerSetVol_eq_some_iff {v : Volumes} (hmax : 0 ≤ v.volumeMax) {l r : Text}
    (hl : digitsValue (digits l) ≤ intMax) (hr : digitsValue (digits r) ≤ intMax) :
    playerSetVol v (number l) (flags l) (number r) (flags r) =
      some (exactVolume l v.old.1 v.max, exactVolume r v.old.2 v.max) ↔
      Fits l v.old.1 v.max ∧ Fits r v.old.2 v.max := by
  simp only [playerSetVol, Option.bind_eq_bind, Option.bind_eq_some_iff,
    calcVol_eq_some_iff (Volumes.max_nonneg hmax) hl,
    calcVol_eq_some_iff (Volumes.max_nonneg hmax) hr]
  constructor
  · intro h
    obtain ⟨-, ⟨hfitsl, -⟩, -, ⟨hfitsr, -⟩, -⟩ := h
    exact ⟨hfitsl, hfitsr⟩
  · intro h
    exact ⟨_, ⟨h.1, rfl⟩, _, ⟨h.2, rfl⟩, rfl⟩

theorem map_some_eq_iff {α : Type} {a : Option α} {b : α} :
    a.map some = some (some b) ↔ a = some b :=
  (Option.map_injective (Option.some_injective α)).eq_iff (b := some b)

theorem parseVolArg_accepted {arg : Text} (h : Accepted arg) :
    (digitsValue (digits arg) ≤ intMax ∧ parseVolArg arg = some (some (number arg, flags arg))) ∨
      (¬digitsValue (digits arg) ≤ intMax ∧ parseVolArg arg = none) := by
  rw [parseVolArg_eq, if_pos h]
  by_cases hfits : (digitsValue (digits arg) : Int) ≤ intMax
  · exact .inl ⟨hfits, if_pos hfits⟩
  · exact .inr ⟨hfits, if_neg hfits⟩

/-- The volumes are the exact ones if and only if every result on the way to them fits. -/
theorem cmd_vol_exact (v : Volumes) (hmax : 0 ≤ v.volumeMax) (first : Text)
    (second : Option Text) (hfirst : Accepted first) (hsecond : Accepted (second.getD first)) :
    cmdVol v first second = some (some (exactVolume first v.old.1 v.max,
      exactVolume (second.getD first) v.old.2 v.max)) ↔
      Fits first v.old.1 v.max ∧ Fits (second.getD first) v.old.2 v.max := by
  obtain ⟨hl, hparsed⟩ | ⟨hl, hparsed⟩ := parseVolArg_accepted hfirst
  · cases second with
    | none =>
      simp only [cmdVol, hparsed, Option.bind_eq_bind, Option.bind_some, Option.getD_none]
      rw [map_some_eq_iff, playerSetVol_eq_some_iff hmax hl hl]
    | some second =>
      simp only [cmdVol, hparsed, Option.bind_eq_bind, Option.bind_some, Option.getD_some]
      obtain ⟨hr, hparsedr⟩ | ⟨hr, hparsedr⟩ := parseVolArg_accepted hsecond
      · rw [Option.getD_some] at hr hparsedr
        simp only [hparsedr, Option.bind_some]
        rw [map_some_eq_iff, playerSetVol_eq_some_iff hmax hl hr]
      · rw [Option.getD_some] at hr hparsedr
        rw [hparsedr]
        exact iff_of_false (Option.some_ne_none _).symm fun h => hr h.2.number
  · simp only [cmdVol, hparsed, Option.bind_eq_bind, Option.bind_none]
    exact iff_of_false (Option.some_ne_none _).symm fun h => hl h.1.number

/-- A mixer with volumes up to 65536. -/
def mixer : Volumes := ⟨false, 100, 100, 32768, 32768, 65536⟩

theorem cmd_vol_exact_half :
    cmdVol mixer (ascii "50%") (some (ascii "-10%")) = some (some (32768, 26214)) := by
  have hvols : (exactVolume (ascii "50%") mixer.old.1 mixer.max,
      exactVolume (ascii "-10%") mixer.old.2 mixer.max) = (32768, 26214) := by decide +kernel
  rw [← hvols]
  exact (cmd_vol_exact mixer (by decide) (ascii "50%") (some (ascii "-10%")) (by decide)
    (by decide)).mpr ⟨⟨by decide, by decide, by decide⟩,
      ⟨by decide, by decide +kernel, by decide +kernel⟩⟩

theorem cmd_vol_overflow :
    0 ≤ mixer.volumeMax ∧ Accepted (ascii "40000%") ∧ cmdVol mixer (ascii "40000%") none ≠
      some (some (exactVolume (ascii "40000%") mixer.old.1 mixer.max,
        exactVolume (ascii "40000%") mixer.old.2 mixer.max)) := by
  refine ⟨by decide, by decide, ?_⟩
  rw [show cmdVol mixer (ascii "40000%") none = none by decide]
  exact (Option.some_ne_none _).symm

/-! ### Percentages of a volume -/

def scaleToPercentage (val maxVal : Int) : Option Int :=
  let half := maxVal.tdiv 2
  if maxVal ≤ 0 then some 100
  else
    (checked (val * 100)).bind fun product =>
      (checked (if val < 0 then product - half else product + half)).map fun n => n.tdiv maxVal

/-- What is expected of the percentages of a maximum. -/
structure Scales (maxVal : Int) : Prop where
  back : ∀ p, 0 ≤ p → p ≤ 100 →
    (scaleFromPercentage p maxVal).bind (scaleToPercentage · maxVal) = some p
  from_defined : ∀ p, 0 ≤ p → p ≤ 100 → (scaleFromPercentage p maxVal).isSome
  to_defined : ∀ val, 0 ≤ val → val ≤ maxVal → (scaleToPercentage val maxVal).isSome
  from_mono : ∀ a b, a ≤ b → ∀ x ∈ scaleFromPercentage a maxVal,
    ∀ y ∈ scaleFromPercentage b maxVal, x ≤ y
  to_mono : ∀ a b, a ≤ b → ∀ x ∈ scaleToPercentage a maxVal,
    ∀ y ∈ scaleToPercentage b maxVal, x ≤ y

section
variable {maxVal : Int}

/-- The numerator, with a half added away from zero. -/
theorem scaled_mono {a b scale half : Int} (hscale : 0 ≤ scale) (hhalf : 0 ≤ half) (hle : a ≤ b) :
    (if a < 0 then a * scale - half else a * scale + half) ≤
      if b < 0 then b * scale - half else b * scale + half := by
  have hmul : a * scale ≤ b * scale := Int.mul_le_mul_of_nonneg_right hle hscale
  split
  · split
    · omega
    · omega
  · rw [if_neg (by omega)]
    omega

theorem scaleFromPercentage_mem {val x : Int} (h : x ∈ scaleFromPercentage val maxVal) :
    x = (if val < 0 then val * maxVal - 50 else val * maxVal + 50).tdiv 100 := by
  obtain ⟨product, hproduct, h⟩ := Option.bind_eq_some_iff.mp h
  obtain ⟨n, hn, rfl⟩ := Option.map_eq_some_iff.mp h
  obtain ⟨-, rfl⟩ := checked_eq_some_iff.mp hproduct
  obtain ⟨-, rfl⟩ := checked_eq_some_iff.mp hn
  rfl

theorem scaleToPercentage_mem (hmax : 0 < maxVal) {val x : Int}
    (h : x ∈ scaleToPercentage val maxVal) :
    x = (if val < 0 then val * 100 - maxVal.tdiv 2 else val * 100 + maxVal.tdiv 2).tdiv maxVal := by
  have h : scaleToPercentage val maxVal = some x := h
  rw [scaleToPercentage, if_neg (Int.not_le.mpr hmax)] at h
  obtain ⟨product, hproduct, h⟩ := Option.bind_eq_some_iff.mp h
  obtain ⟨n, hn, rfl⟩ := Option.map_eq_some_iff.mp h
  obtain ⟨-, rfl⟩ := checked_eq_some_iff.mp hproduct
  obtain ⟨-, rfl⟩ := checked_eq_some_iff.mp hn
  rfl

theorem scaleFromPercentage_of_nonneg {p : Int} (hp : 0 ≤ p) (hmax : 0 ≤ maxVal) :
    scaleFromPercentage p maxVal =
      if p * maxVal + 50 ≤ intMax then some ((p * maxVal + 50) / 100) else none := by
  have hproduct : 0 ≤ p * maxVal := Int.mul_nonneg hp hmax
  unfold scaleFromPercentage
  simp only [if_neg (Int.not_lt.mpr hp)]
  generalize p * maxVal = product at hproduct
  by_cases hfits : product + 50 ≤ intMax
  · rw [if_pos hfits, checked_of_fits (by omega) (by omega), Option.bind_some,
      checked_of_fits (by omega) hfits, Option.map_some, Int.tdiv_eq_ediv_of_nonneg (by omega)]
  · rw [if_neg hfits]
    refine Option.bind_eq_none_iff.mpr fun n hn => ?_
    obtain ⟨-, rfl⟩ := checked_eq_some_iff.mp hn
    rw [show checked (product + 50) = none from if_neg fun h => hfits h.2]
    rfl

theorem scaleToPercentage_of_nonneg {val : Int} (hval : 0 ≤ val) (hmax : 0 < maxVal) :
    scaleToPercentage val maxVal =
      if val * 100 + maxVal / 2 ≤ intMax then some ((val * 100 + maxVal / 2) / maxVal)
      else none := by
  unfold scaleToPercentage
  simp only [if_neg (Int.not_le.mpr hmax), if_neg (Int.not_lt.mpr hval),
    Int.tdiv_eq_ediv_of_nonneg (Int.le_of_lt hmax)]
  by_cases hfits : val * 100 + maxVal / 2 ≤ intMax
  · rw [if_pos hfits, checked_of_fits (by omega) (by omega), Option.bind_some,
      checked_of_fits (by omega) hfits, Option.map_some, Int.tdiv_eq_ediv_of_nonneg (by omega)]
  · rw [if_neg hfits]
    refine Option.bind_eq_none_iff.mpr fun n hn => ?_
    obtain ⟨-, rfl⟩ := checked_eq_some_iff.mp hn
    rw [show checked (val * 100 + maxVal / 2) = none from if_neg fun h => hfits h.2]
    rfl

/-- The two roundings together are less than one percent of the maximum. -/
theorem percentage_back {p : Int} (hmax : 100 ≤ maxVal) :
    ((p * maxVal + 50) / 100 * 100 + maxVal / 2) / maxVal = p := by
  rcases Int.le_iff_eq_or_lt.mp hmax with rfl | hlt
  · omega
  · have hlow : p * maxVal ≤ (p * maxVal + 50) / 100 * 100 + maxVal / 2 := by omega
    have hhigh : (p * maxVal + 50) / 100 * 100 + maxVal / 2 < (p + 1) * maxVal := by
      rw [Int.add_mul]
      omega
    exact (Int.ediv_eq_iff_of_pos (by omega)).mpr ⟨hlow, by rw [Int.add_mul] at hhigh; omega⟩

/-- **Percentages come back** as long as the largest product with its half fits. -/
theorem scales_iff (hmax : 100 ≤ maxVal) (hint : maxVal ≤ intMax) :
    Scales maxVal ↔ 100 * maxVal + maxVal / 2 ≤ intMax := by
  constructor
  · intro h
    have hdefined := h.to_defined maxVal (by omega) (Int.le_refl _)
    rw [scaleToPercentage_of_nonneg (by omega) (by omega)] at hdefined
    by_contra hover
    rw [if_neg (by omega)] at hdefined
    cases hdefined
  · intro hfits
    have hproduct : ∀ {p}, 0 ≤ p → p ≤ 100 → p * maxVal + 50 ≤ intMax := fun {p} _ hp => by
      have hle : p * maxVal ≤ 100 * maxVal := Int.mul_le_mul_of_nonneg_right hp (by omega)
      omega
    have hfrom : ∀ {p}, 0 ≤ p → p ≤ 100 →
        scaleFromPercentage p maxVal = some ((p * maxVal + 50) / 100) := fun hp hle => by
      rw [scaleFromPercentage_of_nonneg hp (by omega), if_pos (hproduct hp hle)]
    have hto : ∀ {val}, 0 ≤ val → val ≤ maxVal →
        scaleToPercentage val maxVal = some ((val * 100 + maxVal / 2) / maxVal) := fun hval hle => by
      rw [scaleToPercentage_of_nonneg hval (by omega), if_pos (by omega)]
    refine ⟨fun p hp hle => ?_, fun p hp hle => ?_, fun val hval hle => ?_,
      fun a b hab x hx y hy => ?_, fun a b hab x hx y hy => ?_⟩
    · have hnonneg : 0 ≤ p * maxVal := Int.mul_nonneg hp (by omega)
      have hshare : p * maxVal ≤ 100 * maxVal := Int.mul_le_mul_of_nonneg_right hle (by omega)
      rw [hfrom hp hle, Option.bind_some, hto (by omega) (by omega), percentage_back hmax]
    · rw [hfrom hp hle]
      rfl
    · rw [hto hval hle]
      rfl
    · rw [scaleFromPercentage_mem hx, scaleFromPercentage_mem hy]
      exact Int.tdiv_le_tdiv (by decide) (scaled_mono (by omega) (by decide) hab)
    · rw [scaleToPercentage_mem (by omega) hx, scaleToPercentage_mem (by omega) hy]
      refine Int.tdiv_le_tdiv (by omega) (scaled_mono (by decide) ?_ hab)
      rw [Int.tdiv_eq_ediv_of_nonneg (by omega)]
      omega

theorem scales_mixer : Scales mixer.volumeMax :=
  (scales_iff (by decide) (by decide)).mpr (by decide)

/-- A mixer element with volumes up to 2^25 has no volume for all of it. -/
theorem scales_overflow :
    (100 : Int) ≤ 2 ^ 25 ∧ (2 : Int) ^ 25 ≤ intMax ∧ scaleFromPercentage 100 (2 ^ 25) = none ∧
      ¬ Scales (2 ^ 25) :=
  ⟨by decide, by decide, by decide, fun h => absurd (h.from_defined 100 (by decide) (by decide))
    (by decide)⟩

end

end GracefulMusic.Volume
