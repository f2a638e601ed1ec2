import Mathlib.Tactic.Ring
import GracefulMusic.Text
import GracefulMusic.Paths

/-! What URLs are put together from: the part behind the last slash (`strrchr`), and numbers
in decimal, printed (`%d`) and read back (`str_to_int`). -/
namespace GracefulMusic

/-- What is in front of the last slash, and behind it (`strrchr`). -/
def splitSlash : Text → Option (Text × Text)
  | [] => none
  | c :: rest =>
    match splitSlash rest with
    | some (front, behind) => some (c :: front, behind)
    | none => if c = slash then some ([], rest) else none

theorem splitSlash_none {t : Text} (ht : slash ∉ t) : splitSlash t = none := by
  induction t with
  | nil => rfl
  | cons c t ih =>
    have hc : c ≠ slash := fun h => ht (h ▸ List.mem_cons_self)
    rw [splitSlash, ih fun h => ht (List.mem_cons_of_mem c h)]
    exact if_neg hc

theorem notMem_of_splitSlash {t : Text} (h : splitSlash t = none) : slash ∉ t := by
  induction t with
  | nil => exact List.not_mem_nil
  | cons c t ih =>
    rw [splitSlash] at h
    split at h
    · cases h
    · rename_i hnone
      split at h
      · cases h
      · rename_i hc
        exact List.not_mem_cons_of_ne_of_not_mem (Ne.symm hc) (ih hnone)

/-- What is behind the last slash has none. -/
theorem splitSlash_behind {t front behind : Text} (h : splitSlash t = some (front, behind)) :
    slash ∉ behind := by
  induction t generalizing front with
  | nil => cases h
  | cons c t ih =>
    rw [splitSlash] at h
    split at h
    · rename_i hrest
      cases h
      exact ih hrest
    · rename_i hnone
      split at h
      · cases h
        exact notMem_of_splitSlash hnone
      · cases h

theorem splitSlash_append (discId : Text) {t : Text} (ht : slash ∉ t) :
    splitSlash (discId ++ slash :: t) = some (discId, t) := by
  induction discId with
  | nil =>
    rw [List.nil_append, splitSlash, splitSlash_none ht]
    exact if_pos rfl
  | cons c discId ih =>
    rw [List.cons_append, splitSlash, ih]

theorem splitSlash_eq {t front behind : Text} (h : splitSlash t = some (front, behind)) :
    t = front ++ slash :: behind := by
  induction t generalizing front with
  | nil => cases h
  | cons c t ih =>
    rw [splitSlash] at h
    cases ht : splitSlash t with
    | none =>
      rw [ht] at h
      dsimp only at h
      split at h
      · rename_i hc
        cases h
        rw [hc, List.nil_append]
      · cases h
    | some pair =>
      obtain ⟨front', behind'⟩ := pair
      rw [ht] at h
      cases h
      rw [List.cons_append, ← ih ht]

theorem splitSlash_length {t front behind : Text} (h : splitSlash t = some (front, behind)) :
    front.length < t.length := by
  induction t generalizing front with
  | nil => cases h
  | cons c t ih =>
    rw [splitSlash] at h
    cases ht : splitSlash t with
    | none =>
      rw [ht] at h
      dsimp only at h
      split at h
      · cases h
        exact Nat.succ_pos _
      · cases h
    | some pair =>
      obtain ⟨front', behind'⟩ := pair
      rw [ht] at h
      cases h
      exact Nat.succ_lt_succ (ih ht)

/-! ### Numbers -/

def decimal (n : Nat) : Text := (Nat.toDigits 10 n).map ch

/-- `%d`. -/
def printInt (x : Int) : Text := if x < 0 then ch '-' :: decimal x.natAbs else decimal x.natAbs

theorem decimal_ne_nil (n : Nat) : decimal n ≠ [] := by
  intro h
  exact Nat.toDigits_ne_nil (List.map_eq_nil_iff.mp h)

theorem decimal_step {n : Nat} (h : 10 ≤ n) :
    decimal n = decimal (n / 10) ++ [ch (Nat.digitChar (n % 10))] := by
  rw [decimal, Nat.toDigits_of_base_le (by decide) h, List.map_append]
  rfl

theorem digitChar_byte {d : Nat} (h : d < 10) :
    isDigit (ch d.digitChar) = true ∧ (ch d.digitChar - ch '0').toNat = d := by
  have hall : ∀ d : Fin 10, isDigit (ch (Nat.digitChar d)) = true ∧
      (ch (Nat.digitChar d) - ch '0').toNat = d := by decide
  exact hall ⟨d, h⟩

theorem digitsValue_append (s t : Text) :
    digitsValue (s ++ t) = digitsValue s * 10 ^ t.length + digitsValue t := by
  have hfold : ∀ n, t.foldl (fun n c => 10 * n + (c - ch '0').toNat) n =
      n * 10 ^ t.length + digitsValue t := by
    induction t with
    | nil =>
      intro n
      simp [digitsValue]
    | cons c t ih =>
      intro n
      have hvalue : digitsValue (c :: t) = (c - ch '0').toNat * 10 ^ t.length + digitsValue t := by
        rw [digitsValue, List.foldl_cons, ih]
        simp
      rw [List.foldl_cons, ih, hvalue, List.length_cons, pow_succ]
      ring
  rw [digitsValue, List.foldl_append, hfold]
  rfl

theorem decimal_value (n : Nat) :
    digitsValue (decimal n) = n ∧ ∀ c ∈ decimal n, isDigit c = true := by
  induction n using Nat.strong_induction_on with
  | _ n ih =>
    have hlast := digitChar_byte (Nat.mod_lt n (show 0 < 10 by decide))
    by_cases h : n < 10
    · have hsingle : decimal n = [ch n.digitChar] := by
        rw [decimal, Nat.toDigits_of_lt_base h]
        rfl
      have hbyte := digitChar_byte h
      rw [hsingle]
      constructor
      · simpa [digitsValue] using hbyte.2
      · intro c hc
        rw [List.mem_singleton.mp hc]
        exact hbyte.1
    · obtain ⟨hvalue, hdigits⟩ := ih (n / 10) (by omega)
      rw [decimal_step (by omega)]
      constructor
      · have hdigit : digitsValue [ch (Nat.digitChar (n % 10))] = n % 10 := by
          simpa [digitsValue] using hlast.2
        rw [digitsValue_append, hvalue, hdigit, List.length_singleton, pow_one]
        omega
      · intro c hc
        obtain hc | hc := List.mem_append.mp hc
        · exact hdigits c hc
        · rw [List.mem_singleton.mp hc]
          exact hlast.1

theorem digitsValue_decimal (n : Nat) : digitsValue (decimal n) = n := (decimal_value n).1

theorem decimal_digits {n : Nat} {c : UInt8} (hc : c ∈ decimal n) : isDigit c = true :=
  (decimal_value n).2 c hc

theorem decimal_length_mono {m n : Nat} (h : m ≤ n) : (decimal m).length ≤ (decimal n).length := by
  have hlength (k : Nat) : (decimal k).length = (Nat.toDigits 10 k).length := by
    rw [decimal, List.length_map]
  rw [hlength, hlength, Nat.length_toDigits_le_iff (by decide) Nat.length_toDigits_pos]
  have hn := (Nat.length_toDigits_le_iff (show 1 < 10 by decide)
    (Nat.length_toDigits_pos (b := 10) (n := n))).mp (Nat.le_refl (Nat.toDigits 10 n).length)
  omega

/-- A part of a number from its front is a smaller number. -/
theorem digitsValue_lt (front rest : Text) (hrest : rest ≠ [])
    (hpos : 0 < digitsValue (front ++ rest)) :
    digitsValue front < digitsValue (front ++ rest) := by
  rw [digitsValue_append] at hpos ⊢
  have hpow : 1 < 10 ^ rest.length :=
    Nat.one_lt_pow (by simpa using hrest) (by decide)
  by_cases hfront : digitsValue front = 0
  · omega
  · have hgrow : digitsValue front * 2 ≤ digitsValue front * 10 ^ rest.length :=
      Nat.mul_le_mul_left _ hpow
    omega

theorem digit_facts {c : UInt8} (hc : isDigit c = true) :
    isSpace c = false ∧ c ≠ ch '-' ∧ c ≠ ch '+' ∧ c ≠ ch '/' := by
  revert hc
  exact forall_byte (P := fun c => isDigit c = true →
    isSpace c = false ∧ c ≠ ch '-' ∧ c ≠ ch '+' ∧ c ≠ ch '/') (by decide +kernel) c

theorem strToInt_digits {t : Text} (hne : t ≠ []) (ht : ∀ c ∈ t, isDigit c = true) :
    strToInt t = (min (2 ^ 63 - 1) (digitsValue t : Int), true) := by
  have htake : t.takeWhile isDigit = t := List.takeWhile_eq_self_iff.mpr ht
  have hdrop : t.dropWhile isDigit = [] := List.dropWhile_eq_nil_iff.mpr ht
  have hspace : t.dropWhile isSpace = t := by
    cases t with
    | nil => rfl
    | cons c t =>
      rw [List.dropWhile_cons, (digit_facts (ht c List.mem_cons_self)).1]
      rfl
  have hsigns : strtol t = (min (2 ^ 63 - 1) (digitsValue t : Int), []) := by
    cases t with
    | nil => exact absurd rfl hne
    | cons c t =>
      obtain ⟨-, hminus, hplus, -⟩ := digit_facts (ht c List.mem_cons_self)
      have hvalue : max (-2 ^ 63) (min (2 ^ 63 - 1) (digitsValue (c :: t) : Int)) =
          min (2 ^ 63 - 1) (digitsValue (c :: t) : Int) := by omega
      simp only [strtol, hspace, if_neg hminus, if_neg hplus, htake, hdrop, if_neg hne,
        Bool.false_eq_true, if_false, hvalue]
  rw [strToInt, hsigns]
  simp [hne]

/-- A number whose end is cut off reads as a smaller one. -/
theorem strToInt_take {x : Int} (hx : x ≤ intMax) {k : Nat} (hk : k < (decimal x.natAbs).length)
    (hpos : 1 ≤ x) (hne : (decimal x.natAbs).take k ≠ []) :
    ∃ y : Nat, (y : Int) < x ∧ strToInt ((decimal x.natAbs).take k) = ((y : Int), true) := by
  have hsplit : digitsValue ((decimal x.natAbs).take k ++ (decimal x.natAbs).drop k) =
      x.natAbs := by rw [List.take_append_drop, digitsValue_decimal]
  have hcut := digitsValue_lt ((decimal x.natAbs).take k) ((decimal x.natAbs).drop k)
    (by simpa using hk) (by omega)
  have hmin : min (2 ^ 63 - 1) (digitsValue ((decimal x.natAbs).take k) : Int) =
      digitsValue ((decimal x.natAbs).take k) := by
    unfold intMax at hx
    omega
  refine ⟨digitsValue ((decimal x.natAbs).take k), by omega, ?_⟩
  rw [strToInt_digits hne fun c hc => decimal_digits (List.mem_of_mem_take hc), hmin]

theorem strToInt_decimal {x : Int} (hpos : 0 ≤ x) (hmax : x ≤ intMax) :
    strToInt (decimal x.natAbs) = (x, true) := by
  have hvalue : (digitsValue (decimal x.natAbs) : Int) = x := by
    rw [digitsValue_decimal]
    exact Int.natAbs_of_nonneg hpos
  have hmin : min (2 ^ 63 - 1) x = x := by
    unfold intMax at hmax
    omega
  rw [strToInt_digits (decimal_ne_nil _) (fun _ => decimal_digits), hvalue, hmin]

theorem slash_not_mem {t : Text} (ht : ∀ c ∈ t, isDigit c = true) : slash ∉ t :=
  fun h => (digit_facts (ht slash h)).2.2.2 rfl

theorem printInt_pos {x : Int} (hx : 0 ≤ x) : printInt x = decimal x.natAbs :=
  if_neg (Int.not_lt.mpr hx)

end GracefulMusic
