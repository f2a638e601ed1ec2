import GracefulMusic.Uchar.Boundaries
import GracefulMusic.Uchar.Glyphs

/-! Which strings are valid, and which are read without invalid characters (`uchar.c`).

`u_get_char` takes a sequence of the right form for a character whatever its value is, where
`u_is_valid` tells off the ones that are spelt too long or are no unicode. -/
namespace GracefulMusic

/-- A byte that is no character of its own. -/
def Stray (g : Text) : Prop := ∃ c, g = [c] ∧ 128 ≤ c.toNat

/-- A sequence for a value that a shorter one has, or that is above `0x10ffff`. -/
def OutOfRange (g : Text) : Prop :=
  ∃ c d rest, g = c :: d :: rest ∧
    (c.toNat < 0xc2 ∨ c.toNat = 0xe0 ∧ d.toNat < 0xa0 ∨ c.toNat = 0xf0 ∧ d.toNat < 0x90 ∨
      c.toNat = 0xf4 ∧ 0x90 ≤ d.toNat)

/-! ### Values -/

theorem tail_bits : ∀ c : UInt8, ((c &&& 0x3f).toUInt32).toNat = c.toNat % 64 :=
  forall_byte (by decide +kernel)

theorem lenTab_tail : ∀ c : UInt8, lenTab c = 0 → 128 ≤ c.toNat ∧ c.toNat < 192 :=
  forall_byte (by decide +kernel)

theorem shift_bits {u : Uchar} (hu : u.toNat < 2 ^ 26) (c : UInt8) :
    ((u <<< 6) ||| (c &&& 0x3f).toUInt32).toNat = u.toNat * 64 + c.toNat % 64 := by
  have hshift : (u <<< 6).toNat = u.toNat <<< 6 := by
    rw [UInt32.toNat_shiftLeft, Nat.shiftLeft_eq, Nat.shiftLeft_eq]
    show u.toNat * 2 ^ 6 % 2 ^ 32 = u.toNat * 2 ^ 6
    exact Nat.mod_eq_of_lt (by omega)
  have hlow : c.toNat % 64 < 2 ^ 6 := Nat.mod_lt _ (by decide)
  rw [UInt32.toNat_or, hshift, tail_bits, ← Nat.shiftLeft_add_eq_or_of_lt hlow, Nat.shiftLeft_eq]

/-- The value of a sequence that goes on with some bytes. -/
def tailVal (u : Nat) (cs : Text) : Nat := cs.foldl (fun u c => u * 64 + c.toNat % 64) u

theorem continuation_val {u : Uchar} {cs : Text} (hcs : ∀ d ∈ cs, lenTab d = 0)
    (hu : (u.toNat + 1) * 64 ^ cs.length ≤ 2 ^ 32) (rest : Text) :
    ∃ v, continuation cs.length u (cs ++ rest) = some (v, rest) ∧ v.toNat = tailVal u.toNat cs := by
  induction cs generalizing u with
  | nil => exact ⟨u, rfl, rfl⟩
  | cons c cs ih =>
    rw [List.length_cons, Nat.pow_succ', ← Nat.mul_assoc] at hu
    have hpow : 0 < 64 ^ cs.length := Nat.pow_pos (by decide)
    have hsmall : (u.toNat + 1) * 64 ≤ 2 ^ 32 :=
      Nat.le_trans (Nat.le_mul_of_pos_right _ hpow) hu
    have hval := shift_bits (u := u) (by omega) c
    have hnext : (((u <<< 6) ||| (c &&& 0x3f).toUInt32).toNat + 1) * 64 ^ cs.length ≤ 2 ^ 32 := by
      refine Nat.le_trans (Nat.mul_le_mul_right _ ?_) hu
      rw [hval]
      omega
    obtain ⟨v, hv, hnat⟩ := ih (fun d hd => hcs d (List.mem_cons_of_mem c hd)) hnext
    refine ⟨v, ?_, ?_⟩
    · rw [List.cons_append, List.length_cons, continuation,
        if_neg (not_not.mpr (hcs c List.mem_cons_self)), hv]
    · rw [hnat, hval]
      rfl

theorem first_bits_two : ∀ c : UInt8, lenTab c = 2 →
    192 ≤ c.toNat ∧ c.toNat < 224 ∧ ((c &&& firstByteMask 2).toUInt32).toNat = c.toNat - 192 :=
  forall_byte (by decide +kernel)

theorem first_bits_three : ∀ c : UInt8, lenTab c = 3 →
    224 ≤ c.toNat ∧ c.toNat < 240 ∧ ((c &&& firstByteMask 3).toUInt32).toNat = c.toNat - 224 :=
  forall_byte (by decide +kernel)

theorem first_bits_four : ∀ c : UInt8, lenTab c = 4 →
    240 ≤ c.toNat ∧ c.toNat < 245 ∧ ((c &&& firstByteMask 4).toUInt32).toNat = c.toNat - 240 :=
  forall_byte (by decide +kernel)

/-- The value of a whole sequence, and which ones are refused. -/
theorem sequence_val {c : UInt8} {cs : Text} (hlong : 1 < lenTab c)
    (hlen : lenTab c = cs.length + 1) (hcs : ∀ d ∈ cs, lenTab d = 0) (rest : Text) :
    ∃ v, continuation cs.length (c &&& firstByteMask (cs.length + 1)).toUInt32 (cs ++ rest) =
        some (v, rest) ∧ v.toNat < 2 ^ 28 ∧
      ((v < minVal (cs.length + 1) ∨ v > maxVal (cs.length + 1)) ↔ OutOfRange (c :: cs)) := by
  have hle := lenTab_le c
  have hout (d : UInt8) (more : Text) : OutOfRange (c :: d :: more) ↔
      c.toNat < 0xc2 ∨ c.toNat = 0xe0 ∧ d.toNat < 0xa0 ∨ c.toNat = 0xf0 ∧ d.toNat < 0x90 ∨
        c.toNat = 0xf4 ∧ 0x90 ≤ d.toNat := by
    constructor
    · intro h
      obtain ⟨c', d', rest', heq, hrange⟩ := h
      cases heq
      exact hrange
    · exact fun h => ⟨c, d, more, rfl, h⟩
  obtain _ | ⟨d, _ | ⟨e, _ | ⟨f, _ | ⟨g, more⟩⟩⟩⟩ := cs
  · exact absurd hlong (by rw [hlen]; decide)
  · obtain ⟨hlow, hhigh, hfirst⟩ := first_bits_two c hlen
    obtain ⟨v, hv, hnat⟩ := continuation_val (u := (c &&& firstByteMask 2).toUInt32) hcs
      (by rw [hfirst]; simp only [List.length_cons, List.length_nil]; omega) rest
    have hd := lenTab_tail d (hcs d List.mem_cons_self)
    have hval : v.toNat = (c.toNat - 192) * 64 + d.toNat % 64 := by rw [hnat, hfirst]; rfl
    refine ⟨v, hv, by omega, ?_⟩
    rw [hout, gt_iff_lt, UInt32.lt_iff_toNat_lt, UInt32.lt_iff_toNat_lt]
    show v.toNat < 0x80 ∨ 0x7ff < v.toNat ↔ _
    omega
  · obtain ⟨hlow, hhigh, hfirst⟩ := first_bits_three c hlen
    obtain ⟨v, hv, hnat⟩ := continuation_val (u := (c &&& firstByteMask 3).toUInt32) hcs
      (by rw [hfirst]; simp only [List.length_cons, List.length_nil]; omega) rest
    have hd := lenTab_tail d (hcs d List.mem_cons_self)
    have hval : v.toNat = ((c.toNat - 224) * 64 + d.toNat % 64) * 64 + e.toNat % 64 := by
      rw [hnat, hfirst]; rfl
    refine ⟨v, hv, by omega, ?_⟩
    rw [hout, gt_iff_lt, UInt32.lt_iff_toNat_lt, UInt32.lt_iff_toNat_lt]
    show v.toNat < 0x800 ∨ 0xffff < v.toNat ↔ _
    omega
  · obtain ⟨hlow, hhigh, hfirst⟩ := first_bits_four c hlen
    obtain ⟨v, hv, hnat⟩ := continuation_val (u := (c &&& firstByteMask 4).toUInt32) hcs
      (by rw [hfirst]; simp only [List.length_cons, List.length_nil]; omega) rest
    have hd := lenTab_tail d (hcs d List.mem_cons_self)
    have hval : v.toNat =
        (((c.toNat - 240) * 64 + d.toNat % 64) * 64 + e.toNat % 64) * 64 + f.toNat % 64 := by
      rw [hnat, hfirst]; rfl
    refine ⟨v, hv, by omega, ?_⟩
    rw [hout, gt_iff_lt, UInt32.lt_iff_toNat_lt, UInt32.lt_iff_toNat_lt]
    show v.toNat < 0x10000 ∨ 0x10ffff < v.toNat ↔ _
    omega
  · rw [List.length_cons, List.length_cons, List.length_cons, List.length_cons] at hlen
    omega

theorem continuation_lt {n : Nat} {u v : Uchar} {s rest : Text}
    (h : continuation n u s = some (v, rest)) (hu : (u.toNat + 1) * 64 ^ n ≤ 2 ^ 32) :
    v.toNat < (u.toNat + 1) * 64 ^ n := by
  induction n generalizing u s with
  | zero =>
    cases h
    rw [Nat.pow_zero, Nat.mul_one]
    exact Nat.lt_succ_self _
  | succ n ih =>
    rw [Nat.pow_succ', ← Nat.mul_assoc] at hu ⊢
    cases s with
    | nil => cases h
    | cons c s =>
      rw [continuation] at h
      split at h
      · cases h
      have hpow : 0 < 64 ^ n := Nat.pow_pos (by decide)
      have hsmall : (u.toNat + 1) * 64 ≤ 2 ^ 32 :=
        Nat.le_trans (Nat.le_mul_of_pos_right _ hpow) hu
      have hval := shift_bits (u := u) (by omega) c
      have hstep : ((u <<< 6) ||| (c &&& 0x3f).toUInt32).toNat + 1 ≤ (u.toNat + 1) * 64 := by
        rw [hval]
        omega
      have hle := Nat.mul_le_mul_right (64 ^ n) hstep
      exact Nat.lt_of_lt_of_le (ih h (Nat.le_trans hle hu)) hle

/-- No character is shorter than its shortest sequence. -/
theorem uGetChar_size {s : Text} {idx next : Nat} {u : Uchar}
    (h : uGetChar s idx = some (u, next)) (hu : u ≤ 0x10ffff) : uCharSize u ≤ next - idx := by
  have hone : u.toNat ≤ 0x7f → uCharSize u = 1 := fun hle =>
    if_pos (UInt32.le_iff_toNat_le.mpr hle)
  have htwo : u.toNat ≤ 0x7ff → uCharSize u ≤ 2 := by
    intro hle
    rw [uCharSize]
    split
    · decide
    rw [if_pos (UInt32.le_iff_toNat_le.mpr hle)]
  have hthree : u.toNat ≤ 0xffff → uCharSize u ≤ 3 := by
    intro hle
    rw [uCharSize]
    split
    · decide
    split
    · decide
    rw [if_pos (UInt32.le_iff_toNat_le.mpr hle)]
  have hmask : ∀ c : UInt8, ¬ c.toUInt32 ||| uInvalidMask ≤ 0x10ffff :=
    forall_byte (by decide +kernel)
  have hascii : ∀ c : UInt8, c < 128 → c.toUInt32.toNat ≤ 0x7f :=
    forall_byte (by decide +kernel)
  rw [uGetChar] at h
  split at h
  · cases h
    rw [hone (by decide)]
    omega
  split at h
  · cases h
  rename_i c rest hdrop
  dsimp only at h
  split at h
  · next hc =>
    cases h
    rw [hone (hascii c hc)]
    omega
  split at h
  · cases h
    exact absurd hu (hmask c)
  rename_i hc hlen
  split at h
  · cases h
    exact absurd hu (hmask c)
  · rename_i v rest' hcont
    cases h
    have hle := lenTab_le c
    have hne : lenTab c ≠ 1 := fun h => hc ((lenTab_eq_one c).mp h)
    obtain hl | hl | hl : lenTab c = 2 ∨ lenTab c = 3 ∨ lenTab c = 4 := by omega
    · obtain ⟨hlow, hhigh, hfirst⟩ := first_bits_two c hl
      rw [hl] at hcont
      have hlt := continuation_lt hcont (by rw [show Int.toNat 2 = 2 from rfl, hfirst]; omega)
      rw [show Int.toNat 2 = 2 from rfl, hfirst] at hlt
      have hsize := htwo (by omega)
      rw [hl]
      omega
    · obtain ⟨hlow, hhigh, hfirst⟩ := first_bits_three c hl
      rw [hl] at hcont
      have hlt := continuation_lt hcont (by rw [show Int.toNat 3 = 3 from rfl, hfirst]; omega)
      rw [show Int.toNat 3 = 3 from rfl, hfirst] at hlt
      have hsize := hthree (by omega)
      rw [hl]
      omega
    · have hsize := uCharSize_le u
      rw [hl]
      omega

theorem stray_single {c : UInt8} : Stray [c] ↔ ¬ c < 128 := by
  rw [UInt8.not_lt, UInt8.le_iff_toNat_le]
  refine ⟨fun h => ?_, fun h => ⟨c, rfl, h⟩⟩
  obtain ⟨c', heq, hle⟩ := h
  cases heq
  exact hle

theorem not_stray {c : UInt8} {cs : Text} (hlong : 1 < lenTab c)
    (hlen : lenTab c = cs.length + 1) : ¬ Stray (c :: cs) := by
  intro h
  obtain ⟨c', heq, -⟩ := h
  cases heq
  rw [hlen] at hlong
  exact absurd hlong (by decide)

/-- A first byte that does not get the bytes it asks for. -/
theorem continuation_none {c : UInt8} {rest : Text}
    (hc : ¬ (1 < lenTab c ∧ continues ((lenTab c).toNat - 1) rest = true)) (hlong : 1 < lenTab c) :
    continuation ((lenTab c).toNat - 1) (c &&& firstByteMask (lenTab c).toNat).toUInt32 rest =
      none := by
  rw [← Option.not_isSome_iff_eq_none, continuation_isSome]
  exact fun hcont => hc ⟨hlong, hcont⟩

/-! ### The validator -/

/-- One round takes a character, and goes on if it is a good one. -/
theorem uIsValidLoop_char {g rest : Text} (h : IsChar g rest) (fuel : Nat) :
    uIsValidLoop (fuel + 1) (g ++ rest) = true ↔
      (¬ Stray g ∧ ¬ OutOfRange g) ∧ uIsValidLoop fuel rest = true := by
  obtain ⟨c, rfl, hc⟩ | ⟨c, s, rfl, hlong, hlen, hs⟩ := isChar_cases h
  · have hrange : ¬ OutOfRange [c] := nofun
    rw [and_iff_left hrange, stray_single, not_not, List.singleton_append]
    conv => lhs; unfold uIsValidLoop
    dsimp only
    by_cases hascii : c < 128
    · rw [(lenTab_eq_one c).mpr hascii, if_neg (by decide), if_pos rfl, and_iff_right hascii]
    · have hone : lenTab c ≠ 1 := fun h => hascii ((lenTab_eq_one c).mp h)
      refine iff_of_false ?_ fun h => hascii h.1
      by_cases hpos : lenTab c ≤ 0
      · rw [if_pos hpos]
        exact Bool.false_ne_true
      · rw [if_neg hpos, if_neg hone, continuation_none hc (by omega)]
        exact Bool.false_ne_true
  · obtain ⟨v, hv, -, hrange⟩ := sequence_val hlong hlen hs rest
    have hstray := not_stray hlong hlen
    have hnat : (lenTab c).toNat = s.length + 1 := by omega
    rw [and_iff_right hstray, ← hrange, List.cons_append]
    conv => lhs; unfold uIsValidLoop
    dsimp only
    rw [if_neg (by omega), if_neg (by omega), hnat, Nat.add_sub_cancel, hv]
    dsimp only
    by_cases hbad : v < minVal (s.length + 1) ∨ v > maxVal (s.length + 1)
    · rw [if_pos (by simpa using hbad)]
      exact iff_of_false Bool.false_ne_true fun h => h.1 hbad
    · rw [if_neg (by simpa using hbad), and_iff_right hbad]

theorem uIsValidLoop_decoded {l : List Text} (hl : Decoded l) {fuel : Nat}
    (hfuel : l.flatten.length ≤ fuel) :
    uIsValidLoop fuel l.flatten = true ↔ ∀ g ∈ l, ¬ Stray g ∧ ¬ OutOfRange g := by
  induction l generalizing fuel with
  | nil =>
    refine iff_of_true ?_ (List.forall_mem_nil _)
    cases fuel <;> rfl
  | cons g l ih =>
    obtain ⟨hg, hl⟩ := hl
    have hpos := List.length_pos_iff.mpr hg.1
    rw [List.flatten_cons, List.length_append] at hfuel
    obtain ⟨fuel, rfl⟩ : ∃ k, fuel = k + 1 := ⟨fuel - 1, by omega⟩
    rw [List.flatten_cons, uIsValidLoop_char hg, List.forall_mem_cons, ih hl (by omega)]

/-- A string is valid if each of its characters is spelt as it should be. -/
theorem uIsValid_iff (s : Text) :
    uIsValid s = true ↔ ∀ g ∈ characters s, ¬ Stray g ∧ ¬ OutOfRange g := by
  have hloop := uIsValidLoop_decoded (characters_decoded s) (Nat.le_refl _)
  rwa [characters_flatten] at hloop

/-! ### The decoder -/

/-- A character that `u_get_char` comes by from the start of a string on. -/
structure Reads (s : Text) (u : Uchar) : Prop where
  step : ∃ n idx next, charIndex s n = some idx ∧ idx < s.length ∧ uGetChar s idx = some (u, next)

theorem masked_byte : ∀ c : UInt8, (c.toUInt32 ||| uInvalidMask) &&& uInvalidMask ≠ 0 :=
  forall_byte (by decide +kernel)

theorem unmasked_ascii : ∀ c : UInt8, c.toUInt32 &&& uInvalidMask = 0 :=
  forall_byte (by decide +kernel)

theorem unmasked_small {v : Uchar} (h : v.toNat < 2 ^ 28) : v &&& uInvalidMask = 0 := by
  rw [← UInt32.toNat_inj, UInt32.toNat_and]
  show v.toNat &&& 2 ^ 28 = 0
  apply Nat.eq_of_testBit_eq
  intro i
  rw [Nat.testBit_and, Nat.testBit_two_pow, Nat.zero_testBit]
  by_cases hi : 28 = i
  · subst hi
    rw [Nat.testBit_lt_two_pow h, Bool.false_and]
  · rw [decide_eq_false hi, Bool.and_false]

/-- Only a byte that is no character of its own is marked. -/
theorem uGetChar_masked {g rest : Text} (h : IsChar g rest) (front : Text) :
    ∃ u, uGetChar (front ++ (g ++ rest)) front.length = some (u, front.length + g.length) ∧
      (u &&& uInvalidMask ≠ 0 ↔ Stray g) := by
  have hpos := List.length_pos_iff.mpr h.1
  have hend : front.length ≠ (front ++ (g ++ rest)).length := by
    rw [List.length_append, List.length_append]
    omega
  rw [uGetChar, if_neg hend, List.drop_left]
  obtain ⟨c, rfl, hc⟩ | ⟨c, s, rfl, hlong, hlen, hs⟩ := isChar_cases h
  · rw [List.singleton_append]
    dsimp only
    by_cases hascii : c < 128
    · rw [if_pos hascii]
      exact ⟨_, rfl, iff_of_false (not_not.mpr (unmasked_ascii c))
        fun h => stray_single.mp h hascii⟩
    · refine ⟨c.toUInt32 ||| uInvalidMask, ?_,
        iff_of_true (masked_byte c) (stray_single.mpr hascii)⟩
      have hone : lenTab c ≠ 1 := fun h => hascii ((lenTab_eq_one c).mp h)
      rw [if_neg hascii]
      by_cases hpos : lenTab c < 1
      · rw [if_pos hpos]
        rfl
      · rw [if_neg hpos, continuation_none hc (by omega)]
        rfl
  · obtain ⟨v, hv, hsmall, -⟩ := sequence_val hlong hlen hs rest
    have hascii : ¬ c < 128 := by
      intro hlt
      have hone := (lenTab_eq_one c).mpr hlt
      omega
    have hnat : (lenTab c).toNat = s.length + 1 := by omega
    refine ⟨v, ?_, iff_of_false (not_not.mpr (unmasked_small hsmall)) (not_stray hlong hlen)⟩
    rw [List.cons_append]
    dsimp only
    rw [if_neg hascii, if_neg (by omega), hnat, Nat.add_sub_cancel, hv]
    rfl

theorem uCharSize_between {n : Nat} {v : Uchar} (hlong : 1 < n) (hle : n ≤ 4)
    (hlow : minVal n ≤ v) (hhigh : v ≤ maxVal n) : v ≤ 0x10ffff ∧ uCharSize v = n := by
  have habove {a : Uchar} (h : a < minVal n) : ¬ v ≤ a :=
    UInt32.not_le.mpr (UInt32.lt_of_lt_of_le h hlow)
  have hbelow {a : Uchar} (h : maxVal n ≤ a) : v ≤ a := UInt32.le_trans hhigh h
  obtain rfl | rfl | rfl : n = 2 ∨ n = 3 ∨ n = 4 := by omega
  · refine ⟨hbelow (by decide), ?_⟩
    rw [uCharSize, if_neg (habove (by decide)), if_pos (hbelow (by decide))]
  · refine ⟨hbelow (by decide), ?_⟩
    rw [uCharSize, if_neg (habove (by decide)), if_neg (habove (by decide)),
      if_pos (hbelow (by decide))]
  · refine ⟨hbelow (by decide), ?_⟩
    rw [uCharSize, if_neg (habove (by decide)), if_neg (habove (by decide)),
      if_neg (habove (by decide)), if_pos (hbelow (by decide))]

/-- A character that is spelt as it should be has the size that it would be written in. -/
theorem uGetChar_valid {g rest : Text} (h : IsChar g rest) (hstray : ¬ Stray g)
    (hrange : ¬ OutOfRange g) (front : Text) :
    ∃ u, uGetChar (front ++ (g ++ rest)) front.length = some (u, front.length + g.length) ∧
      u ≤ 0x10ffff ∧ uCharSize u = g.length := by
  have hpos := List.length_pos_iff.mpr h.1
  have hend : front.length ≠ (front ++ (g ++ rest)).length := by
    rw [List.length_append, List.length_append]
    omega
  rw [uGetChar, if_neg hend, List.drop_left]
  obtain ⟨c, rfl, hc⟩ | ⟨c, s, rfl, hlong, hlen, hs⟩ := isChar_cases h
  · have hascii : c < 128 := not_not.mp fun hc => hstray (stray_single.mpr hc)
    have hsmall : ∀ c : UInt8, c < 128 → c.toUInt32 ≤ 0x7f := forall_byte (by decide +kernel)
    rw [List.singleton_append]
    dsimp only
    rw [if_pos hascii]
    exact ⟨_, rfl, UInt32.le_trans (hsmall c hascii) (by decide), if_pos (hsmall c hascii)⟩
  · obtain ⟨v, hv, -, hout⟩ := sequence_val hlong hlen hs rest
    have hin : ¬ (v < minVal (s.length + 1) ∨ v > maxVal (s.length + 1)) :=
      fun h => hrange (hout.mp h)
    rw [not_or, UInt32.not_lt, gt_iff_lt, UInt32.not_lt] at hin
    have hle := lenTab_le c
    have hascii : ¬ c < 128 := by
      intro hlt
      have hone := (lenTab_eq_one c).mpr hlt
      omega
    have hnat : (lenTab c).toNat = s.length + 1 := by omega
    obtain ⟨hsmall, hsize⟩ := uCharSize_between (by omega) (by omega) hin.1 hin.2
    refine ⟨v, ?_, hsmall, hsize⟩
    rw [List.cons_append]
    dsimp only
    rw [if_neg hascii, if_neg (by omega), hnat, Nat.add_sub_cancel, hv]
    rfl

/-- The characters of a string, one after the other. -/
theorem unmasked_iff (s : Text) :
    (∀ u, Reads s u → u &&& uInvalidMask = 0) ↔ ∀ g ∈ characters s, ¬ Stray g := by
  obtain hl := characters_decoded s
  have hflat := characters_flatten s
  generalize characters s = l at hl hflat
  subst hflat
  -- what is read where a character stands
  have hread {front back : List Text} {g : Text} (hsplit : l = front ++ g :: back) :
      ∃ u next, charIndex l.flatten front.length = some front.flatten.length ∧
        front.flatten.length < l.flatten.length ∧
        uGetChar l.flatten front.flatten.length = some (u, next) ∧
        (u &&& uInvalidMask ≠ 0 ↔ Stray g) := by
    subst hsplit
    have hchar : IsChar g back.flatten := hl.of_append.2.1
    have hpos := List.length_pos_iff.mpr hchar.1
    obtain ⟨u, hu, hmask⟩ := uGetChar_masked hchar front.flatten
    rw [List.flatten_append, List.flatten_cons, List.length_append, List.length_append]
    refine ⟨u, _, ?_, by omega, hu, hmask⟩
    rw [← List.flatten_cons, ← List.flatten_append]
    exact charIndex_flatten hl
  constructor
  · intro h g hg hstray
    obtain ⟨front, back, hsplit⟩ := List.append_of_mem hg
    obtain ⟨u, next, hindex, hlt, hu, hmask⟩ := hread hsplit
    exact hmask.mpr hstray (h u ⟨⟨_, _, next, hindex, hlt, hu⟩⟩)
  · intro h u hreads
    obtain ⟨n, idx, next, hindex, hlt, hu⟩ := hreads.step
    have hn : n < l.length := by
      by_contra hge
      have hle := (charIndex_isSome l.flatten n).mp (by rw [hindex]; rfl)
      have hlast := charIndex_last l.flatten
      rw [uStrlenSafe_flatten hl] at hle hlast
      rw [show n = l.length by omega, hlast, Option.some.injEq] at hindex
      omega
    have hsplit : l = l.take n ++ l[n] :: l.drop (n + 1) := by
      rw [← List.drop_eq_getElem_cons, List.take_append_drop]
    obtain ⟨u', next', hindex', -, hu', hmask⟩ := hread hsplit
    rw [List.length_take_of_le (Nat.le_of_lt hn), hindex, Option.some.injEq] at hindex'
    rw [← hindex', hu, Option.some.injEq, Prod.mk.injEq] at hu'
    by_contra hmasked
    exact h l[n] (List.getElem_mem hn) (hmask.mp (hu'.1 ▸ hmasked))

/-- The validator and the decoder agree, if and only if some byte is no character of its own
or no sequence is out of range. -/
theorem uIsValid_agrees_iff (s : Text) :
    (uIsValid s = true ↔ ∀ u, Reads s u → u &&& uInvalidMask = 0) ↔
      (∃ g ∈ characters s, Stray g) ∨ ∀ g ∈ characters s, ¬ OutOfRange g := by
  rw [uIsValid_iff, unmasked_iff, forall₂_and]
  by_cases hstray : ∃ g ∈ characters s, Stray g
  · refine iff_of_true ⟨fun h => h.1, fun h => ?_⟩ (.inl hstray)
    obtain ⟨g, hg, hbad⟩ := hstray
    exact absurd hbad (h g hg)
  · have hgood : ∀ g ∈ characters s, ¬ Stray g := fun g hg h => hstray ⟨g, hg, h⟩
    rw [or_iff_right hstray, and_iff_right hgood, iff_iff_eq, iff_true_right hgood]

/-- An overlong NUL is refused, and read as a character that is not marked. -/
theorem overlong_disagrees :
    uIsValid [0xc0, 0x80] = false ∧ uGetChar [0xc0, 0x80] 0 = some (0, 2) ∧
      ¬ ∀ s : Text, (uIsValid s = true ↔ ∀ u, Reads s u → u &&& uInvalidMask = 0) := by
  refine ⟨by decide +kernel, by decide +kernel, fun h => ?_⟩
  have hchars : characters [0xc0, 0x80] = [[0xc0, 0x80]] := by decide +kernel
  have hvalid := (h [0xc0, 0x80]).mpr ((unmasked_iff _).mpr fun g hg => ?_)
  · revert hvalid
    decide +kernel
  · rw [hchars, List.mem_singleton] at hg
    subst hg
    exact not_stray (by decide) (by decide)

end GracefulMusic
