import GracefulMusic.Uchar

/-! Characters of arbitrary bytes (`uchar.c`).

A sequence that is not complete, or a byte that starts none, counts as single characters.
A row of bytes splits into characters from the left, and only there: what is put behind
a row can complete the sequence it ends in. -/
namespace GracefulMusic

/-- The size of a character in bytes. -/
def uCharSize (u : Uchar) : Nat :=
  if u ≤ 0x7f then 1 else if u ≤ 0x7ff then 2 else if u ≤ 0xffff then 3 else if u ≤ 0x10ffff then 4
  else 1

/-- The bytes that `u_set_char_raw` writes. -/
def uSetCharRaw (u : Uchar) : Text :=
  let tail (shift : UInt32) : UInt8 := ((u >>> shift) &&& 63 ||| 0x80).toUInt8
  if u ≤ 0x7f then [u.toUInt8]
  else if u ≤ 0x7ff then [(u >>> 6 ||| 0xc0).toUInt8, tail 0]
  else if u ≤ 0xffff then [(u >>> 12 ||| 0xe0).toUInt8, tail 6, tail 0]
  else if u ≤ 0x10ffff then [(u >>> 18 ||| 0xf0).toUInt8, tail 12, tail 6, tail 0]
  else [(u &&& 0xff).toUInt8] -- must be an invalid uchar

/-- The loop of `u_prev_char_pos` over the bytes before an index, `c` of which are inside
a sequence; `none` where it goes to `one`. -/
def prevCharLoop (s : Text) : Nat → Nat → Option Nat
  | 0, _ => none
  | i + 1, c =>
    match s[i]? with
    | none => none
    | some ch =>
      let c := c + 1
      if lenTab ch = 0 then
        if c < 4 then prevCharLoop s i c else none
      else if lenTab ch ≠ c then none
      else some i

def uPrevCharPos (s : Text) (idx : Nat) : Nat :=
  match s[idx - 1]? with
  | none => idx - 1
  | some ch =>
    if lenTab ch ≠ 0 then idx - 1 -- start of byte sequence or invalid uchar
    else (prevCharLoop s (idx - 1) 1).getD (idx - 1)

/-- Whether the next bytes are inside a sequence. -/
def continues (n : Nat) (s : Text) : Bool := n ≤ s.length && (s.take n).all fun c => lenTab c = 0

/-- The length of the first character. -/
def charLen : Text → Nat
  | [] => 0
  | c :: s =>
    if 1 < lenTab c ∧ continues ((lenTab c).toNat - 1) s = true then (lenTab c).toNat else 1

def charactersLoop : Nat → Text → List Text
  | 0, _ => []
  | _ + 1, [] => []
  | fuel + 1, c :: s =>
    (c :: s).take (charLen (c :: s)) :: charactersLoop fuel ((c :: s).drop (charLen (c :: s)))

/-- The bytes of each character. -/
def characters (s : Text) : List Text := charactersLoop s.length s

/-- Each round takes a character. -/
def uStrlenSafeLoop : Nat → Text → Nat
  | 0, _ => 0
  | _ + 1, [] => 0
  | fuel + 1, c :: s => uStrlenSafeLoop fuel ((c :: s).drop (charLen (c :: s))) + 1

def uStrlenSafe (s : Text) : Nat := uStrlenSafeLoop s.length s

def uStrchrLoop (s : Text) (uch : Uchar) : Nat → Nat → Bool
  | 0, _ => false
  | fuel + 1, idx =>
    if idx < s.length then
      match uGetChar s idx with
      | none => false
      | some (u, next) => u = uch || uStrchrLoop s uch fuel next
    else false

/-- Whether `u_strchr` finds the character. -/
def uStrchr (s : Text) (uch : Uchar) : Bool := uStrchrLoop s uch s.length 0

/-- Where a number of characters from the start of a string ends. -/
def charIndex (s : Text) : Nat → Option Nat
  | 0 => some 0
  | n + 1 => do
    let idx ← charIndex s n
    if idx < s.length then
      let (_, next) ← uGetChar s idx
      some next
    else none

/-! ### Sizes -/

theorem length_uSetCharRaw (u : Uchar) : (uSetCharRaw u).length = uCharSize u := by
  unfold uSetCharRaw uCharSize
  split
  · rfl
  split
  · rfl
  split
  · rfl
  split <;> rfl

theorem uCharSize_le (u : Uchar) : uCharSize u ≤ 4 := by
  unfold uCharSize
  split
  · decide
  split
  · decide
  split
  · decide
  split <;> decide

/-! ### Rows of characters -/

/-- A first character, before what follows it. -/
def IsChar (g rest : Text) : Prop := g ≠ [] ∧ charLen (g ++ rest) = g.length

/-- Bytes split into the characters that the functions above see. -/
def Decoded : List Text → Prop
  | [] => True
  | g :: gs => IsChar g gs.flatten ∧ Decoded gs

theorem lenTab_le (c : UInt8) : lenTab c ≤ 4 := by
  unfold lenTab
  split <;> (try split) <;> (try split) <;> (try split) <;> (try split) <;> omega

theorem continues_append {n : Nat} {s : Text} (h : continues n s = true) (t : Text) :
    continues n (s ++ t) = true := by
  simp only [continues, Bool.and_eq_true, decide_eq_true_eq, List.length_append] at h ⊢
  exact ⟨by omega, by rw [List.take_append_of_le_length h.1]; exact h.2⟩

/-- A character is a single byte, or a first byte with the bytes it asks for. -/
theorem isChar_cases {g rest : Text} (h : IsChar g rest) :
    (∃ c, g = [c] ∧ ¬ (1 < lenTab c ∧ continues ((lenTab c).toNat - 1) rest = true)) ∨
      ∃ c s, g = c :: s ∧ 1 < lenTab c ∧ lenTab c = s.length + 1 ∧ ∀ d ∈ s, lenTab d = 0 := by
  obtain ⟨hne, hlen⟩ := h
  obtain ⟨c, s, rfl⟩ := List.exists_cons_of_ne_nil hne
  rw [List.cons_append, charLen] at hlen
  split at hlen
  · rename_i hc
    right
    have hs : (lenTab c).toNat - 1 = s.length := by rw [List.length_cons] at hlen; omega
    refine ⟨c, s, rfl, hc.1, by rw [List.length_cons] at hlen; omega, ?_⟩
    have := hc.2
    rw [hs, continues, List.take_left] at this
    simpa using this
  · rename_i hc
    obtain rfl : s = [] := List.length_eq_zero_iff.mp (by rw [List.length_cons] at hlen; omega)
    exact .inl ⟨c, rfl, hc⟩

theorem isChar_single {c : UInt8} {rest : Text} :
    IsChar [c] rest ↔ ¬ (1 < lenTab c ∧ continues ((lenTab c).toNat - 1) rest = true) := by
  rw [IsChar, List.singleton_append, charLen]
  constructor
  · rintro ⟨-, h⟩ hc
    rw [if_pos hc, List.length_singleton] at h
    omega
  · intro hc
    rw [if_neg hc]
    exact ⟨by simp, rfl⟩

theorem isChar_multi {c : UInt8} {s : Text} (hc : 1 < lenTab c) (hlen : lenTab c = s.length + 1)
    (hs : ∀ d ∈ s, lenTab d = 0) (rest : Text) : IsChar (c :: s) rest := by
  refine ⟨by simp, ?_⟩
  have hn : (lenTab c).toNat - 1 = s.length := by omega
  have hcont : continues ((lenTab c).toNat - 1) (s ++ rest) = true := by
    rw [hn, continues, List.take_left]
    simpa using hs
  rw [List.cons_append, charLen, if_pos ⟨hc, hcont⟩, List.length_cons]
  omega

/-- A character stays one when what follows is cut off. -/
theorem IsChar.cut {g rest more : Text} (h : IsChar g (rest ++ more)) : IsChar g rest := by
  obtain ⟨c, rfl, hc⟩ | ⟨c, s, rfl, hc, hlen, hs⟩ := isChar_cases h
  · exact isChar_single.mpr fun hc' => hc ⟨hc'.1, continues_append hc'.2 more⟩
  · exact isChar_multi hc hlen hs rest

/-- The terminator does not belong to a sequence. -/
theorem IsChar.before_end {g rest : Text} (h : IsChar g rest) (junk : Text) :
    IsChar g (rest ++ 0 :: junk) := by
  obtain ⟨c, rfl, hc⟩ | ⟨c, s, rfl, hc, hlen, hs⟩ := isChar_cases h
  · refine isChar_single.mpr fun ⟨hlong, hcont⟩ => hc ⟨hlong, ?_⟩
    rw [continues, Bool.and_eq_true, decide_eq_true_eq] at hcont
    have hin : (lenTab c).toNat - 1 ≤ rest.length := by
      by_contra hout
      have hzero : (0 : UInt8) ∈ (rest ++ 0 :: junk).take ((lenTab c).toNat - 1) := by
        rw [List.take_append, List.mem_append, show (lenTab c).toNat - 1 - rest.length =
          (lenTab c).toNat - 2 - rest.length + 1 by omega, List.take_succ_cons]
        exact .inr List.mem_cons_self
      have := List.all_eq_true.mp hcont.2 0 hzero
      exact absurd this (by decide)
    rw [List.take_append_of_le_length hin] at hcont
    rw [continues, hcont.2, decide_eq_true hin]
    rfl
  · exact isChar_multi hc hlen hs _

theorem Decoded.of_append {front back : List Text} (h : Decoded (front ++ back)) :
    Decoded front ∧ Decoded back := by
  induction front with
  | nil => exact ⟨trivial, h⟩
  | cons g front ih =>
    have hg : IsChar g (front ++ back).flatten := h.1
    rw [List.flatten_append] at hg
    exact ⟨⟨hg.cut, (ih h.2).1⟩, (ih h.2).2⟩

theorem Decoded.length_le {l : List Text} (hl : Decoded l) : l.length ≤ l.flatten.length := by
  induction l with
  | nil => exact Nat.le_refl _
  | cons g gs ih =>
    have hpos := List.length_pos_iff.mpr hl.1.1
    have := ih hl.2
    rw [List.flatten_cons, List.length_append, List.length_cons]
    omega

/-- The end of `a` is an incomplete sequence that `b` completes. -/
def Joins (a b : Text) : Prop :=
  ∃ front c mid, a = front ++ c :: mid ∧ 1 < lenTab c ∧ mid.length + 1 < lenTab c ∧
    continues mid.length mid = true ∧ continues ((lenTab c).toNat - 1 - mid.length) b = true

theorem Joins.append {a b : Text} (h : Joins a b) (more : Text) : Joins a (b ++ more) := by
  obtain ⟨front, c, mid, hsplit, hlong, hshort, hmid, hcont⟩ := h
  exact ⟨front, c, mid, hsplit, hlong, hshort, hmid, continues_append hcont more⟩

/-- Rows that do not join split where they meet. -/
theorem Decoded.append {front back : List Text} (hfront : Decoded front) (hback : Decoded back)
    (h : ¬ Joins front.flatten back.flatten) : Decoded (front ++ back) := by
  induction front with
  | nil => exact hback
  | cons g front ih =>
    obtain ⟨hg, hfront⟩ := hfront
    refine ⟨?_, ih hfront ?_⟩
    · obtain ⟨c, rfl, hc⟩ | ⟨c, s, rfl, hc, hlen, hs⟩ := isChar_cases hg
      · refine isChar_single.mpr fun hc' => ?_
        -- the bytes it asks for reach into the second row
        obtain ⟨hlong, hcont⟩ := hc'
        replace hcont : continues ((lenTab c).toNat - 1) (front ++ back).flatten = true := hcont
        rw [List.flatten_append, continues, Bool.and_eq_true, decide_eq_true_eq,
          List.length_append] at hcont
        by_cases hin : (lenTab c).toNat - 1 ≤ front.flatten.length
        · rw [List.take_append_of_le_length hin] at hcont
          exact hc ⟨hlong, by rw [continues, hcont.2, decide_eq_true hin]; rfl⟩
        · rw [List.take_append, List.all_append, Bool.and_eq_true,
            List.take_of_length_le (by omega)] at hcont
          refine h ⟨[], c, front.flatten, rfl, hlong, by omega, ?_, ?_⟩
          · rw [continues, List.take_length, hcont.2.1]
            simp
          · rw [continues, hcont.2.2, decide_eq_true (by omega)]
            rfl
      · exact isChar_multi hc hlen hs _
    · intro h
      obtain ⟨pre, c, mid, hsplit, hjoin⟩ := h
      exact h ⟨g ++ pre, c, mid, by rw [List.flatten_cons, hsplit, List.append_assoc], hjoin⟩

/-! ### Reading characters -/

theorem continuation_isSome (n : Nat) (u : Uchar) (s : Text) :
    (continuation n u s).isSome = continues n s := by
  induction n generalizing u s with
  | zero => simp [continuation, continues]
  | succ n ih =>
    cases s with
    | nil => simp [continuation, continues]
    | cons c s =>
      rw [continuation]
      by_cases hc : lenTab c = 0
      · rw [if_neg (not_not.mpr hc), ih]
        simp [continues, hc]
      · simp [continues, hc]

/-- In the string and at its end there is a character. -/
theorem uGetChar_isSome {s : Text} {idx : Nat} (h : idx ≤ s.length) :
    ∃ u next, uGetChar s idx = some (u, next) := by
  rw [uGetChar]
  split
  · exact ⟨_, _, rfl⟩
  · next hend =>
    obtain ⟨c, rest, hdrop⟩ := List.exists_cons_of_ne_nil (l := s.drop idx) fun hnil => by
      rw [List.drop_eq_nil_iff] at hnil
      omega
    rw [hdrop]
    dsimp only
    split
    · exact ⟨_, _, rfl⟩
    split
    · exact ⟨_, _, rfl⟩
    split <;> exact ⟨_, _, rfl⟩

/-- `u_get_char` goes on by one character. -/
theorem uGetChar_char {g rest : Text} (h : IsChar g rest) (pre : Text) :
    ∃ u, uGetChar (pre ++ (g ++ rest)) pre.length = some (u, pre.length + g.length) := by
  have hdrop : (pre ++ (g ++ rest)).drop pre.length = g ++ rest := List.drop_left
  have hpos := List.length_pos_iff.mpr h.1
  have hend : pre.length ≠ (pre ++ (g ++ rest)).length := by
    simp only [List.length_append]
    omega
  rw [uGetChar, if_neg hend, hdrop]
  obtain ⟨c, rfl, hc⟩ | ⟨c, s, rfl, hc, hlen, hs⟩ := isChar_cases h
  · rw [List.singleton_append]
    dsimp only
    split
    · exact ⟨_, rfl⟩
    split
    · exact ⟨_, rfl⟩
    · have hsome := continuation_isSome ((lenTab c).toNat - 1)
        (c &&& firstByteMask (lenTab c).toNat).toUInt32 rest
      split
      · exact ⟨_, rfl⟩
      · rename_i hascii hone u rest' hcont
        rw [hcont, Option.isSome_some] at hsome
        -- a single byte that is followed by what it asks for asks for nothing
        have : lenTab c = 1 := by
          by_contra hne
          exact hc ⟨by omega, hsome.symm⟩
        exact ⟨u, by rw [this]; rfl⟩
  · have hascii : ¬ c < 128 := by
      intro hlt
      have : lenTab c = 1 := by rw [lenTab, if_pos (by exact hlt)]
      omega
    have hn : (lenTab c).toNat - 1 = s.length := by omega
    have hcont : continues ((lenTab c).toNat - 1) (s ++ rest) = true := by
      rw [hn, continues, List.take_left]
      simpa using hs
    have hsome := continuation_isSome ((lenTab c).toNat - 1)
      (c &&& firstByteMask (lenTab c).toNat).toUInt32 (s ++ rest)
    rw [hcont, Option.isSome_iff_exists] at hsome
    obtain ⟨⟨u, rest'⟩, hsome⟩ := hsome
    rw [List.cons_append]
    dsimp only
    rw [if_neg hascii, if_neg (by omega), hsome]
    exact ⟨u, by rw [List.length_cons]; simp only; congr 2; omega⟩

theorem uStrlenSafeLoop_flatten {l : List Text} (hl : Decoded l) {fuel : Nat}
    (hfuel : l.flatten.length ≤ fuel) : uStrlenSafeLoop fuel l.flatten = l.length := by
  induction l generalizing fuel with
  | nil => cases fuel <;> rfl
  | cons g gs ih =>
    obtain ⟨hg, hgs⟩ := hl
    obtain ⟨hne, hlen⟩ := hg
    have hpos := List.length_pos_iff.mpr hne
    rw [List.flatten_cons, List.length_append] at hfuel
    obtain ⟨fuel, rfl⟩ : ∃ f, fuel = f + 1 := ⟨fuel - 1, by omega⟩
    have hsplit : (g :: gs).flatten = g ++ gs.flatten := List.flatten_cons
    obtain ⟨c, s, hcs⟩ := List.exists_cons_of_ne_nil hne
    rw [hsplit] at *
    rw [hcs, List.cons_append, uStrlenSafeLoop, ← List.cons_append, ← hcs, hlen, List.drop_left,
      ih hgs (by omega), List.length_cons]

/-- `u_strlen_safe` counts the characters. -/
theorem uStrlenSafe_flatten {l : List Text} (hl : Decoded l) :
    uStrlenSafe l.flatten = l.length := uStrlenSafeLoop_flatten hl (Nat.le_refl _)

theorem charLen_pos {s : Text} (h : s ≠ []) : 0 < charLen s ∧ charLen s ≤ s.length := by
  obtain ⟨c, s, rfl⟩ := List.exists_cons_of_ne_nil h
  rw [charLen]
  split
  · rename_i hc
    have := hc.2
    rw [continues, Bool.and_eq_true, decide_eq_true_eq] at this
    rw [List.length_cons]
    omega
  · simp

theorem charactersLoop_decoded {fuel : Nat} {s : Text} (hfuel : s.length ≤ fuel) :
    Decoded (charactersLoop fuel s) ∧ (charactersLoop fuel s).flatten = s := by
  induction fuel generalizing s with
  | zero =>
    obtain rfl := List.eq_nil_of_length_eq_zero (Nat.le_zero.mp hfuel)
    exact ⟨trivial, rfl⟩
  | succ fuel ih =>
    cases s with
    | nil => exact ⟨trivial, rfl⟩
    | cons c s =>
      have hchar := charLen_pos (List.cons_ne_nil c s)
      obtain ⟨hl, hflat⟩ := ih (s := (c :: s).drop (charLen (c :: s)))
        (by rw [List.length_drop]; omega)
      refine ⟨⟨⟨?_, ?_⟩, hl⟩, ?_⟩
      · intro hnil
        have := congrArg List.length hnil
        rw [List.length_take, List.length_nil] at this
        omega
      · rw [hflat, List.take_append_drop, List.length_take]
        omega
      · rw [charactersLoop, List.flatten_cons, hflat, List.take_append_drop]

theorem characters_decoded (s : Text) : Decoded (characters s) :=
  (charactersLoop_decoded (Nat.le_refl _)).1

theorem characters_flatten (s : Text) : (characters s).flatten = s :=
  (charactersLoop_decoded (Nat.le_refl _)).2

/-- Every string splits. -/
theorem exists_decoded (s : Text) : ∃ l, Decoded l ∧ l.flatten = s :=
  ⟨characters s, characters_decoded s, characters_flatten s⟩

theorem charIndex_flatten {front back : List Text} (h : Decoded (front ++ back)) :
    charIndex (front ++ back).flatten front.length = some front.flatten.length := by
  induction front using List.reverseRecOn generalizing back with
  | nil => rfl
  | append_singleton front g ih =>
    rw [List.append_assoc] at h ⊢
    have hg : IsChar g back.flatten := h.of_append.2.1
    have hflat : (front ++ ([g] ++ back)).flatten = front.flatten ++ (g ++ back.flatten) := by simp
    obtain ⟨u, hu⟩ := uGetChar_char hg front.flatten
    have hpos := List.length_pos_iff.mpr hg.1
    rw [List.length_append, List.length_singleton, charIndex, ih h, hflat]
    simp only [Option.bind_eq_bind, Option.bind_some]
    rw [if_pos (by simp only [List.length_append]; omega), hu]
    simp

/-- Characters end in the string. -/
theorem charIndex_le {s : Text} {n idx : Nat} (h : charIndex s n = some idx) :
    idx ≤ s.length := by
  cases n with
  | zero =>
    cases h
    exact Nat.zero_le _
  | succ n =>
    simp only [charIndex, Option.bind_eq_bind, Option.bind_eq_some_iff] at h
    obtain ⟨i, -, h⟩ := h
    split at h
    · next hin =>
      obtain ⟨⟨u, next⟩, hget, hnext⟩ := Option.bind_eq_some_iff.mp h
      cases hnext
      obtain ⟨-, ⟨hend, -, -⟩ | hle⟩ := uGetChar_next hget
      · omega
      · exact hle
    · cases h

/-! ### Going back -/

/-- Back over the rest of a sequence to its first byte. -/
theorem prevCharLoop_finds (pre more : Text) {s : Text} {c : UInt8} (hlen : lenTab c = s.length + 1)
    (hs : ∀ d ∈ s, lenTab d = 0) {i : Nat} (hi : i < s.length) :
    prevCharLoop (pre ++ c :: (s ++ more)) (pre.length + 1 + i) (s.length - i) =
      some pre.length := by
  have hle := lenTab_le c
  induction i with
  | zero =>
    have hget : (pre ++ c :: (s ++ more))[pre.length]? = some c := by simp
    have hc : lenTab c ≠ 0 := by omega
    rw [Nat.add_zero, Nat.sub_zero, prevCharLoop, hget]
    dsimp only
    rw [if_neg hc, if_neg (by rw [hlen]; simp)]
  | succ i ih =>
    have hget : (pre ++ c :: (s ++ more))[pre.length + 1 + i]? = some s[i] := by
      rw [List.getElem?_append_right (by omega), show pre.length + 1 + i - pre.length = i + 1 by omega,
        List.getElem?_cons_succ, List.getElem?_append_left (by omega),
        List.getElem?_eq_getElem (by omega)]
    have hzero : lenTab s[i] = 0 := hs _ (List.getElem_mem _)
    rw [← Nat.add_assoc, prevCharLoop, hget]
    dsimp only
    rw [if_pos hzero, if_pos (by omega), show s.length - (i + 1) + 1 = s.length - i by omega]
    exact ih (by omega)

/-- What the loop finds is a sequence as long as it says. -/
theorem prevCharLoop_sound {s : Text} {i c r : Nat} (h : prevCharLoop s i c = some r) :
    ∃ pre d mid, s.take i = pre ++ d :: mid ∧ pre.length = r ∧ lenTab d = mid.length + 1 + c ∧
      ∀ b ∈ mid, lenTab b = 0 := by
  induction i generalizing c with
  | zero => cases h
  | succ i ih =>
    rw [prevCharLoop] at h
    split at h
    · cases h
    · rename_i ch hget
      obtain ⟨hi, rfl⟩ := List.getElem?_eq_some_iff.mp hget
      have htake : s.take (i + 1) = s.take i ++ [s[i]] := List.take_succ_eq_append_getElem hi
      dsimp only at h
      split at h
      · rename_i hzero
        split at h
        · obtain ⟨pre, d, mid, hsplit, hr, hd, hmid⟩ := ih h
          refine ⟨pre, d, mid ++ [s[i]], ?_, hr, ?_, ?_⟩
          · rw [htake, hsplit, List.append_assoc, List.cons_append]
          · rw [hd, List.length_append, List.length_singleton]
            omega
          · intro b hb
            rcases List.mem_append.mp hb with hb | hb
            · exact hmid b hb
            · rw [List.mem_singleton.mp hb]
              exact hzero
        · cases h
      · split at h
        · cases h
        · rename_i hlen
          obtain rfl : i = r := Option.some.inj h
          refine ⟨s.take i, s[i], [], htake, ?_, ?_, by simp⟩
          · rw [List.length_take]
            omega
          · rw [List.length_nil]
            omega

/-- Where a complete sequence ends, it is a character. -/
theorem Decoded.ends_in_sequence {l : List Text} (hl : Decoded l) {pre mid : Text} {d : UInt8}
    (hsplit : l.flatten = pre ++ d :: mid) (hlen : lenTab d = mid.length + 1) (hlong : 1 < lenTab d)
    (hmid : ∀ b ∈ mid, lenTab b = 0) : ∃ front, l = front ++ [d :: mid] := by
  induction l generalizing pre with
  | nil => simp at hsplit
  | cons g gs ih =>
    obtain ⟨hg, hgs⟩ := hl
    rw [List.flatten_cons] at hsplit
    rcases List.append_eq_append_iff.mp hsplit with ⟨more, hpre, hrest⟩ | ⟨more, hgs', hrest⟩
    · obtain ⟨front, rfl⟩ := ih hgs hrest
      exact ⟨g :: front, rfl⟩
    · -- the first byte of the sequence lies in `g`
      cases more with
      | nil =>
        obtain ⟨front, rfl⟩ := ih hgs (show gs.flatten = [] ++ d :: mid from hrest.symm)
        exact ⟨g :: front, rfl⟩
      | cons e more =>
        obtain ⟨rfl, hmore⟩ := List.cons.inj hrest
        replace hmore : mid = more ++ gs.flatten := hmore
        cases pre with
        | cons b pre =>
          exfalso
          obtain ⟨c, hc, -⟩ | ⟨c, s, hc, -, -, hs⟩ := isChar_cases hg
          · simp [hc] at hgs'
          · rw [hc, List.cons_append] at hgs'
            have := hs d ((List.cons.inj hgs').2 ▸ by simp)
            omega
        | nil =>
          rw [List.nil_append] at hgs'
          obtain ⟨-, hchar⟩ := hg
          have hwhole : charLen (d :: mid) = mid.length + 1 := by
            have hcont : continues ((lenTab d).toNat - 1) mid = true := by
              rw [show (lenTab d).toNat - 1 = mid.length by omega, continues, List.take_length]
              simpa using hmid
            rw [charLen, if_pos ⟨hlong, hcont⟩]
            omega
          rw [hgs', List.cons_append, ← hmore, hwhole, List.length_cons] at hchar
          have hnil : gs.flatten = [] := by
            have := congrArg List.length hmore
            rw [List.length_append] at this
            exact List.length_eq_zero_iff.mp (by omega)
          cases gs with
          | nil => exact ⟨[], by rw [hgs', hmore, hnil, List.append_nil, List.nil_append]⟩
          | cons g' gs =>
            obtain ⟨⟨hne, -⟩, -⟩ := hgs
            rw [List.flatten_cons, List.append_eq_nil_iff] at hnil
            exact absurd hnil.1 hne

/-- `u_prev_char_pos` goes back by one character. -/
theorem uPrevCharPos_char {front : List Text} {g : Text} (h : Decoded (front ++ [g])) (more : Text) :
    uPrevCharPos ((front ++ [g]).flatten ++ more) (front ++ [g]).flatten.length =
      front.flatten.length := by
  have hg : IsChar g [] := by simpa [Decoded] using h.of_append.2
  have hflat : (front ++ [g]).flatten = front.flatten ++ g := by simp
  obtain ⟨c, rfl, -⟩ | ⟨c, s, rfl, hc, hlen, hs⟩ := isChar_cases hg
  · -- a single byte is passed, and no sequence ends in it
    have hidx : (front ++ [[c]]).flatten.length - 1 = front.flatten.length := by simp [hflat]
    have hget : ((front ++ [[c]]).flatten ++ more)[front.flatten.length]? = some c := by
      rw [hflat, List.append_assoc]
      simp
    rw [uPrevCharPos, hidx, hget]
    dsimp only
    split
    · rfl
    · rename_i hzero
      cases hloop : prevCharLoop ((front ++ [[c]]).flatten ++ more) front.flatten.length 1 with
      | none => rfl
      | some r =>
        exfalso
        obtain ⟨pre, d, mid, hsplit, -, hd, hmid⟩ := prevCharLoop_sound hloop
        rw [hflat, List.append_assoc, List.take_left] at hsplit
        obtain ⟨front', heq⟩ := h.ends_in_sequence
          (show _ = pre ++ d :: (mid ++ [c]) by rw [hflat, hsplit]; simp) (by rw [hd]; simp) (by omega) (by
            intro b hb
            rcases List.mem_append.mp hb with hb | hb
            · exact hmid b hb
            · rw [List.mem_singleton.mp hb]
              omega)
        have := (List.append_inj' heq rfl).2
        simp at this
  · obtain ⟨last, hlast⟩ : ∃ n, s.length = n + 1 := ⟨s.length - 1, by omega⟩
    have hbytes : (front ++ [c :: s]).flatten ++ more = front.flatten ++ c :: (s ++ more) := by
      rw [hflat]
      simp
    have hidx : (front ++ [c :: s]).flatten.length - 1 = front.flatten.length + 1 + last := by
      rw [hflat, List.length_append, List.length_cons]
      omega
    have hget : (front.flatten ++ c :: (s ++ more))[front.flatten.length + 1 + last]? =
        some s[last] := by
      rw [List.getElem?_append_right (by omega),
        show front.flatten.length + 1 + last - front.flatten.length = last + 1 by omega,
        List.getElem?_cons_succ, List.getElem?_append_left (by omega),
        List.getElem?_eq_getElem (by omega)]
    have hzero : lenTab s[last] = 0 := hs _ (List.getElem_mem _)
    have hfinds := prevCharLoop_finds front.flatten more hlen hs
      (show last < s.length by omega)
    rw [show s.length - last = 1 by omega] at hfinds
    rw [uPrevCharPos, hbytes, hidx, hget]
    dsimp only
    rw [if_neg (not_not.mpr hzero), hfinds, Option.getD_some]

end GracefulMusic
