import GracefulMusic.Foundation.Wildcard
import GracefulMusic.Uchar.Fold

/-! Valid UTF-8 as a row of characters (`uchar.c`).

A character is kept with the bytes it is spelt with. What the functions of strings do is
said of the characters from an index on, and the index moves by their bytes. -/
namespace GracefulMusic
open Wildcard (Begins)

structure Glyph where
  bytes : Text
  val : Uchar
  deriving DecidableEq

/-- A first byte and as many that continue it, for a character that is not the end. -/
def Glyph.Valid (g : Glyph) : Prop :=
  ∃ c cs, g.bytes = c :: cs ∧ lenTab c = cs.length + 1 ∧ (∀ d ∈ cs, lenTab d = 0) ∧
    continuation cs.length (c &&& firstByteMask (cs.length + 1)).toUInt32 cs = some (g.val, []) ∧
    ¬ g.val < minVal (cs.length + 1) ∧ g.val ≤ 0x10ffff ∧ g.val ≠ 0

def Glyph.size (g : Glyph) : Nat := g.bytes.length

/-- The bytes of a row of characters. -/
def flat (gs : List Glyph) : Text := gs.flatMap Glyph.bytes

def AllValid (gs : List Glyph) : Prop := ∀ g ∈ gs, g.Valid

@[simp] theorem flat_nil : flat [] = [] := rfl

@[simp] theorem flat_cons (g : Glyph) (gs : List Glyph) : flat (g :: gs) = g.bytes ++ flat gs := rfl

theorem flat_append (gs hs : List Glyph) : flat (gs ++ hs) = flat gs ++ flat hs :=
  List.flatMap_append

theorem length_flat (gs : List Glyph) : (flat gs).length = (gs.map Glyph.size).sum :=
  List.length_flatMap

variable {g : Glyph} {gs : List Glyph}

theorem Glyph.Valid.size_pos (h : g.Valid) : 0 < g.size := by
  obtain ⟨c, cs, hbytes, -⟩ := h
  rw [Glyph.size, hbytes]
  exact Nat.succ_pos _

theorem lenTab_eq_one : ∀ c : UInt8, lenTab c = 1 ↔ c < 128 := forall_byte (by decide +kernel)

theorem le_of_lenTab_ne_one : ∀ c : UInt8, lenTab c ≠ 1 → 128 ≤ c := forall_byte (by decide +kernel)

theorem ascii_char : ∀ c : UInt8, c < 128 →
    (c &&& firstByteMask 1).toUInt32 = c.toUInt32 ∧ c.toUInt32 ≤ 0x10ffff :=
  forall_byte (by decide +kernel)

theorem minVal_le {n : Nat} (h : 1 < n) : 0x80 ≤ minVal n := by
  match n, h with
  | 2, _ => decide
  | 3, _ => decide
  | n + 4, _ => exact (by decide : (0x80 : Uchar) ≤ 0x10000)

/-- A character of ASCII is its byte; of the others no byte is one of ASCII. -/
theorem Glyph.Valid.ascii_or (h : g.Valid) :
    (∃ c, c < 128 ∧ g.bytes = [c] ∧ g.val = c.toUInt32) ∨
      ((∀ d ∈ g.bytes, 128 ≤ d) ∧ 0x80 ≤ g.val) := by
  obtain ⟨c, cs, hbytes, hlen, hcs, hval, hmin, -, -⟩ := h
  cases cs with
  | nil =>
    have hone := (lenTab_eq_one c).mp hlen
    have hchar : (c &&& firstByteMask 1).toUInt32 = g.val := by
      simpa only [List.length_nil, continuation, Option.some.injEq, Prod.mk.injEq, and_true,
        Nat.zero_add] using hval
    exact .inl ⟨c, hone, hbytes, by rw [← hchar, (ascii_char c hone).1]⟩
  | cons b cs =>
    rw [List.length_cons] at hlen hmin
    refine .inr ⟨fun d hd => ?_, ?_⟩
    · rw [hbytes] at hd
      refine le_of_lenTab_ne_one d ?_
      rcases List.mem_cons.mp hd with rfl | hd
      · omega
      · rw [hcs d hd]
        decide
    · exact UInt32.le_trans (minVal_le (by omega)) (UInt32.not_lt.mp hmin)

theorem AllValid.head (h : AllValid (g :: gs)) : g.Valid := h g (List.mem_cons_self ..)

theorem AllValid.tail (h : AllValid (g :: gs)) : AllValid gs :=
  fun u hu => h u (List.mem_cons_of_mem g hu)

theorem AllValid.drop (h : AllValid gs) (k : Nat) : AllValid (gs.drop k) :=
  fun u hu => h u (List.mem_of_mem_drop hu)

theorem AllValid.length_le (h : AllValid gs) : gs.length ≤ (flat gs).length := by
  induction gs with
  | nil => exact Nat.le_refl _
  | cons g gs ih =>
    have hg := h.head.size_pos
    have hrest := ih h.tail
    rw [flat_cons, List.length_append, List.length_cons]
    rw [Glyph.size] at hg
    omega

/-! ### Decoding -/

theorem utf8Skip_eq : ∀ c : UInt8, 0 < lenTab c → (utf8Skip c : Int) = lenTab c :=
  forall_byte (by decide +kernel)

theorem continuation_append {n : Nat} {u v : Uchar} {cs : Text}
    (h : continuation n u cs = some (v, [])) (rest : Text) :
    continuation n u (cs ++ rest) = some (v, rest) := by
  induction n generalizing u cs with
  | zero =>
    cases h
    rfl
  | succ n ih =>
    cases cs with
    | nil => cases h
    | cons c cs =>
      rw [continuation] at h
      rw [List.cons_append, continuation]
      split at h
      · cases h
      · rename_i hc
        rw [if_neg hc]
        exact ih h

/-- The character from an index on. -/
theorem uGetChar_glyph (hg : g.Valid) (front rest : Text) :
    uGetChar (front ++ (g.bytes ++ rest)) front.length = some (g.val, front.length + g.size) := by
  obtain ⟨c, cs, hbytes, hlen, -, hval, -⟩ := hg
  have hlength : front.length ≠ (front ++ (g.bytes ++ rest)).length := by
    rw [hbytes]
    simp
  rw [uGetChar, if_neg hlength, List.drop_left, hbytes, List.cons_append]
  dsimp only
  rw [Glyph.size, hbytes, List.length_cons]
  by_cases hone : c < 128
  · have hnil : cs = [] := by
      rw [(lenTab_eq_one c).mpr hone] at hlen
      exact List.eq_nil_of_length_eq_zero (by omega)
    subst hnil
    rw [if_pos hone]
    have hmask := (ascii_char c hone).1
    simp only [List.length_nil, continuation, Nat.zero_add, hmask, Option.some.injEq,
      Prod.mk.injEq, and_true] at hval ⊢
    exact hval
  · have hnat : (lenTab c).toNat = cs.length + 1 := by omega
    rw [if_neg hone, if_neg (by omega), hnat, Nat.add_sub_cancel, continuation_append hval]

theorem uGetChar_end (s : Text) : uGetChar s s.length = some (0, s.length + 1) := by
  rw [uGetChar, if_pos rfl]

theorem toUInt32_or_mask : ∀ d : UInt8, lenTab d = 0 → 0x10ffff < d.toUInt32 ||| uInvalidMask :=
  forall_byte (by decide +kernel)

/-- In the middle of a character a byte is read that is no character. -/
theorem uGetChar_middle {d : UInt8} (hd : lenTab d = 0) (front rest : Text) :
    uGetChar (front ++ d :: rest) front.length =
      some (d.toUInt32 ||| uInvalidMask, front.length + 1) := by
  have hlength : front.length ≠ (front ++ d :: rest).length := by simp
  have hone : ¬ d < 128 := fun h => by
    rw [(lenTab_eq_one d).mpr h] at hd
    cases hd
  rw [uGetChar, if_neg hlength, List.drop_left]
  dsimp only
  rw [if_neg hone, if_pos (by omega)]

theorem minVal_ne_zero {n : Nat} (h : 1 < n) {u : Uchar} (hu : ¬ u < minVal n) : u ≠ 0 := by
  intro heq
  subst heq
  exact absurd (UInt32.le_trans (minVal_le h) (UInt32.not_lt.mp hu)) (by decide)

theorem maxVal_le {n : Nat} {u : Uchar} (hu : ¬ u > maxVal n) : u ≤ 0x10ffff := by
  have hle : u ≤ maxVal n := UInt32.not_lt.mp hu
  refine UInt32.le_trans hle ?_
  match n with
  | 0 => decide
  | 1 => decide
  | 2 => decide
  | 3 => decide
  | n + 4 => exact (by decide : (0x10ffff : Uchar) ≤ 0x10ffff)

/-- A part of the bytes that continue a sequence. -/
theorem continuation_split {n : Nat} {u v : Uchar} {s rest : Text}
    (h : continuation n u s = some (v, rest)) :
    ∃ cs, s = cs ++ rest ∧ cs.length = n ∧ (∀ d ∈ cs, lenTab d = 0) ∧
      continuation n u cs = some (v, []) := by
  induction n generalizing u s with
  | zero =>
    cases h
    exact ⟨[], rfl, rfl, nofun, rfl⟩
  | succ n ih =>
    cases s with
    | nil => cases h
    | cons c s =>
      rw [continuation] at h
      split at h
      · cases h
      · rename_i hc
        obtain ⟨cs, rfl, hlength, hall, hcs⟩ := ih h
        refine ⟨c :: cs, rfl, congrArg Nat.succ hlength, ?_, ?_⟩
        · intro d hd
          rcases List.mem_cons.mp hd with rfl | hd
          · exact not_not.mp hc
          · exact hall d hd
        · rw [continuation, if_neg hc]
          exact hcs

/-- **A valid string is a row of characters.** -/
theorem exists_glyphs {s : Text} (h : uIsValid s = true) (hz : 0 ∉ s) :
    ∃ gs, AllValid gs ∧ s = flat gs := by
  suffices hloop : ∀ fuel s, s.length ≤ fuel → uIsValidLoop fuel s = true → 0 ∉ s →
      ∃ gs, AllValid gs ∧ s = flat gs from hloop _ s (Nat.le_refl _) h hz
  intro fuel
  induction fuel with
  | zero =>
    intro s hlength _ _
    exact ⟨[], nofun, List.eq_nil_of_length_eq_zero (by omega)⟩
  | succ fuel ih =>
    intro s hlength hvalid hz
    cases s with
    | nil => exact ⟨[], nofun, rfl⟩
    | cons c s =>
      rw [List.mem_cons, not_or] at hz
      rw [List.length_cons] at hlength
      unfold uIsValidLoop at hvalid
      dsimp only at hvalid
      split at hvalid
      · cases hvalid
      rename_i hpos
      split at hvalid
      · rename_i hone
        obtain ⟨gs, hgs, rfl⟩ := ih s (by omega) hvalid hz.2
        have hlt := (lenTab_eq_one c).mp hone
        refine ⟨⟨[c], c.toUInt32⟩ :: gs, ?_, rfl⟩
        intro g hg
        rcases List.mem_cons.mp hg with rfl | hg
        · refine ⟨c, [], rfl, hone, nofun, ?_, UInt32.not_lt.mpr (UInt32.zero_le), ?_, ?_⟩
          · exact congrArg (fun u => some (u, [])) (ascii_char c hlt).1
          · exact (ascii_char c hlt).2
          · intro hzero
            refine hz.1 ?_
            rw [← UInt8.toNat_inj]
            rw [← UInt32.toNat_inj, UInt8.toNat_toUInt32] at hzero
            exact hzero.symm
        · exact hgs g hg
      rename_i hne
      split at hvalid
      · cases hvalid
      rename_i u rest hcont
      split at hvalid
      · cases hvalid
      rename_i hrange
      rw [Bool.or_eq_true, not_or, decide_eq_true_eq, decide_eq_true_eq] at hrange
      obtain ⟨cs, rfl, hcs, hall, hval⟩ := continuation_split hcont
      rw [List.length_append] at hlength
      obtain ⟨gs, hgs, rfl⟩ := ih rest (by omega) hvalid
        fun hmem => hz.2 (List.mem_append_right _ hmem)
      refine ⟨⟨c :: cs, u⟩ :: gs, ?_, rfl⟩
      intro g hg
      rcases List.mem_cons.mp hg with rfl | hg
      · have hlen : (lenTab c).toNat = cs.length + 1 := by omega
        rw [hlen, Nat.add_sub_cancel] at hval
        refine ⟨c, cs, rfl, by omega, hall, hval, hlen ▸ hrange.1, maxVal_le hrange.2, ?_⟩
        · exact minVal_ne_zero (by omega) hrange.1
      · exact hgs g hg

def glyphsLoop : Nat → Text → List Glyph
  | 0, _ => []
  | _, [] => []
  | fuel + 1, c :: s =>
    match uGetChar (c :: s) 0 with
    | none => []
    | some (u, size) => ⟨(c :: s).take size, u⟩ :: glyphsLoop fuel ((c :: s).drop size)

/-- The characters of a string. -/
def glyphs (s : Text) : List Glyph := glyphsLoop s.length s

theorem glyphs_flat (h : AllValid gs) : glyphs (flat gs) = gs := by
  suffices hloop : ∀ fuel, gs.length ≤ fuel → glyphsLoop fuel (flat gs) = gs from
    hloop _ h.length_le
  intro fuel
  induction gs generalizing fuel with
  | nil => cases fuel <;> exact fun _ => rfl
  | cons g gs ih =>
    intro hfuel
    obtain ⟨fuel, rfl⟩ := Nat.exists_eq_add_one_of_ne_zero (Nat.ne_of_gt
      (Nat.lt_of_lt_of_le (Nat.succ_pos _) hfuel))
    have hget := uGetChar_glyph h.head [] (flat gs)
    have hsize : g.size = g.bytes.length := rfl
    obtain ⟨c, cs, hbytes, -⟩ := h.head
    rw [List.nil_append, List.length_nil, Nat.zero_add] at hget
    rw [flat_cons]
    rw [hbytes, List.cons_append] at hget ⊢
    rw [glyphsLoop, hget]
    dsimp only
    rw [hsize, hbytes, ← List.cons_append, List.take_left, List.drop_left,
      ih h.tail fuel (Nat.le_of_succ_le_succ hfuel), ← hbytes]

end GracefulMusic
