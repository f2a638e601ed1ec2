import GracefulMusic.Format.Columns

/-! Copying a number of columns.

What is copied, clipped and left over adds up to the columns that were asked for. Where the
clip mark cuts a wide character, a part of it is left over. -/
namespace GracefulMusic.Format

/-! ### Characters -/

/-- A character that is copied as it is. -/
def Plain (u : Uchar) : Prop := 0x20 ≤ u ∧ u ≤ 0x10ffff

instance plainDecidable (u : Uchar) : Decidable (Plain u) :=
  inferInstanceAs (Decidable (_ ∧ _))

theorem Printable.plain {u : Uchar} (h : Printable u) : Plain u := by
  refine ⟨h.1, ?_⟩
  have hlt := UInt32.lt_iff_toNat_lt.mp h.2
  exact UInt32.le_iff_toNat_le.mpr (by simp at hlt ⊢; omega)

theorem Plain.no_mask {u : Uchar} (h : Plain u) : u &&& uInvalidMask = 0 := by
  have hle := UInt32.le_iff_toNat_le.mp h.2
  have hlt : u.toNat < 2 ^ 28 := Nat.lt_of_le_of_lt hle (by decide)
  have hmask : uInvalidMask.toNat = 2 ^ 28 := by decide
  apply UInt32.toNat_inj.mp
  rw [UInt32.toNat_and, hmask]
  apply Nat.eq_of_testBit_eq
  intro i
  rw [Nat.testBit_and, Nat.testBit_two_pow]
  by_cases hi : 28 = i
  · rw [← hi, Nat.testBit_lt_two_pow hlt]
    rfl
  · simp [hi]

theorem uSetChar_plain {u : Uchar} (h : Plain u) : uSetChar u = [u] := by
  rw [uSetChar, if_pos ⟨h.1, h.2⟩]

theorem hexTab_printable (n : Uchar) : Printable (hexTab (n &&& 0xf)) := by
  have hall : ∀ k : Fin 16, Printable (hexTab (UInt32.ofNat k.val)) := by decide +kernel
  have hlt : (n &&& 0xf).toNat < 16 := by
    rw [UInt32.toNat_and]
    exact Nat.lt_of_le_of_lt Nat.and_le_right (by decide)
  have h := hall ⟨_, hlt⟩
  rwa [UInt32.ofNat_toNat] at h

namespace Terminal
variable {D : Type} (T : Terminal D)

theorem uCharWidth_nonneg (u : Uchar) : 0 ≤ T.uCharWidth u := by
  unfold uCharWidth
  split
  · split <;> decide
  split
  · decide
  split
  · decide
  split
  · assumption
  · decide

theorem uCharWidth_plain {u : Uchar} (h : Plain u) : T.uCharWidth u ≤ 2 := by
  have hctrl : ¬ u < 0x20 := UInt32.not_lt.mpr h.1
  have hwidth := T.wcwidth_le u
  rw [uCharWidth, if_neg hctrl]
  split
  · decide
  rw [if_neg (not_not_intro h.no_mask)]
  split
  · exact hwidth
  · decide

theorem uCharWidth_printable {u : Uchar} (h : Printable u) : T.uCharWidth u = 1 := by
  have hctrl : ¬ u < 0x20 := UInt32.not_lt.mpr h.1
  rw [uCharWidth, if_neg hctrl, T.wcwidth_ascii u h]
  split
  · rfl
  rw [if_neg (not_not_intro h.plain.no_mask)]
  rfl

@[simp] theorem uStrWidth_nil : T.uStrWidth [] = 0 := rfl

@[simp] theorem uStrWidth_cons (u : Uchar) (s : List Uchar) :
    T.uStrWidth (u :: s) = T.uCharWidth u + T.uStrWidth s := rfl

@[simp] theorem uStrWidth_append (s t : List Uchar) :
    T.uStrWidth (s ++ t) = T.uStrWidth s + T.uStrWidth t := by
  rw [uStrWidth, List.map_append, List.sum_append]
  rfl

theorem uStrWidth_nonneg (s : List Uchar) : 0 ≤ T.uStrWidth s := by
  induction s with
  | nil => exact Int.le_refl 0
  | cons u s ih => exact Int.add_nonneg (T.uCharWidth_nonneg u) ih

theorem uStrWidth_single {s : List Uchar} (h : ∀ u ∈ s, T.uCharWidth u = 1) :
    T.uStrWidth s = s.length := by
  induction s with
  | nil => rfl
  | cons u s ih =>
    rw [uStrWidth_cons, h u (.head _), ih fun v hv => h v (.tail _ hv), List.length_cons]
    omega

theorem space_printable : Printable (uch ' ') := by decide

theorem uStrWidth_spaces {n : Int} (hn : 0 ≤ n) : T.uStrWidth (spaces n) = n := by
  rw [uStrWidth_single, spaces, List.length_replicate, Int.toNat_of_nonneg hn]
  intro u hu
  rw [List.eq_of_mem_replicate hu]
  exact T.uCharWidth_printable space_printable

theorem uStrWidth_zeros (s : List Uchar) :
    T.uStrWidth (s.takeWhile (T.uCharWidth · = 0)) = 0 := by
  induction s with
  | nil => rfl
  | cons u s ih =>
    rw [List.takeWhile_cons]
    split
    · rename_i hu
      rw [uStrWidth_cons, ih, of_decide_eq_true hu]
      rfl
    · rfl

/-! ### Copying and skipping -/

theorem uCopyChars_spec {src dst rest : List Uchar} {w left : Int} (hsrc : ∀ u ∈ src, Plain u)
    (hw : 0 ≤ w) (h : T.uCopyChars src w = (dst, rest, left)) :
    dst ++ rest = src ∧ T.uStrWidth dst + left = w ∧ 0 ≤ left := by
  induction src generalizing dst w with
  | nil =>
    cases h
    exact ⟨rfl, Int.zero_add _, hw⟩
  | cons u src ih =>
    have hu := hsrc u (.head _)
    have htwo := T.uCharWidth_plain hu
    rw [uCopyChars, if_neg (by omega)] at h
    dsimp only at h
    split at h
    · rw [if_neg (by omega)] at h
      cases h
      exact ⟨rfl, Int.zero_add _, hw⟩
    · rename_i hfits
      rcases hcopy : T.uCopyChars src (w - T.uCharWidth u) with ⟨dst', rest', left'⟩
      rw [hcopy] at h
      dsimp only at h
      cases h
      obtain ⟨hsplit, hsum, hleft⟩ := ih (fun v hv => hsrc v (.tail _ hv)) (by omega) hcopy
      rw [uSetChar_plain hu]
      refine ⟨congrArg (u :: ·) hsplit, ?_, hleft⟩
      rw [List.singleton_append, uStrWidth_cons]
      omega

/-- What fits is copied. -/
theorem uCopyChars_fits {src : List Uchar} {w : Int} (hsrc : ∀ u ∈ src, Plain u)
    (hfits : T.uStrWidth src ≤ w) : T.uCopyChars src w = (src, [], w - T.uStrWidth src) := by
  induction src generalizing w with
  | nil => rw [uCopyChars, uStrWidth_nil, Int.sub_zero]
  | cons u src ih =>
    have hu := T.uCharWidth_nonneg u
    have hnonneg := T.uStrWidth_nonneg src
    rw [uStrWidth_cons] at hfits
    rw [uCopyChars, if_neg (by omega)]
    dsimp only
    rw [if_neg (by omega), ih (fun v hv => hsrc v (.tail _ hv)) (by omega),
      uSetChar_plain (hsrc u (.head _)), uStrWidth_cons]
    simp only [List.singleton_append, Prod.mk.injEq, true_and]
    omega

/-- Single-width characters fill the columns. -/
theorem uCopyChars_single {src dst rest : List Uchar} {w left : Int}
    (hsrc : ∀ u ∈ src, Plain u ∧ T.uCharWidth u = 1) (hw : 0 ≤ w) (hle : w ≤ T.uStrWidth src)
    (h : T.uCopyChars src w = (dst, rest, left)) : left = 0 := by
  induction src generalizing dst w with
  | nil =>
    cases h
    exact Int.le_antisymm hle hw
  | cons u src ih =>
    obtain ⟨-, hone⟩ := hsrc u (.head _)
    rw [uStrWidth_cons, hone] at hle
    rw [uCopyChars, if_neg (by omega)] at h
    dsimp only at h
    rw [hone] at h
    split at h
    · rw [if_neg (by omega)] at h
      cases h
      omega
    · rcases hcopy : T.uCopyChars src (w - 1) with ⟨dst', rest', left'⟩
      rw [hcopy] at h
      dsimp only at h
      cases h
      exact ih (fun v hv => hsrc v (.tail _ hv)) (by omega) (by omega) hcopy

/-- The columns of a character before column `n` that it does not end in. -/
def partOfChar : List Uchar → Int → Int
  | [], _ => 0
  | u :: s, n =>
    if n ≤ 0 then 0 else if n < T.uCharWidth u then n else partOfChar s (n - T.uCharWidth u)

theorem partOfChar_nonneg (s : List Uchar) (n : Int) : 0 ≤ T.partOfChar s n := by
  induction s generalizing n with
  | nil => exact Int.le_refl 0
  | cons u s ih =>
    rw [partOfChar]
    split
    · exact Int.le_refl 0
    split
    · omega
    · exact ih _

theorem partOfChar_le_one {s : List Uchar} (hs : ∀ u ∈ s, Plain u) (n : Int) :
    T.partOfChar s n ≤ 1 := by
  induction s generalizing n with
  | nil => exact Int.zero_le_ofNat 1
  | cons u s ih =>
    have htwo := T.uCharWidth_plain (hs u (.head _))
    rw [partOfChar]
    split
    · exact Int.zero_le_ofNat 1
    split
    · omega
    · exact ih (fun v hv => hs v (.tail _ hv)) _

theorem partOfChar_of_nonpos (s : List Uchar) {n : Int} (hn : n ≤ 0) : T.partOfChar s n = 0 := by
  cases s with
  | nil => rfl
  | cons u s => rw [partOfChar, if_pos hn]

theorem partOfChar_append {s : List Uchar} (t : List Uchar) {n : Int} (hn : n ≤ T.uStrWidth s) :
    T.partOfChar (s ++ t) n = T.partOfChar s n := by
  induction s generalizing n with
  | nil => exact T.partOfChar_of_nonpos t hn
  | cons u s ih =>
    rw [uStrWidth_cons] at hn
    rw [List.cons_append, partOfChar, partOfChar, ih (by omega)]

/-- Skipping no more than there is stops before the character that is too wide. -/
theorem uSkipChars_before {s : List Uchar} {n : Int} (hn : 0 ≤ n) (hle : n ≤ T.uStrWidth s) :
    ∃ front back, T.uSkipChars false s n = some (front, back, T.partOfChar s n) ∧
      front ++ back = s ∧ T.uStrWidth front + T.partOfChar s n = n := by
  induction s generalizing n with
  | nil =>
    obtain rfl : n = 0 := Int.le_antisymm hle hn
    exact ⟨[], [], rfl, rfl, rfl⟩
  | cons u s ih =>
    rw [uStrWidth_cons] at hle
    rw [uSkipChars, partOfChar]
    split
    · obtain rfl : n = 0 := by omega
      exact ⟨_, _, rfl, List.takeWhile_append_dropWhile, by rw [uStrWidth_zeros]; rfl⟩
    by_cases hover : n < T.uCharWidth u
    · rw [if_pos (by simp; omega), if_pos hover]
      exact ⟨[], _, rfl, rfl, Int.zero_add n⟩
    · obtain ⟨front, back, hskip, hsplit, hsum⟩ :=
        ih (n := n - T.uCharWidth u) (by omega) (by omega)
      rw [if_neg (by simp; omega), if_neg hover, hskip]
      refine ⟨u :: front, back, rfl, congrArg (u :: ·) hsplit, ?_⟩
      rw [uStrWidth_cons]
      omega

/-- Skipping too much is counted. -/
theorem uSkipChars_over {s front back : List Uchar} {n w : Int}
    (h : T.uSkipChars true s n = some (front, back, w)) :
    front ++ back = s ∧ T.uStrWidth front + w = n ∧ w ≤ 0 := by
  induction s generalizing front n with
  | nil =>
    rw [uSkipChars] at h
    split at h
    · rename_i hn
      cases h
      exact ⟨rfl, Int.zero_add _, hn⟩
    · cases h
  | cons u s ih =>
    rw [uSkipChars] at h
    split at h
    · rename_i hn
      cases h
      exact ⟨List.takeWhile_append_dropWhile, by rw [uStrWidth_zeros, Int.zero_add], hn⟩
    · rw [if_neg (by simp), Option.map_eq_some_iff] at h
      obtain ⟨⟨front', back', w'⟩, hskip, heq⟩ := h
      cases heq
      obtain ⟨hsplit, hsum, hw⟩ := ih hskip
      refine ⟨congrArg (u :: ·) hsplit, ?_, hw⟩
      rw [uStrWidth_cons]
      omega

theorem uSkipChars_some {s : List Uchar} {n : Int} (hle : n ≤ T.uStrWidth s) :
    ∃ front back w, T.uSkipChars true s n = some (front, back, w) := by
  induction s generalizing n with
  | nil => exact ⟨[], [], n, if_pos hle⟩
  | cons u s ih =>
    rw [uStrWidth_cons] at hle
    rw [uSkipChars]
    split
    · exact ⟨_, _, _, rfl⟩
    · obtain ⟨front, back, w, hskip⟩ := ih (n := n - T.uCharWidth u) (by omega)
      rw [if_neg (by simp), hskip]
      exact ⟨_, _, _, rfl⟩

/-! ### The clip mark -/

/-- A clip mark of single-width characters. -/
def SingleWidth : Prop := ∀ u ∈ T.mark, Plain u ∧ T.uCharWidth u = 1

variable {T}

theorem gbufMarkClippedText_spec (hmark : T.SingleWidth) (buf : List Uchar) :
    T.uStrWidth (T.gbufMarkClippedText buf).1 + (T.gbufMarkClippedText buf).2 =
        T.uStrWidth buf ∧
      (T.gbufMarkClippedText buf).2 =
        T.partOfChar buf (T.uStrWidth buf - min (T.uStrWidth T.mark) (T.uStrWidth buf)) ∧
      ((∀ u ∈ buf, Plain u) → ∀ u ∈ (T.gbufMarkClippedText buf).1, Plain u) := by
  have hmarkWidth := T.uStrWidth_nonneg T.mark
  have hbuf := T.uStrWidth_nonneg buf
  obtain ⟨front, back, hskip, hsplit, hsum⟩ := T.uSkipChars_before (s := buf)
    (n := T.uStrWidth buf - min (T.uStrWidth T.mark) (T.uStrWidth buf)) (by omega) (by omega)
  rcases hcopy : T.uCopyChars T.mark (min (T.uStrWidth T.mark) (T.uStrWidth buf)) with
    ⟨dst, rest, left⟩
  obtain ⟨hmarkSplit, hcopied, -⟩ := T.uCopyChars_spec (fun u hu => (hmark u hu).1) (by omega) hcopy
  have hleft := T.uCopyChars_single hmark (by omega) (by omega) hcopy
  have heq : T.gbufMarkClippedText buf = (front ++ dst, T.partOfChar buf
      (T.uStrWidth buf - min (T.uStrWidth T.mark) (T.uStrWidth buf))) := by
    rw [gbufMarkClippedText, hskip, hcopy]
  rw [heq]
  refine ⟨?_, rfl, fun hplain u hu => ?_⟩
  · rw [uStrWidth_append]
    omega
  · rcases List.mem_append.mp hu with hu | hu
    · exact hplain u (hsplit ▸ List.mem_append_left _ hu)
    · exact (hmark u (hmarkSplit ▸ List.mem_append_left _ hu)).1

theorem spaces_plain {n : Int} : ∀ u ∈ spaces n, Plain u := by
  intro u hu
  rw [List.eq_of_mem_replicate hu]
  exact space_printable.plain

theorem append_plain {s t : List Uchar} (hs : ∀ u ∈ s, Plain u) (ht : ∀ u ∈ t, Plain u) :
    ∀ u ∈ s ++ t, Plain u := by
  intro u hu
  rcases List.mem_append.mp hu with hu | hu
  · exact hs u hu
  · exact ht u hu

/-- The columns in the buffer and those left over are the ones there were and those asked for. -/
theorem gbufAddUstr_spec (hmark : T.SingleWidth) (buf : List Uchar) {src : List Uchar} {w : Int}
    (hsrc : ∀ u ∈ src, Plain u) (hw : 0 ≤ w) :
    T.uStrWidth (T.gbufAddUstr buf src w).1 + (T.gbufAddUstr buf src w).2 = T.uStrWidth buf + w ∧
      0 ≤ (T.gbufAddUstr buf src w).2 ∧
      ((∀ u ∈ buf, Plain u) → ∀ u ∈ (T.gbufAddUstr buf src w).1, Plain u) := by
  rcases hcopy : T.uCopyChars src w with ⟨dst, rest, left⟩
  obtain ⟨hsplit, hsum, hleft⟩ := T.uCopyChars_spec hsrc hw hcopy
  have hdst : ∀ u ∈ dst, Plain u := fun u hu => hsrc u (hsplit ▸ List.mem_append_left _ hu)
  rw [gbufAddUstr, hcopy]
  dsimp only
  split
  · obtain ⟨hclip, hpart, hplain⟩ :=
      gbufMarkClippedText_spec hmark (buf ++ dst ++ spaces left)
    rw [hclip, uStrWidth_append, uStrWidth_append, T.uStrWidth_spaces hleft]
    refine ⟨by omega, ?_, fun hbuf => hplain (append_plain (append_plain hbuf hdst) spaces_plain)⟩
    rw [hpart]
    exact T.partOfChar_nonneg _ _
  · rw [uStrWidth_append]
    exact ⟨by omega, hleft, fun hbuf => append_plain hbuf hdst⟩

/-- What fits is added. -/
theorem gbufAddUstr_fits {buf src : List Uchar} {w : Int} (hsrc : ∀ u ∈ src, Plain u)
    (hfits : T.uStrWidth src ≤ w) :
    T.gbufAddUstr buf src w = (buf ++ src, w - T.uStrWidth src) := by
  rw [gbufAddUstr, T.uCopyChars_fits hsrc hfits]
  rfl

/-- A mark wider than its columns takes the rest from the text before. -/
theorem gbufAddUstr_mark (hmark : T.SingleWidth) {buf : List Uchar} {w : Int} (hw : 0 ≤ w)
    (hnarrow : w < T.uStrWidth T.mark) :
    (T.gbufAddUstr buf T.mark w).2 =
      T.partOfChar buf (T.uStrWidth buf + w - T.uStrWidth T.mark) := by
  have hbuf := T.uStrWidth_nonneg buf
  rcases hcopy : T.uCopyChars T.mark w with ⟨dst, rest, left⟩
  obtain ⟨hsplit, hsum, -⟩ := T.uCopyChars_spec (fun u hu => (hmark u hu).1) hw hcopy
  obtain rfl := T.uCopyChars_single hmark hw (Int.le_of_lt hnarrow) hcopy
  have hrest : rest ≠ [] := by
    intro heq
    subst heq
    rw [List.append_nil] at hsplit
    rw [hsplit] at hsum
    omega
  obtain ⟨-, hpart, -⟩ := gbufMarkClippedText_spec hmark (buf ++ dst ++ spaces 0)
  have hspaces : spaces 0 = [] := rfl
  rw [gbufAddUstr, hcopy]
  dsimp only
  rw [if_pos hrest, hpart, hspaces, List.append_nil, uStrWidth_append]
  by_cases hnone : T.uStrWidth buf + w ≤ T.uStrWidth T.mark
  · rw [T.partOfChar_of_nonpos _ (by omega), T.partOfChar_of_nonpos _ (by omega)]
  · have hcolumn : T.uStrWidth buf + T.uStrWidth dst -
        min (T.uStrWidth T.mark) (T.uStrWidth buf + T.uStrWidth dst) =
        T.uStrWidth buf + w - T.uStrWidth T.mark := by omega
    rw [hcolumn, T.partOfChar_append dst (by omega)]

/-- No more is left over than was asked for. -/
theorem gbufAddUstr_left (hmark : T.SingleWidth) {buf src : List Uchar} {w : Int}
    (hbuf : ∀ u ∈ buf, Plain u) (hsrc : ∀ u ∈ src, Plain u) (hw : 1 ≤ w ∨ T.uStrWidth src ≤ w) :
    (T.gbufAddUstr buf src w).2 ≤ w := by
  have hnonneg := T.uStrWidth_nonneg src
  by_cases hfits : T.uStrWidth src ≤ w
  · rw [gbufAddUstr_fits hsrc hfits]
    dsimp only
    omega
  rcases hcopy : T.uCopyChars src w with ⟨dst, rest, left⟩
  obtain ⟨hsplit, hsum, hleft⟩ := T.uCopyChars_spec hsrc (by omega) hcopy
  have hdst : ∀ u ∈ dst, Plain u := fun u hu => hsrc u (hsplit ▸ List.mem_append_left _ hu)
  rw [gbufAddUstr, hcopy]
  dsimp only
  split
  · obtain ⟨-, hpart, -⟩ := gbufMarkClippedText_spec hmark (buf ++ dst ++ spaces left)
    have hone :=
      T.partOfChar_le_one (append_plain (append_plain hbuf hdst) (spaces_plain (n := left)))
      (T.uStrWidth (buf ++ dst ++ spaces left) -
        min (T.uStrWidth T.mark) (T.uStrWidth (buf ++ dst ++ spaces left)))
    omega
  · have hdstWidth := T.uStrWidth_nonneg dst
    show left ≤ w
    omega

end Terminal

end GracefulMusic.Format
