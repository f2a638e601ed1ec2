import GracefulMusic.Glob.Items

/-! Matching of a glob (`glob.c`).

The text is gone through with an index, which is moved by the bytes of the pattern where a
text of the pattern is found. It is the place behind what was found where both have as many
bytes. What is found may have fewer, and the index may then be behind the end. -/
namespace GracefulMusic.Glob
open Wildcard

section
variable (L : Locale)

/-- A star before a text: each place where the text is found, until the rest matches. -/
def starLoop (rest : Nat → Option Bool) (text t : Text) : (fuel : Nat) → Nat → Option Bool
  | 0, _ => none
  | fuel + 1, pos => do
    match ← uStrcasestrBase L text t pos with
    | none => some false
    | some found =>
      if ← rest (found + t.length) then some true else starLoop rest text t fuel (found + 1)

def doGlobMatch (text : Text) : List GlobItem → Nat → Option Bool
  | [], pos => if text.length < pos then none else some (pos = text.length)
  | .text t :: items, pos => do
    let len ← uStrlen t
    let equal ← uStrncaseEqualBase L t text (sizeT (toInt len)) pos
    if equal then doGlobMatch text items (pos + t.length) else some false
  | .qmark :: items, pos => do
    let (u, next) ← uGetChar text pos
    if u = 0 then some false else doGlobMatch text items next
  -- this star was the last item
  | [.star], _ => some true
  | .star :: .text t :: items, pos =>
    starLoop L (doGlobMatch text items) text t (text.length + 1) pos
  | .star :: _ :: _, _ => none

def globMatch (items : List GlobItem) (text : Text) : Option Bool := doGlobMatch L text items 0

/-- A place in a text from where a matcher does as it should. -/
def MatchesFrom (p : List (Token Glyph)) (text : Text) (run : Nat → Option Bool) : Prop :=
  ∀ front gs, AllValid gs → text = front ++ flat gs →
    Balanced (SameBase L) Glyph.size Glyph.size p 0 0 gs →
    ∃ b, run front.length = some b ∧ (b = true ↔ Matches (SameBase L) p gs)

variable {L} {ls gs : List Glyph} {p : List (Token Glyph)} {text : Text}

theorem flat_take_drop (gs : List Glyph) (k : Nat) : flat gs = flat (gs.take k) ++ flat (gs.drop k) := by
  rw [← flat_append, List.take_append_drop]

/-- Behind a text that is found at a balanced place. -/
theorem length_flat_of_balanced (hend : RowEnd p)
    (hbal : Balanced (SameBase L) Glyph.size Glyph.size (ls.map .lit ++ p) 0 0 gs)
    (hbegins : Begins (SameBase L) ls gs) :
    (flat ls).length = (flat (gs.take ls.length)).length ∧
      Balanced (SameBase L) Glyph.size Glyph.size p 0 0 (gs.drop ls.length) := by
  have hrow := hbal.row hbegins
  rw [Nat.zero_add, Nat.zero_add, ← length_flat, ← length_flat, balanced_of_rowEnd hend] at hrow
  exact hrow

/-- **A star before a text** finds the first place that matches, wherever it starts. -/
theorem starLoop_matches {rest : Nat → Option Bool} (hls : IsText ls) (hend : RowEnd p)
    (hrest : MatchesFrom L p text rest) (hshort : text.length < 2 ^ 31) (front : Text)
    (middle : Text) (hmiddle : ∀ d ∈ middle, lenTab d = 0) (hgs : AllValid gs)
    (htext : text = front ++ (middle ++ flat gs)) {fuel : Nat} (hfuel : gs.length < fuel)
    (hbal : Balanced (SameBase L) Glyph.size Glyph.size (.any :: (ls.map .lit ++ p)) 0 0 gs) :
    ∃ b, starLoop L rest text (flat ls) fuel front.length = some b ∧
      (b = true ↔ Matches (SameBase L) (.any :: (ls.map .lit ++ p)) gs) := by
  induction fuel generalizing front middle gs with
  | zero => exact absurd hfuel (Nat.not_lt_zero _)
  | succ fuel ih =>
    have hlength := congrArg List.length htext
    rw [List.length_append] at hlength
    have hcount := hls.valid.length_le
    have hshortLs := hls.short
    obtain ⟨r, hr, hfound⟩ := uStrcasestrBase_flat (L := L) hls.valid hls.ne_nil (by omega) hgs
      hmiddle front (by omega)
    rw [starLoop, htext, hr]
    cases r with
    | none =>
      refine ⟨false, rfl, iff_of_false nofun fun hmatch => ?_⟩
      obtain ⟨k, hk, hmatch⟩ := matches_any_iff.mp hmatch
      exact hfound k hk (matches_lits_iff.mp hmatch).1
    | some found =>
      obtain ⟨k, hk, hpos, hbegins, hfirst⟩ := hfound
      have hnone : ∀ j < k, ¬ Matches (SameBase L) (ls.map .lit ++ p) (gs.drop j) :=
        fun j hj hmatch => hfirst j hj (matches_lits_iff.mp hmatch).1
      obtain ⟨hsize, hafter⟩ := length_flat_of_balanced hend (hbal.2 k hk hnone) hbegins
      -- the rest is tried behind what was found
      obtain ⟨b, hb, hiff⟩ := hrest
        (front ++ (middle ++ (flat (gs.take k) ++ flat ((gs.drop k).take ls.length))))
        ((gs.drop k).drop ls.length) ((hgs.drop k).drop _)
        (by rw [htext, flat_take_drop gs k, flat_take_drop (gs.drop k) ls.length]; simp) hafter
      have hbehind : (front ++ (middle ++
          (flat (gs.take k) ++ flat ((gs.drop k).take ls.length)))).length =
          found + (flat ls).length := by
        simp only [List.length_append]
        omega
      rw [hbehind] at hb
      simp only [Option.bind_eq_bind, Option.bind_some, hb]
      cases b with
      | true =>
        exact ⟨true, rfl, iff_of_true rfl (matches_any_iff.mpr
          ⟨k, hk, matches_lits_iff.mpr ⟨hbegins, hiff.mp rfl⟩⟩)⟩
      | false =>
        -- or the search goes on in the middle of the first character of what was found
        have hlt : k < gs.length := by
          have hle := hbegins.length_le
          have hpos := List.length_pos_iff.mpr hls.ne_nil
          rw [List.length_drop] at hle
          omega
        have hdrop := List.drop_eq_getElem_cons hlt
        obtain ⟨c, cs, hbytes, -, hcs, -⟩ := hgs _ (List.getElem_mem hlt)
        have hno : ∀ j < k + 1, ¬ Matches (SameBase L) (ls.map .lit ++ p) (gs.drop j) := by
          intro j hj hmatch
          rcases Nat.lt_succ_iff_lt_or_eq.mp hj with hj | rfl
          · exact hnone j hj hmatch
          · exact Bool.false_ne_true (hiff.mpr (matches_lits_iff.mp hmatch).2)
        obtain ⟨b, hb, hiff⟩ := ih (front ++ (middle ++ (flat (gs.take k) ++ [c]))) cs
          hcs (hgs.drop (k + 1))
          (by rw [htext, flat_take_drop gs k, hdrop, flat_cons, hbytes]; simp)
          (by rw [List.length_drop]; omega) (hbal.drop hlt hno)
        have hnext : (front ++ (middle ++ (flat (gs.take k) ++ [c]))).length = found + 1 := by
          simp only [List.length_append, List.length_singleton]
          omega
        rw [hnext] at hb
        refine ⟨b, ?_, hiff.trans (matches_any_drop hlt hno).symm⟩
        rw [htext] at hb
        exact hb

/-- **The matcher** finds what the items stand for, at a balanced place. -/
theorem doGlobMatch_matches {items : List GlobItem} (h : Proper items)
    (hshort : text.length < 2 ^ 31) :
    MatchesFrom L (itemTokens items) text (doGlobMatch L text items) := by
  induction h with
  | nil =>
    rintro front gs hgs rfl -
    rw [doGlobMatch, if_neg (by rw [List.length_append]; omega)]
    refine ⟨_, rfl, ?_⟩
    have hcount := hgs.length_le
    rw [decide_eq_true_eq, List.length_append]
    refine Iff.trans ?_ matches_nil_iff.symm
    constructor
    · exact fun hlen => List.eq_nil_of_length_eq_zero (by omega)
    · intro heq
      subst heq
      rfl
  | last => exact fun front gs hgs htext hbal => ⟨true, rfl, iff_of_true rfl matches_any_last⟩
  | @qmark items _ ih =>
    rintro front gs hgs rfl hbal
    cases gs with
    | nil =>
      have hget := uGetChar_end (front ++ flat [])
      rw [flat_nil, List.append_nil] at hget ⊢
      rw [doGlobMatch, hget]
      exact ⟨false, rfl, iff_of_false nofun matches_one_nil⟩
    | cons g gs =>
      have hget := uGetChar_glyph hgs.head front (flat gs)
      obtain ⟨-, -, -, -, -, -, -, -, hzero⟩ := hgs.head
      obtain ⟨b, hb, hiff⟩ := ih (front ++ g.bytes) gs hgs.tail (List.append_assoc ..).symm
        (hbal.2 g gs rfl)
      rw [List.length_append] at hb
      rw [doGlobMatch, flat_cons, hget]
      simp only [Option.bind_eq_bind, Option.bind_some, if_neg hzero]
      exact ⟨b, hb, hiff.trans matches_one_cons.symm⟩
  | @text ls items hls _ hend ih =>
    rintro front gs hgs rfl hbal
    rw [itemTokens_text hls.valid] at hbal ⊢
    have hcount := hls.valid.length_le
    have hint : sizeT (toInt ls.length) = ls.length := by
      have hlt := Nat.lt_of_le_of_lt hcount hls.short
      rw [toInt_natCast hlt, sizeT_natCast hlt]
    obtain ⟨b, hequal, hbegins⟩ := doUStrncaseEqual_flat (L := L) hls.valid hgs [] front
    rw [List.nil_append, List.length_nil] at hequal
    rw [doGlobMatch, uStrlen_flat hls.valid, Option.bind_eq_bind, Option.bind_some, hint,
      uStrncaseEqualBase, hequal, Option.bind_eq_bind, Option.bind_some]
    cases b with
    | false =>
      refine ⟨false, rfl, iff_of_false nofun fun hmatch => ?_⟩
      exact Bool.false_ne_true (hbegins.mpr (matches_lits_iff.mp hmatch).1)
    | true =>
      obtain ⟨hsize, hafter⟩ :=
        length_flat_of_balanced (rowEnd_itemTokens hend) hbal (hbegins.mp rfl)
      obtain ⟨b, hb, hiff⟩ := ih (front ++ flat (gs.take ls.length)) (gs.drop ls.length)
        (hgs.drop _) (by rw [List.append_assoc, ← flat_take_drop]) hafter
      rw [List.length_append, ← hsize] at hb
      exact ⟨b, hb, hiff.trans (matches_lits_iff.trans (and_iff_right (hbegins.mp rfl))).symm⟩
  | @star ls items hls _ hend ih =>
    rintro front gs hgs htext hbal
    have htokens : itemTokens (.star :: .text (flat ls) :: items) =
        .any :: (ls.map .lit ++ itemTokens items) := by
      rw [← itemTokens_text hls.valid]
      rfl
    rw [htokens] at hbal ⊢
    have hcount := hgs.length_le
    rw [doGlobMatch]
    refine starLoop_matches hls (rowEnd_itemTokens hend) ih hshort front [] nofun hgs
      (by rw [htext, List.nil_append]) ?_ hbal
    rw [htext, List.length_append]
    omega

/-- **A glob matches as its pattern is meant**, where the matcher comes only to texts that
have as many bytes as what they are found in. -/
theorem glob_match_correct (L : Locale) {pattern text : Text} (hpattern : uIsValid pattern)
    (htext : uIsValid text) (hpz : 0 ∉ pattern) (htz : 0 ∉ text) (hplen : pattern.length < 2 ^ 31)
    (htlen : text.length < 2 ^ 31)
    (hbal : Balanced (SameBase L) Glyph.size Glyph.size (tokens (glyphs pattern)) 0 0
      (glyphs text)) :
    ∃ items b, globCompile pattern = some items ∧ globMatch L items text = some b ∧
      (b = true ↔ Matches (SameBase L) (tokens (glyphs pattern)) (glyphs text)) := by
  obtain ⟨ps, hps, rfl⟩ := exists_glyphs hpattern hpz
  obtain ⟨gs, hgs, rfl⟩ := exists_glyphs htext htz
  rw [glyphs_flat hps, glyphs_flat hgs] at *
  obtain ⟨items, hitems, hproper, hsame⟩ := globCompile_flat (R := SameBase L) (w := Glyph.size)
    (v := Glyph.size) hps hplen
  obtain ⟨b, hb, hiff⟩ := doGlobMatch_matches (L := L) hproper htlen [] gs hgs rfl
    ((hsame.balanced_iff 0 0 gs).mp hbal)
  exact ⟨items, b, hitems, hb, hiff.trans (hsame.matches_iff gs).symm⟩

theorem glob_match_correct_ascii :
    ∃ items b, globCompile (ascii "*b?") = some items ∧
      globMatch .c items (ascii "abc") = some b ∧ (b = true ↔
        Matches (SameBase .c) (tokens (glyphs (ascii "*b?"))) (glyphs (ascii "abc"))) := by
  refine glob_match_correct .c (by decide) (by decide) (by decide) (by decide) (by decide)
    (by decide) (balanced_of_sizes (fun c x hc hx _ => ?_) 0)
  have htokens : tokens (glyphs (ascii "*b?")) = [.any, .lit ⟨ascii "b", 98⟩, .one] := by decide
  have hsizes : ∀ g ∈ glyphs (ascii "abc"), g.size = 1 := by decide
  rw [htokens] at hc
  simp only [List.mem_cons, Token.lit.injEq, reduceCtorEq, List.not_mem_nil, or_false,
    false_or] at hc
  rw [hsizes x hx, hc]
  rfl

/-- **A base letter has fewer bytes than its composed character**: the index is moved by the
two bytes of the pattern behind the end of the text. -/
theorem shorter_match_read_past_end :
    uIsValid [0xc3, 0xa9] ∧ uIsValid (ascii "e") ∧
    ∃ items, globCompile [0xc3, 0xa9] = some items ∧ globMatch .c items (ascii "e") = none ∧
      Matches (SameBase .c) (tokens (glyphs [0xc3, 0xa9])) (glyphs (ascii "e")) := by
  refine ⟨by decide, by decide, [.text [0xc3, 0xa9]], by decide, by decide +kernel, ?_⟩
  have htokens : tokens (glyphs [0xc3, 0xa9]) = [.lit ⟨[0xc3, 0xa9], 0xe9⟩] := by decide
  have hglyphs : glyphs (ascii "e") = [⟨ascii "e", 0x65⟩] := by decide
  have hsame : foldBase .c 0xe9 = foldBase .c 0x65 := by decide +kernel
  rw [htokens, hglyphs]
  exact .lit hsame .nil

end

end GracefulMusic.Glob
