import GracefulMusic.Uchar.Search

/-! Patterns of a glob, compiled (`glob.c`).

A pattern is taken apart into items, and in each row of wildcards those for a character
are moved to the front and of the others one is left. -/
namespace GracefulMusic.Glob
open Wildcard

inductive GlobItem where
  | star
  | qmark
  | text (text : Text)
  deriving DecidableEq

/-! ### Compilation -/

/-- The length of a text up to the next wildcard, without the backslashes. -/
def textLen : Text → Nat
  | [] => 0
  | c :: s =>
    if c = ch '\\' then
      match s with
      | [] => 1
      | _ :: s => textLen s + 1
    else if c = ch '*' then 0
    else if c = ch '?' then 0
    else textLen s + 1

/-- So many characters of a text, and what comes after them. -/
def copyText : Nat → Text → Text × Text
  | 0, s => ([], s)
  | _ + 1, [] => ([], [])
  | len + 1, c :: s =>
    if c = ch '\\' then
      match s with
      | [] => let (str, rest) := copyText len []; (ch '\\' :: str, rest)
      | d :: s => let (str, rest) := copyText len s; (d :: str, rest)
    else let (str, rest) := copyText len s; (c :: str, rest)

def compileLoop : Nat → Text → List GlobItem
  | 0, _ => []
  | _, [] => []
  | fuel + 1, c :: s =>
    if c = ch '*' then .star :: compileLoop fuel s
    else if c = ch '?' then .qmark :: compileLoop fuel s
    else
      let (str, rest) := copyText (textLen (c :: s)) (c :: s)
      .text str :: compileLoop fuel rest

/-- A row of wildcards after all question marks were moved to the front and all stars but
the last removed. -/
def ordered (qcount scount : Nat) : List GlobItem :=
  List.replicate qcount .qmark ++ if scount = 0 then [] else [.star]

/-- The wildcards are counted up to the next text. -/
def simplifyLoop : List GlobItem → (qcount scount : Nat) → List GlobItem
  | [], qcount, scount => ordered qcount scount
  | .star :: items, qcount, scount => simplifyLoop items qcount (scount + 1)
  | .qmark :: items, qcount, scount => simplifyLoop items (qcount + 1) scount
  | .text t :: items, qcount, scount => ordered qcount scount ++ .text t :: simplifyLoop items 0 0

def simplify (items : List GlobItem) : List GlobItem := simplifyLoop items 0 0

/-- The index into the pattern is an `int`. -/
def globCompile (pattern : Text) : Option (List GlobItem) :=
  if 2 ^ 31 ≤ pattern.length then none
  else some (simplify (compileLoop pattern.length pattern))

/-! ### Patterns as they are meant -/

/-- The tokens of a pattern: a backslash takes the wildcard out of the next character. -/
def tokens : List Glyph → List (Token Glyph)
  | [] => []
  | g :: gs =>
    if g.val = uch '*' then .any :: tokens gs
    else if g.val = uch '?' then .one :: tokens gs
    else if g.val = uch '\\' then
      match gs with
      | [] => [.lit g]
      | h :: gs => .lit h :: tokens gs
    else .lit g :: tokens gs

/-- The tokens of an item. -/
def GlobItem.tokens : GlobItem → List (Token Glyph)
  | .star => [.any]
  | .qmark => [.one]
  | .text t => (glyphs t).map .lit

def itemTokens (items : List GlobItem) : List (Token Glyph) := items.flatMap GlobItem.tokens

end GracefulMusic.Glob

/-! What the items of a pattern stand for (`glob.c`).

The bytes of a pattern are taken apart as its characters would be, since no byte of a
longer character is one of the three that have a meaning. Items in the order in which
`simplify` leaves them are no different from the pattern to who goes through a text with
them. -/
namespace GracefulMusic.Glob
open Wildcard (Token Same RowEnd)

/-! ### Bytes of a pattern -/

/-- A byte that is neither a backslash nor a wildcard. -/
def Plain (c : UInt8) : Prop := c ≠ ch '\\' ∧ c ≠ ch '*' ∧ c ≠ ch '?'

theorem textLen_plain {bs : Text} (h : ∀ c ∈ bs, Plain c) (s : Text) :
    textLen (bs ++ s) = bs.length + textLen s := by
  induction bs with
  | nil => exact (Nat.zero_add _).symm
  | cons c bs ih =>
    obtain ⟨hslash, hstar, hmark⟩ := h c (List.mem_cons_self ..)
    rw [List.cons_append, textLen.eq_def]
    dsimp only
    rw [if_neg hslash, if_neg hstar, if_neg hmark,
      ih fun d hd => h d (List.mem_cons_of_mem c hd), List.length_cons]
    omega

theorem textLen_star (s : Text) : textLen (ch '*' :: s) = 0 := by
  rw [textLen.eq_def]
  dsimp only
  rw [if_neg (by decide), if_pos rfl]

theorem textLen_qmark (s : Text) : textLen (ch '?' :: s) = 0 := by
  rw [textLen.eq_def]
  dsimp only
  rw [if_neg (by decide), if_neg (by decide), if_pos rfl]

theorem textLen_ne_zero {c : UInt8} (hstar : c ≠ ch '*') (hmark : c ≠ ch '?') (s : Text) :
    textLen (c :: s) ≠ 0 := by
  rw [textLen.eq_def]
  dsimp only
  split
  · split <;> exact Nat.succ_ne_zero _
  · exact Nat.succ_ne_zero _

theorem textLen_le (s : Text) : textLen s ≤ s.length := by
  induction s using textLen.induct with
  | case1 => exact Nat.le_refl _
  | case2 =>
    rw [textLen.eq_def]
    dsimp only
    rw [if_pos rfl]
    exact Nat.le_refl _
  | case3 d s ih =>
    rw [textLen.eq_def]
    dsimp only
    rw [if_pos rfl]
    exact Nat.le_succ_of_le (Nat.succ_le_succ ih)
  | case4 s =>
    rw [textLen_star]
    exact Nat.zero_le _
  | case5 s =>
    rw [textLen_qmark]
    exact Nat.zero_le _
  | case6 c s hslash hstar hmark ih =>
    rw [textLen.eq_def]
    dsimp only
    rw [if_neg hslash, if_neg hstar, if_neg hmark]
    exact Nat.succ_le_succ ih

theorem copyText_zero (s : Text) : copyText 0 s = ([], s) := by
  cases s <;> rfl

theorem copyText_length_le (n : Nat) (s : Text) : (copyText n s).2.length ≤ s.length := by
  induction n generalizing s with
  | zero => exact Nat.le_of_eq (by rw [copyText_zero])
  | succ n ih =>
    cases s with
    | nil => exact Nat.le_refl _
    | cons c s =>
      rw [copyText.eq_def]
      dsimp only
      split
      · split
        · exact Nat.le_succ_of_le (ih [])
        · exact Nat.le_succ_of_le (Nat.le_succ_of_le (ih _))
      · exact Nat.le_succ_of_le (ih _)

theorem copyText_plain {bs : Text} (h : ∀ c ∈ bs, Plain c) (n : Nat) (s : Text) :
    copyText (bs.length + n) (bs ++ s) = (bs ++ (copyText n s).1, (copyText n s).2) := by
  induction bs with
  | nil => rw [List.length_nil, Nat.zero_add]; rfl
  | cons c bs ih =>
    have hlength : (c :: bs).length + n = bs.length + n + 1 := by
      rw [List.length_cons]
      omega
    rw [hlength, List.cons_append, copyText.eq_def]
    dsimp only
    rw [if_neg (h c (List.mem_cons_self ..)).1, ih fun d hd => h d (List.mem_cons_of_mem c hd)]
    rfl

theorem plain_of_le {c : UInt8} (h : 128 ≤ c) : Plain c := by
  revert c
  have hall : ∀ c : UInt8, 128 ≤ c → Plain c := forall_byte (by unfold Plain; decide +kernel)
  exact fun {c} => hall c

theorem uch_eq_iff (c : UInt8) (d : Char) (hd : d = '*' ∨ d = '?' ∨ d = '\\') :
    c.toUInt32 = uch d ↔ c = ch d := by
  rcases hd with rfl | rfl | rfl <;>
  · rw [← UInt32.toNat_inj, ← UInt8.toNat_inj, UInt8.toNat_toUInt32]
    rfl

/-- A character with a meaning is its byte; all bytes of the others are plain. -/
theorem glyph_cases {g : Glyph} (hg : g.Valid) :
    (g.bytes = [ch '*'] ∧ g.val = uch '*') ∨ (g.bytes = [ch '?'] ∧ g.val = uch '?') ∨
    (g.bytes = [ch '\\'] ∧ g.val = uch '\\') ∨
    ((∀ c ∈ g.bytes, Plain c) ∧ g.val ≠ uch '*' ∧ g.val ≠ uch '?' ∧ g.val ≠ uch '\\') := by
  rcases hg.ascii_or with ⟨c, -, hbytes, hval⟩ | ⟨hbytes, hval⟩
  · have hstar := uch_eq_iff c '*' (.inl rfl)
    have hmark := uch_eq_iff c '?' (.inr (.inl rfl))
    have hslash := uch_eq_iff c '\\' (.inr (.inr rfl))
    simp only [hbytes, hval, ne_eq, hstar, hmark, hslash, List.cons.injEq, and_true, and_self,
      List.mem_singleton, forall_eq, Plain]
    tauto
  · refine .inr (.inr (.inr ⟨fun d hd => plain_of_le (hbytes d hd), ?_, ?_, ?_⟩)) <;>
    · rintro heq
      rw [heq] at hval
      exact absurd hval (by decide)

/-- All bytes after the first are plain. -/
theorem exists_bytes {g : Glyph} (hg : g.Valid) :
    ∃ b bs, g.bytes = b :: bs ∧ ∀ c ∈ bs, Plain c := by
  rcases glyph_cases hg with ⟨h, -⟩ | ⟨h, -⟩ | ⟨h, -⟩ | ⟨h, -⟩
  · exact ⟨_, [], h, nofun⟩
  · exact ⟨_, [], h, nofun⟩
  · exact ⟨_, [], h, nofun⟩
  · obtain ⟨c, cs, hbytes, -⟩ := hg
    exact ⟨c, cs, hbytes, fun d hd => h d (hbytes ▸ List.mem_cons_of_mem c hd)⟩

/-! ### A text of a pattern -/

/-- Where a text ends. -/
def TextEnd (ps : List Glyph) : Prop := ∀ g ∈ ps.head?, g.val = uch '*' ∨ g.val = uch '?'

/-- The characters `ls` that a pattern has for a text up to `rest`. -/
structure Row (ps ls rest : List Glyph) : Prop where
  valid : AllValid ls
  rest_valid : AllValid rest
  tokens_eq : tokens ps = ls.map .lit ++ tokens rest
  textEnd : TextEnd rest
  textLen_eq : textLen (flat ps) = (flat ls).length
  copyText_eq : copyText (flat ls).length (flat ps) = (flat ls, flat rest)
  length_le : rest.length + ls.length ≤ ps.length

/-- A wildcard ends the text before it. -/
theorem row_of_textEnd {ps : List Glyph} (hps : AllValid ps) (hend : TextEnd ps)
    (hlen : textLen (flat ps) = 0) : Row ps [] ps :=
  ⟨nofun, hps, rfl, hend, hlen, copyText_zero _, Nat.le_refl _⟩

theorem Row.plain {g : Glyph} {gs ls rest : List Glyph} (h : Row gs ls rest) (hg : g.Valid)
    (hplain : ∀ c ∈ g.bytes, Plain c) (htokens : tokens (g :: gs) = .lit g :: tokens gs) :
    Row (g :: gs) (g :: ls) rest where
  valid := List.forall_mem_cons.mpr ⟨hg, h.valid⟩
  rest_valid := h.rest_valid
  tokens_eq := by rw [htokens, h.tokens_eq]; rfl
  textEnd := h.textEnd
  textLen_eq := by
    rw [flat_cons, flat_cons, textLen_plain hplain, h.textLen_eq, List.length_append]
  copyText_eq := by
    rw [flat_cons, flat_cons, List.length_append, copyText_plain hplain, h.copyText_eq]
  length_le := Nat.succ_le_succ h.length_le

/-- A character behind a backslash. -/
theorem Row.escaped {g h : Glyph} {gs ls rest : List Glyph} (hrow : Row gs ls rest) (hh : h.Valid)
    (hg : g.bytes = [ch '\\']) (htokens : tokens (g :: h :: gs) = .lit h :: tokens gs) :
    Row (g :: h :: gs) (h :: ls) rest := by
  obtain ⟨b, bs, hbytes, hplain⟩ := exists_bytes hh
  refine ⟨List.forall_mem_cons.mpr ⟨hh, hrow.valid⟩, hrow.rest_valid, ?_, hrow.textEnd, ?_, ?_,
    Nat.le_succ_of_le (Nat.succ_le_succ hrow.length_le)⟩
  · rw [htokens, hrow.tokens_eq]
    rfl
  · rw [flat_cons, flat_cons, flat_cons, hg, hbytes, List.singleton_append, List.cons_append,
      textLen.eq_def]
    dsimp only
    rw [if_pos rfl, textLen_plain hplain, hrow.textLen_eq, List.cons_append, List.length_cons,
      List.length_append]
  · have hlength : (flat (h :: ls)).length = bs.length + (flat ls).length + 1 := by
      rw [flat_cons, hbytes, List.length_append, List.length_cons]
      omega
    rw [hlength, flat_cons, flat_cons, flat_cons, hg, hbytes, List.singleton_append,
      List.cons_append, List.cons_append, copyText.eq_def]
    dsimp only
    rw [if_pos rfl, copyText_plain hplain, hrow.copyText_eq]

/-- **A text is taken as its characters.** -/
theorem exists_row {ps : List Glyph} (hps : AllValid ps) : ∃ ls rest, Row ps ls rest := by
  induction ps using tokens.induct with
  | case1 => exact ⟨[], [], row_of_textEnd hps nofun rfl⟩
  | case2 g gs hstar =>
    rcases glyph_cases hps.head with ⟨hbytes, -⟩ | ⟨-, hval⟩ | ⟨-, hval⟩ | ⟨-, hne, -⟩
    · refine ⟨[], _, row_of_textEnd hps (fun u hu => ?_) ?_⟩
      · cases hu
        exact .inl hstar
      · rw [flat_cons, hbytes]
        exact textLen_star _
    · exact absurd (hstar.symm.trans hval) (by decide)
    · exact absurd (hstar.symm.trans hval) (by decide)
    · exact absurd hstar hne
  | case3 g gs _ hmark =>
    rcases glyph_cases hps.head with ⟨-, hval⟩ | ⟨hbytes, -⟩ | ⟨-, hval⟩ | ⟨-, -, hne, -⟩
    · exact absurd (hmark.symm.trans hval) (by decide)
    · refine ⟨[], _, row_of_textEnd hps (fun u hu => ?_) ?_⟩
      · cases hu
        exact .inr hmark
      · rw [flat_cons, hbytes]
        exact textLen_qmark _
    · exact absurd (hmark.symm.trans hval) (by decide)
    · exact absurd hmark hne
  | case4 g hstar hmark hslash =>
    rcases glyph_cases hps.head with ⟨-, hval⟩ | ⟨-, hval⟩ | ⟨hbytes, -⟩ | ⟨-, -, -, hne⟩
    · exact absurd hval hstar
    · exact absurd hval hmark
    · have htokens : tokens [g] = [.lit g] := by
        rw [tokens.eq_def]
        dsimp only
        rw [if_neg hstar, if_neg hmark, if_pos hslash]
      refine ⟨[g], [], hps, nofun, htokens, nofun, ?_, ?_, Nat.le_refl _⟩
      · rw [flat_cons, hbytes]
        rfl
      · rw [flat_cons, hbytes]
        rfl
    · exact absurd hslash hne
  | case5 g hstar hmark hslash h gs ih =>
    obtain ⟨ls, rest, hrow⟩ := ih hps.tail.tail
    rcases glyph_cases hps.head with ⟨-, hval⟩ | ⟨-, hval⟩ | ⟨hbytes, -⟩ | ⟨-, -, -, hne⟩
    · exact absurd hval hstar
    · exact absurd hval hmark
    · refine ⟨h :: ls, rest, hrow.escaped hps.tail.head hbytes ?_⟩
      rw [tokens.eq_def]
      dsimp only
      rw [if_neg hstar, if_neg hmark, if_pos hslash]
    · exact absurd hslash hne
  | case6 g gs hstar hmark hslash ih =>
    obtain ⟨ls, rest, hrow⟩ := ih hps.tail
    rcases glyph_cases hps.head with ⟨-, hval⟩ | ⟨-, hval⟩ | ⟨-, hval⟩ | ⟨hplain, -⟩
    · exact absurd hval hstar
    · exact absurd hval hmark
    · exact absurd hval hslash
    · refine ⟨g :: ls, rest, hrow.plain hps.head hplain ?_⟩
      rw [tokens.eq_def]
      dsimp only
      rw [if_neg hstar, if_neg hmark, if_neg hslash]

/-! ### Items of a pattern -/

def NoText : List GlobItem → Prop
  | .text _ :: _ => False
  | _ => True

/-- A text of an item: characters, and not too many for an `int`. -/
structure IsText (ls : List Glyph) : Prop where
  valid : AllValid ls
  ne_nil : ls ≠ []
  short : (flat ls).length < 2 ^ 31

/-- Each text is a row of characters with something else behind it. -/
inductive Raw : List GlobItem → Prop where
  | nil : Raw []
  | star {items : List GlobItem} : Raw items → Raw (.star :: items)
  | qmark {items : List GlobItem} : Raw items → Raw (.qmark :: items)
  | text {ls : List Glyph} {items : List GlobItem} : IsText ls → Raw items → NoText items →
      Raw (.text (flat ls) :: items)

theorem itemTokens_text {ls : List Glyph} (hls : AllValid ls) (items : List GlobItem) :
    itemTokens (.text (flat ls) :: items) = ls.map .lit ++ itemTokens items := by
  rw [itemTokens, List.flatMap_cons, GlobItem.tokens, glyphs_flat hls]
  rfl

theorem rowEnd_itemTokens {items : List GlobItem} (h : NoText items) : RowEnd (itemTokens items) := by
  cases items with
  | nil => trivial
  | cons item items =>
    cases item with
    | star => trivial
    | qmark => trivial
    | text t => exact h.elim

/-- **The items of a pattern** before they are simplified. -/
theorem compileLoop_flat {ps : List Glyph} (hps : AllValid ps)
    (hshort : (flat ps).length < 2 ^ 31) {fuel : Nat} (hfuel : ps.length ≤ fuel) :
    Raw (compileLoop fuel (flat ps)) ∧ itemTokens (compileLoop fuel (flat ps)) = tokens ps ∧
      (TextEnd ps → NoText (compileLoop fuel (flat ps))) := by
  induction fuel generalizing ps with
  | zero =>
    obtain rfl := List.eq_nil_of_length_eq_zero (Nat.le_zero.mp hfuel)
    exact ⟨.nil, rfl, fun _ => trivial⟩
  | succ fuel ih =>
    cases ps with
    | nil => exact ⟨.nil, rfl, fun _ => trivial⟩
    | cons g gs =>
      have htail : (flat gs).length ≤ (flat (g :: gs)).length := by
        rw [flat_cons, List.length_append]
        omega
      have hrest := ih hps.tail (by omega) (Nat.le_of_succ_le_succ hfuel)
      -- what the item is, by the first byte
      have htext : ∀ c cs, g.bytes = c :: cs → c ≠ ch '*' → c ≠ ch '?' → g.val ≠ uch '*' →
          g.val ≠ uch '?' → Raw (compileLoop (fuel + 1) (flat (g :: gs))) ∧
          itemTokens (compileLoop (fuel + 1) (flat (g :: gs))) = tokens (g :: gs) ∧
          (TextEnd (g :: gs) → NoText (compileLoop (fuel + 1) (flat (g :: gs)))) := by
        intro c cs hbytes hstar hmark hval hval'
        obtain ⟨ls, rest, hrow⟩ := exists_row hps
        have hne : ls ≠ [] := by
          intro heq
          subst heq
          have hlen := hrow.textLen_eq
          rw [flat_cons, hbytes] at hlen
          exact textLen_ne_zero hstar hmark _ hlen
        have hpos := List.length_pos_iff.mpr hne
        have hle := hrow.length_le
        have hlen := hrow.textLen_eq
        have hcopy := hrow.copyText_eq
        have hleLen := textLen_le (flat (g :: gs))
        have hleCopy := copyText_length_le (flat ls).length (flat (g :: gs))
        rw [hcopy] at hleCopy
        dsimp only at hleCopy
        obtain ⟨hraw, htokens, hend⟩ := ih hrow.rest_valid (by omega) (by omega)
        have hloop : compileLoop (fuel + 1) (flat (g :: gs)) =
            .text (flat ls) :: compileLoop fuel (flat rest) := by
          rw [← hlen] at hcopy
          rw [flat_cons, hbytes, List.cons_append] at hcopy ⊢
          rw [compileLoop, if_neg hstar, if_neg hmark, hcopy]
        rw [hloop]
        refine ⟨.text ⟨hrow.valid, hne, by omega⟩ hraw (hend hrow.textEnd), ?_, fun h => ?_⟩
        · rw [itemTokens_text hrow.valid, htokens, hrow.tokens_eq]
        · exact absurd (h g rfl) (not_or.mpr ⟨hval, hval'⟩)
      rcases glyph_cases hps.head with ⟨hbytes, hval⟩ | ⟨hbytes, hval⟩ | ⟨hbytes, hval⟩ |
        ⟨hplain, hstar, hmark, -⟩
      · have hloop : compileLoop (fuel + 1) (flat (g :: gs)) = .star :: compileLoop fuel (flat gs) := by
          rw [flat_cons, hbytes, List.singleton_append, compileLoop, if_pos rfl]
        rw [hloop]
        refine ⟨.star hrest.1, ?_, fun _ => trivial⟩
        rw [tokens.eq_def]
        dsimp only
        rw [if_pos hval, ← hrest.2.1]
        rfl
      · have hloop : compileLoop (fuel + 1) (flat (g :: gs)) = .qmark :: compileLoop fuel (flat gs) := by
          rw [flat_cons, hbytes, List.singleton_append, compileLoop, if_neg (by decide), if_pos rfl]
        rw [hloop]
        refine ⟨.qmark hrest.1, ?_, fun _ => trivial⟩
        rw [tokens.eq_def]
        dsimp only
        rw [if_neg (by rw [hval]; decide), if_pos hval, ← hrest.2.1]
        rfl
      · exact htext _ _ hbytes (by decide) (by decide) (by rw [hval]; decide) (by rw [hval]; decide)
      · obtain ⟨c, cs, hbytes, -⟩ := hps.head
        have hc := hplain c (hbytes ▸ List.mem_cons_self ..)
        exact htext c cs hbytes hc.2.1 hc.2.2 hstar hmark

/-! ### Simplification -/

/-- What the matcher relies on: behind a star there is a text or the end. -/
inductive Proper : List GlobItem → Prop where
  | nil : Proper []
  | last : Proper [.star]
  | qmark {items : List GlobItem} : Proper items → Proper (.qmark :: items)
  | text {ls : List Glyph} {items : List GlobItem} : IsText ls → Proper items → NoText items →
      Proper (.text (flat ls) :: items)
  | star {ls : List Glyph} {items : List GlobItem} : IsText ls → Proper items → NoText items →
      Proper (.star :: .text (flat ls) :: items)

theorem itemTokens_append (a b : List GlobItem) :
    itemTokens (a ++ b) = itemTokens a ++ itemTokens b := List.flatMap_append

theorem itemTokens_ordered (qcount scount : Nat) :
    itemTokens (ordered qcount scount) = Wildcard.ordered qcount scount := by
  rw [ordered, itemTokens_append, Wildcard.ordered]
  congr 1
  · induction qcount with
    | zero => rfl
    | succ qcount ih => rw [List.replicate_succ, List.replicate_succ, ← ih]; rfl
  · split <;> rfl

theorem proper_replicate {items : List GlobItem} (h : Proper items) (qcount : Nat) :
    Proper (List.replicate qcount .qmark ++ items) := by
  induction qcount with
  | zero => exact h
  | succ qcount ih => exact .qmark ih

theorem proper_ordered (qcount scount : Nat) : Proper (ordered qcount scount) := by
  refine proper_replicate ?_ qcount
  split
  · exact .nil
  · exact .last

theorem proper_ordered_text {ls : List Glyph} {items : List GlobItem} (hls : IsText ls)
    (h : Proper items) (hend : NoText items) (qcount scount : Nat) :
    Proper (ordered qcount scount ++ .text (flat ls) :: items) := by
  rw [ordered, List.append_assoc]
  refine proper_replicate ?_ qcount
  split
  · exact .text hls h hend
  · exact .star hls h hend

theorem noText_ordered {qcount scount : Nat} (h : 0 < qcount ∨ 0 < scount) (items : List GlobItem) :
    NoText (ordered qcount scount ++ items) := by
  rw [ordered]
  cases qcount with
  | succ qcount => trivial
  | zero =>
    rw [if_neg (by omega)]
    trivial

theorem noText_simplifyLoop {items : List GlobItem} {qcount scount : Nat}
    (h : 0 < qcount ∨ 0 < scount ∨ NoText items) : NoText (simplifyLoop items qcount scount) := by
  induction items generalizing qcount scount with
  | nil =>
    rw [simplifyLoop]
    by_cases hpos : 0 < qcount ∨ 0 < scount
    · simpa only [List.append_nil] using noText_ordered hpos []
    · obtain ⟨rfl, rfl⟩ : qcount = 0 ∧ scount = 0 := by omega
      trivial
  | cons item items ih =>
    cases item with
    | star => exact ih (.inr (.inl (Nat.succ_pos _)))
    | qmark => exact ih (.inl (Nat.succ_pos _))
    | text t =>
      have hpos : 0 < qcount ∨ 0 < scount := by
        rcases h with h | h | h
        · exact .inl h
        · exact .inr h
        · exact h.elim
      exact noText_ordered hpos _

section
variable {R : Glyph → Glyph → Prop} {w v : Glyph → Nat}

/-- **Simplified items make no difference.** -/
theorem simplifyLoop_tokens (items : List GlobItem) (qcount scount : Nat) :
    Same R w v (Wildcard.ordered qcount scount ++ itemTokens items)
      (itemTokens (simplifyLoop items qcount scount)) := by
  induction items generalizing qcount scount with
  | nil =>
    rw [simplifyLoop, itemTokens_ordered]
    show Same R w v (Wildcard.ordered qcount scount ++ []) _
    rw [List.append_nil]
    exact .refl _
  | cons item items ih =>
    cases item with
    | star => exact (Wildcard.same_ordered_any ..).trans (ih qcount (scount + 1))
    | qmark => exact (Wildcard.same_ordered_one ..).trans (ih (qcount + 1) scount)
    | text t =>
      rw [simplifyLoop, itemTokens_append, itemTokens_ordered]
      exact ((ih 0 0).append _).append _

/-- **Simplified items are in order.** -/
theorem simplifyLoop_proper {items : List GlobItem} (h : Raw items) (qcount scount : Nat) :
    Proper (simplifyLoop items qcount scount) := by
  induction h generalizing qcount scount with
  | nil => exact proper_ordered qcount scount
  | star _ ih => exact ih qcount (scount + 1)
  | qmark _ ih => exact ih (qcount + 1) scount
  | text hls _ hend ih =>
    exact proper_ordered_text hls (ih 0 0) (noText_simplifyLoop (.inr (.inr hend))) ..

/-- **What a compiled pattern stands for**. -/
theorem globCompile_flat {ps : List Glyph} (hps : AllValid ps) (hlen : (flat ps).length < 2 ^ 31) :
    ∃ items, globCompile (flat ps) = some items ∧ Proper items ∧
      Same R w v (tokens ps) (itemTokens items) := by
  obtain ⟨hraw, htokens, -⟩ := compileLoop_flat hps hlen hps.length_le
  refine ⟨_, if_neg (Nat.not_le.mpr hlen), simplifyLoop_proper hraw 0 0, ?_⟩
  rw [← htokens]
  exact simplifyLoop_tokens _ 0 0

end

end GracefulMusic.Glob
