import GracefulMusic.Uchar.Boundaries
import GracefulMusic.Uchar.Glyphs

/-! Comparison and search on rows of characters (`uchar.c`).

The search goes on by characters of the text, and where it was started in the middle of
one, by bytes up to the next; such a byte is equal to no character. -/
namespace GracefulMusic
open Wildcard

section
variable (L : Locale)

/-- Equal but for case and what is put on a letter. -/
def SameBase (g h : Glyph) : Prop := foldBase L g.val = foldBase L h.val

/-- What characters are compared by. -/
def foldChar (onlyBaseChars : Bool) (u : Uchar) : Uchar :=
  if onlyBaseChars then foldBase L u else uCasefoldChar L u

/-- What a search from a place on is to return. -/
def Found (ls gs : List Glyph) (start : Nat) : Option Nat → Prop
  | none => ∀ k ≤ gs.length, ¬ Begins (SameBase L) ls (gs.drop k)
  | some pos => ∃ k ≤ gs.length, pos = start + (flat (gs.take k)).length ∧
      Begins (SameBase L) ls (gs.drop k) ∧ ∀ j < k, ¬ Begins (SameBase L) ls (gs.drop j)

variable {L} {ls gs : List Glyph}

theorem uStrlen_flat (h : AllValid ls) : uStrlen (flat ls) = some ls.length := by
  suffices hloop : ∀ fuel, ls.length ≤ fuel → uStrlenLoop fuel (flat ls) = some ls.length from
    hloop _ h.length_le
  intro fuel
  induction ls generalizing fuel with
  | nil => cases fuel <;> exact fun _ => rfl
  | cons g ls ih =>
    intro hfuel
    obtain ⟨fuel, rfl⟩ := Nat.exists_eq_add_one_of_ne_zero (Nat.ne_of_gt
      (Nat.lt_of_lt_of_le (Nat.succ_pos _) hfuel))
    obtain ⟨c, cs, hbytes, hlen, -⟩ := h.head
    have hskip : utf8Skip c = (c :: cs).length := by
      have hskip := utf8Skip_eq c (by omega)
      rw [List.length_cons]
      omega
    rw [flat_cons, hbytes, List.cons_append, uStrlenLoop, hskip, if_pos, ← List.cons_append,
      List.drop_left, ih h.tail fuel (Nat.le_of_succ_le_succ hfuel)]
    · rfl
    · rw [List.length_cons, List.length_append]
      omega

theorem doUStrncaseEqual_next {onlyBaseChars : Bool} {a b : Text} {au bu : Uchar}
    {ai ai' bi bi' : Nat} (ha : uGetChar a ai = some (au, ai'))
    (hb : uGetChar b bi = some (bu, bi')) (len : Nat) :
    doUStrncaseEqual L onlyBaseChars a b (len + 1) ai bi =
      if foldChar L onlyBaseChars au ≠ foldChar L onlyBaseChars bu then some false
      else doUStrncaseEqual L onlyBaseChars a b len ai' bi' := by
  rw [doUStrncaseEqual, ha]
  simp only [Option.bind_eq_bind, Option.bind_some, hb, foldChar, foldBase]
  cases onlyBaseChars with
  | false => simp only [Bool.false_eq_true, if_false]
  | true => simp only [if_true]

theorem doUStrncaseEqual_succ {a b : Text} {au bu : Uchar} {ai ai' bi bi' : Nat}
    (ha : uGetChar a ai = some (au, ai')) (hb : uGetChar b bi = some (bu, bi')) (len : Nat) :
    doUStrncaseEqual L true a b (len + 1) ai bi =
      if foldBase L au ≠ foldBase L bu then some false
      else doUStrncaseEqual L true a b len ai' bi' :=
  doUStrncaseEqual_next ha hb len

/-- **The comparison**: whether the text begins with characters that are the same. -/
theorem doUStrncaseEqual_flat (hls : AllValid ls) (hgs : AllValid gs) (fa fb : Text) :
    ∃ b, doUStrncaseEqual L true (fa ++ flat ls) (fb ++ flat gs) ls.length fa.length fb.length =
      some b ∧ (b = true ↔ Begins (SameBase L) ls gs) := by
  induction ls generalizing gs fa fb with
  | nil => exact ⟨true, rfl, iff_of_true rfl begins_nil⟩
  | cons l ls ih =>
    have ha := uGetChar_glyph hls.head fa (flat ls)
    rw [flat_cons, List.length_cons]
    cases gs with
    | nil =>
      have hb := uGetChar_end (fb ++ flat [])
      have hne : foldBase L l.val ≠ foldBase L 0 := by
        rw [foldBase_zero]
        obtain ⟨-, -, -, -, -, -, -, -, hzero⟩ := hls.head
        exact foldBase_ne_zero L hzero
      rw [flat_nil, List.append_nil] at hb ⊢
      rw [doUStrncaseEqual_succ ha hb, if_pos hne]
      exact ⟨false, rfl, iff_of_false nofun begins_cons_nil⟩
    | cons g gs =>
      have hb := uGetChar_glyph hgs.head fb (flat gs)
      rw [flat_cons, doUStrncaseEqual_succ ha hb]
      by_cases hsame : foldBase L l.val = foldBase L g.val
      · obtain ⟨b, hrest, hb⟩ := ih hls.tail hgs.tail (fa ++ l.bytes) (fb ++ g.bytes)
        rw [if_neg (not_not.mpr hsame)]
        have hbegins : Begins (SameBase L) (l :: ls) (g :: gs) ↔ Begins (SameBase L) ls gs :=
          begins_cons_cons.trans (and_iff_right hsame)
        refine ⟨b, ?_, hb.trans hbegins.symm⟩
        rw [List.append_assoc, List.append_assoc, List.length_append, List.length_append] at hrest
        exact hrest
      · rw [if_pos hsame]
        exact ⟨false, rfl, iff_of_false nofun fun h => hsame (begins_cons_cons.mp h).1⟩

/-- Nothing begins in the middle of a character. -/
theorem doUStrncaseEqual_middle (hls : AllValid ls) (hne : ls ≠ []) {d : UInt8}
    (hd : lenTab d = 0) (fb rest : Text) :
    doUStrncaseEqual L true (flat ls) (fb ++ d :: rest) ls.length 0 fb.length = some false := by
  cases ls with
  | nil => exact absurd rfl hne
  | cons l ls =>
    have ha := uGetChar_glyph hls.head [] (flat ls)
    rw [List.nil_append, List.length_nil, Nat.zero_add] at ha
    have hinvalid := toUInt32_or_mask d hd
    have hdiff : foldBase L l.val ≠ foldBase L (d.toUInt32 ||| uInvalidMask) := by
      rw [foldBase_eq L hinvalid]
      obtain ⟨-, -, -, -, -, -, -, hle, -⟩ := hls.head
      exact fun heq => UInt32.not_lt.mpr (foldBase_le L hle) (heq ▸ hinvalid)
    rw [List.length_cons, flat_cons, doUStrncaseEqual_succ ha (uGetChar_middle hd fb rest),
      if_pos hdiff]

theorem sizeT_natCast {n : Nat} (h : n < 2 ^ 31) : sizeT n = n := by
  unfold sizeT
  omega

theorem toInt_natCast {n : Nat} (h : n < 2 ^ 31) : toInt n = n :=
  Int.bmod_eq_of_le (by omega) (by omega)

theorem Found.cons {g : Glyph} {start : Nat} {r : Option Nat}
    (h : Found L ls gs (start + g.size) r) (hg : ¬ Begins (SameBase L) ls (g :: gs)) :
    Found L ls (g :: gs) start r := by
  cases r with
  | none =>
    intro k hk
    cases k with
    | zero => exact hg
    | succ k => exact h k (Nat.le_of_succ_le_succ hk)
  | some pos =>
    obtain ⟨k, hk, rfl, hbegins, hfirst⟩ := h
    refine ⟨k + 1, Nat.succ_le_succ hk, ?_, hbegins, ?_⟩
    · rw [List.take_succ_cons, flat_cons, List.length_append, Nat.add_assoc]
      rfl
    · intro j hj
      cases j with
      | zero => exact hg
      | succ j => exact hfirst j (Nat.lt_of_succ_lt_succ hj)

/-- Rows that are longer than what is left are not found in it. -/
theorem found_none (hgs : AllValid gs) {start : Nat} (h : (flat gs).length < ls.length) :
    Found L ls gs start none := by
  intro k _ hbegins
  have hle := hbegins.length_le
  have hbytes := hgs.length_le
  rw [List.length_drop] at hle
  omega

theorem strcasestrLoop_flat (hls : AllValid ls) (hne : ls ≠ []) (hlen : ls.length < 2 ^ 31)
    (hgs : AllValid gs) (middle : Text) (hmiddle : ∀ d ∈ middle, lenTab d = 0) (front : Text)
    {fuel : Nat} (hfuel : (middle ++ flat gs).length < fuel) :
    ∃ r, strcasestrLoop L true (front ++ (middle ++ flat gs)) (flat ls) ls.length fuel
      (middle ++ flat gs).length front.length = some r ∧
      Found L ls gs (front.length + middle.length) r := by
  induction fuel generalizing front middle gs with
  | zero => exact absurd hfuel (Nat.not_lt_zero _)
  | succ fuel ih =>
    rw [strcasestrLoop]
    split
    · rename_i hshort
      refine ⟨none, rfl, found_none hgs ?_⟩
      rw [List.length_append] at hshort
      omega
    rename_i hlong
    rw [sizeT_natCast hlen]
    cases middle with
    | cons d middle =>
      have hd := hmiddle d (List.mem_cons_self ..)
      have hget := uGetChar_middle hd front (middle ++ flat gs)
      have hequal := doUStrncaseEqual_middle (L := L) hls hne hd front (middle ++ flat gs)
      obtain ⟨r, hr, hfound⟩ := ih hgs middle (fun e he => hmiddle e (List.mem_cons_of_mem d he))
        (front ++ [d]) (Nat.lt_of_succ_lt_succ (by simpa using hfuel))
      have hleft : ((d :: (middle ++ flat gs)).length : Int) -
          ((front.length + 1 : Nat) - front.length) = (middle ++ flat gs).length := by
        rw [List.length_cons]
        omega
      have hfront : (front ++ [d]).length = front.length + 1 := List.length_append
      rw [List.append_assoc, List.singleton_append, hfront] at hr
      rw [hfront, Nat.add_assoc, Nat.add_comm 1] at hfound
      rw [List.cons_append, hequal]
      simp only [Option.bind_eq_bind, Option.bind_some, hget, hleft]
      exact ⟨r, hr, hfound⟩
    | nil =>
      rw [List.nil_append, List.length_nil, Nat.add_zero]
      obtain ⟨b, hequal, hb⟩ := doUStrncaseEqual_flat (L := L) hls hgs [] front
      rw [List.nil_append, List.length_nil] at hequal
      rw [hequal]
      cases b with
      | true =>
        exact ⟨some front.length, rfl, 0, Nat.zero_le _, rfl, hb.mp rfl,
          fun k hk => absurd hk (Nat.not_lt_zero k)⟩
      | false =>
        cases gs with
        | nil =>
          have hpos := List.length_pos_iff.mpr hne
          rw [List.nil_append, flat_nil, List.length_nil] at hlong
          omega
        | cons g gs =>
          have hget := uGetChar_glyph hgs.head front (flat gs)
          have hsize := hgs.head.size_pos
          rw [List.nil_append, flat_cons, List.length_append] at hfuel
          obtain ⟨r, hr, hfound⟩ := ih hgs.tail [] (fun d hd => absurd hd List.not_mem_nil)
            (front ++ g.bytes) (by
            rw [List.nil_append]
            rw [Glyph.size] at hsize
            omega)
          have hleft : ((g.bytes ++ flat gs).length : Int) -
              ((front.length + g.size : Nat) - front.length) = (flat gs).length := by
            rw [List.length_append, Glyph.size]
            omega
          rw [List.nil_append, List.append_assoc, List.length_append] at hr
          rw [List.length_nil, Nat.add_zero, List.length_append] at hfound
          simp only [flat_cons, Option.bind_eq_bind, Option.bind_some, hget, hleft]
          exact ⟨r, hr, Found.cons hfound fun h => Bool.false_ne_true (hb.mpr h)⟩

/-- **The search** from a place that may be in the middle of a character. -/
theorem uStrcasestrBase_flat (hls : AllValid ls) (hne : ls ≠ []) (hlen : ls.length < 2 ^ 31)
    (hgs : AllValid gs) {middle : Text} (hmiddle : ∀ d ∈ middle, lenTab d = 0) (front : Text)
    (hlength : (middle ++ flat gs).length < 2 ^ 31) :
    ∃ r, uStrcasestrBase L (front ++ (middle ++ flat gs)) (flat ls) front.length = some r ∧
      Found L ls gs (front.length + middle.length) r := by
  have hspec := strcasestrLoop_flat (L := L) hls hne hlen hgs middle hmiddle front (Nat.lt_succ_self _)
  have hhaystack : (front ++ (middle ++ flat gs)).length =
      front.length + (middle ++ flat gs).length := List.length_append
  have hpos : ¬ (front ++ (middle ++ flat gs)).length < front.length := by omega
  have hleft : (front ++ (middle ++ flat gs)).length - front.length =
      (middle ++ flat gs).length := by omega
  have hint : ((front ++ (middle ++ flat gs)).length : Int) - front.length =
      (middle ++ flat gs).length := by omega
  have heq : uStrcasestrBase L (front ++ (middle ++ flat gs)) (flat ls) front.length =
      strcasestrLoop L true (front ++ (middle ++ flat gs)) (flat ls) ls.length
        ((middle ++ flat gs).length + 1) (middle ++ flat gs).length front.length := by
    rw [uStrcasestrBase, doUStrcasestr, if_neg hpos, uStrlen_flat hls, hleft, hint,
      toInt_natCast hlength, Option.bind_eq_bind, Option.bind_some, toInt_natCast hlen]
  rw [heq]
  exact hspec

end

/-! ### Any bytes -/

section
variable (L : Locale)

theorem foldChar_zero (onlyBaseChars : Bool) : foldChar L onlyBaseChars 0 = 0 := by
  unfold foldChar
  split
  · exact foldBase_zero L
  · rfl

theorem foldChar_ne_zero (onlyBaseChars : Bool) {u : Uchar} (h : u ≠ 0) :
    foldChar L onlyBaseChars u ≠ 0 := by
  unfold foldChar
  split
  · exact foldBase_ne_zero L h
  · exact uCasefoldChar_ne_zero L h

end

/-- The character that starts at a boundary. -/
def charAt (s : Text) (n : Nat) : Option Uchar := do
  let idx ← charIndex s n
  if idx < s.length then
    let (u, _) ← uGetChar s idx
    some u
  else none

/-- The characters of the needle are, folded, those of the haystack from the `k`th on. -/
def MatchesAt (fold : Uchar → Uchar) (haystack needle : Text) (k : Nat) : Prop :=
  ∀ i u, charAt needle i = some u → (charAt haystack (k + i)).map fold = some (fold u)

/-- The first boundary of the haystack where the needle matches. -/
def First (fold : Uchar → Uchar) (haystack needle : Text) : Option Nat → Prop
  | none => ∀ k pos, charIndex haystack k = some pos → ¬ MatchesAt fold haystack needle k
  | some pos => ∃ k, charIndex haystack k = some pos ∧ MatchesAt fold haystack needle k ∧
      ∀ j < k, ¬ MatchesAt fold haystack needle j

variable {L : Locale} {onlyBaseChars : Bool} {ls : List Glyph} {haystack : Text} {k : Nat}

/-- Where a character of the needle stands. -/
theorem flat_split {i : Nat} (hi : i < ls.length) :
    flat ls = flat (ls.take i) ++ (ls[i].bytes ++ flat (ls.drop (i + 1))) := by
  rw [← flat_cons, ← List.drop_eq_getElem_cons hi, ← flat_append, List.take_append_drop]

theorem uGetChar_flat (h : AllValid ls) {i : Nat} (hi : i < ls.length) :
    uGetChar (flat ls) (flat (ls.take i)).length =
      some (ls[i].val, (flat (ls.take (i + 1))).length) := by
  have hget := uGetChar_glyph (h _ (List.getElem_mem hi)) (flat (ls.take i))
    (flat (ls.drop (i + 1)))
  rw [← flat_split hi] at hget
  rw [hget, List.take_succ_eq_append_getElem hi, flat_append, List.length_append, flat_cons, flat_nil,
    List.append_nil, Glyph.size]

theorem length_flat_take (h : AllValid ls) {i : Nat} (hi : i < ls.length) :
    (flat (ls.take i)).length < (flat ls).length := by
  have hsize := (h _ (List.getElem_mem hi)).size_pos
  rw [Glyph.size] at hsize
  rw [flat_split hi, List.length_append, List.length_append]
  omega

theorem charIndex_flat (h : AllValid ls) {i : Nat} (hi : i ≤ ls.length) :
    charIndex (flat ls) i = some (flat (ls.take i)).length := by
  induction i with
  | zero => rfl
  | succ i ih =>
    rw [charIndex, ih (Nat.le_of_lt hi)]
    simp only [Option.bind_eq_bind, Option.bind_some, if_pos (length_flat_take h hi),
      uGetChar_flat h hi]

theorem charIndex_eq_none {s : Text} {n m : Nat} (h : charIndex s n = none) (hle : n ≤ m) :
    charIndex s m = none := by
  induction hle with
  | refl => exact h
  | step _ ih =>
    rw [charIndex, ih]
    rfl

theorem charAt_flat (h : AllValid ls) (i : Nat) : charAt (flat ls) i = ls[i]?.map Glyph.val := by
  unfold charAt
  rcases Nat.lt_trichotomy i ls.length with hi | rfl | hi
  · rw [charIndex_flat h (Nat.le_of_lt hi), List.getElem?_eq_getElem hi]
    simp only [Option.bind_eq_bind, Option.bind_some, if_pos (length_flat_take h hi),
      uGetChar_flat h hi, Option.map_some]
  · rw [charIndex_flat h (Nat.le_refl _), List.take_length, List.getElem?_eq_none (Nat.le_refl _)]
    exact if_neg (Nat.lt_irrefl _)
  · have hend : charIndex (flat ls) (ls.length + 1) = none := by
      rw [charIndex, charIndex_flat h (Nat.le_refl _), List.take_length]
      exact if_neg (Nat.lt_irrefl _)
    rw [List.getElem?_eq_none (Nat.le_of_lt hi), charIndex_eq_none hend hi]
    rfl

theorem charAt_ascii {c : UInt8} (h : c < 128) (s : Text) :
    charAt (c :: s) 0 = some c.toUInt32 := by
  have hget : uGetChar (c :: s) 0 = some (c.toUInt32, 1) := by
    rw [uGetChar, if_neg (List.length_cons ▸ Nat.succ_ne_zero _ ∘ Eq.symm)]
    exact if_pos h
  rw [charAt, charIndex]
  simp only [Option.bind_eq_bind, Option.bind_some, List.length_cons, Nat.succ_pos, if_true, hget]

/-- At a boundary of the haystack is a character, or its end. -/
theorem charAt_cases {s : Text} {idx : Nat} (h : charIndex s k = some idx) :
    (idx = s.length ∧ charAt s k = none) ∨
      ∃ u next, uGetChar s idx = some (u, next) ∧ charAt s k = some u ∧
        charIndex s (k + 1) = some next ∧ idx < next ∧ next ≤ s.length := by
  have hle := charIndex_le h
  rcases Nat.lt_or_eq_of_le hle with hlt | rfl
  · obtain ⟨u, next, hget⟩ := uGetChar_isSome hle
    have hnext : charIndex s (k + 1) = some next := by
      rw [charIndex, h]
      simp only [Option.bind_eq_bind, Option.bind_some, if_pos hlt, hget]
    refine .inr ⟨u, next, hget, ?_, hnext, (uGetChar_next hget).1, charIndex_le hnext⟩
    simp only [charAt, h, Option.bind_eq_bind, Option.bind_some, if_pos hlt, hget]
  · refine .inl ⟨rfl, ?_⟩
    simp only [charAt, h, Option.bind_eq_bind, Option.bind_some, if_neg (Nat.lt_irrefl _)]

/-- What is left of a comparison behind the first `i` characters of the needle. -/
theorem doUStrncaseEqual_from (h : AllValid ls) (n : Nat) {i bi : Nat} (hi : i + n = ls.length)
    (hbi : charIndex haystack (k + i) = some bi) :
    ∃ b, doUStrncaseEqual L onlyBaseChars (flat ls) haystack n (flat (ls.take i)).length bi =
      some b ∧ (b = true ↔ ∀ j, i ≤ j → ∀ u, charAt (flat ls) j = some u →
        (charAt haystack (k + j)).map (foldChar L onlyBaseChars) =
          some (foldChar L onlyBaseChars u)) := by
  induction n generalizing i bi with
  | zero =>
    refine ⟨true, rfl, iff_of_true rfl fun j hj u hu => ?_⟩
    rw [charAt_flat h, List.getElem?_eq_none (by omega)] at hu
    cases hu
  | succ n ih =>
    have hlt : i < ls.length := by omega
    have ha := uGetChar_flat h hlt
    have hu : charAt (flat ls) i = some ls[i].val := by
      rw [charAt_flat h, List.getElem?_eq_getElem hlt, Option.map_some]
    obtain ⟨-, -, -, -, -, -, -, -, hzero⟩ := h _ (List.getElem_mem hlt)
    rcases charAt_cases hbi with ⟨rfl, hend⟩ | ⟨v, next, hget, hv, hnext, -⟩
    · -- the terminator is equal to no character
      have hdiff : foldChar L onlyBaseChars ls[i].val ≠ foldChar L onlyBaseChars 0 := by
        rw [foldChar_zero]
        exact foldChar_ne_zero L onlyBaseChars hzero
      rw [doUStrncaseEqual_next ha (uGetChar_end haystack), if_pos hdiff]
      refine ⟨false, rfl, iff_of_false nofun fun hall => ?_⟩
      have hmatch := hall i (Nat.le_refl _) _ hu
      rw [hend] at hmatch
      cases hmatch
    rw [doUStrncaseEqual_next ha hget]
    by_cases hsame : foldChar L onlyBaseChars ls[i].val = foldChar L onlyBaseChars v
    · obtain ⟨b, hrest, hb⟩ := ih (show i + 1 + n = ls.length by omega) hnext
      rw [if_neg (not_not.mpr hsame)]
      refine ⟨b, hrest, hb.trans ⟨fun hall j hj => ?_, fun hall j hj => hall j (by omega)⟩⟩
      rcases Nat.lt_or_eq_of_le hj with hj | rfl
      · exact hall j hj
      · intro u hu'
        rw [hu, Option.some.injEq] at hu'
        rw [hv, Option.map_some, ← hsame, hu']
    · rw [if_pos hsame]
      refine ⟨false, rfl, iff_of_false nofun fun hall => hsame ?_⟩
      have hmatch := hall i (Nat.le_refl _) _ hu
      rw [hv, Option.map_some, Option.some.injEq] at hmatch
      exact hmatch.symm

/-- **The comparison at a boundary of any bytes.** -/
theorem doUStrncaseEqual_matchesAt (h : AllValid ls) {pos : Nat}
    (hpos : charIndex haystack k = some pos) :
    ∃ b, doUStrncaseEqual L onlyBaseChars (flat ls) haystack ls.length 0 pos = some b ∧
      (b = true ↔ MatchesAt (foldChar L onlyBaseChars) haystack (flat ls) k) := by
  obtain ⟨b, hequal, hb⟩ := @doUStrncaseEqual_from L onlyBaseChars ls haystack k h ls.length 0 pos
    (Nat.zero_add _) hpos
  exact ⟨b, hequal, hb.trans ⟨fun hall i => hall i (Nat.zero_le i), fun hall i _ => hall i⟩⟩

theorem charIndex_add_le {s : Text} {d p q : Nat} (hp : charIndex s k = some p)
    (hq : charIndex s (k + d) = some q) : p + d ≤ q := by
  induction d generalizing q with
  | zero => exact Nat.le_of_eq (Option.some.inj (hp.symm.trans hq))
  | succ d ih =>
    have hlast : charIndex s (k + d + 1) = some q := hq
    cases hprev : charIndex s (k + d) with
    | none =>
      rw [charIndex_eq_none hprev (Nat.le_succ _)] at hlast
      cases hlast
    | some r =>
      have hr := ih hprev
      rcases charAt_cases hprev with ⟨rfl, -⟩ | ⟨u, next, -, -, hnext, hlt, -⟩
      · have hend : charIndex s (k + d + 1) = none := by
          rw [charIndex, hprev]
          exact if_neg (Nat.lt_irrefl _)
        rw [hend] at hlast
        cases hlast
      · have hqn : q = next := Option.some.inj (hlast.symm.trans hnext)
        omega

/-- As many characters as match are left, and no fewer bytes. -/
theorem MatchesAt.length_le {fold : Uchar → Uchar} {pos : Nat} (h : AllValid ls)
    (hmatch : MatchesAt fold haystack (flat ls) k) (hpos : charIndex haystack k = some pos) :
    pos + ls.length ≤ haystack.length := by
  have hreached : ∀ i ≤ ls.length, ∃ q, charIndex haystack (k + i) = some q := by
    intro i hi
    cases i with
    | zero => exact ⟨pos, hpos⟩
    | succ i =>
      have hlt : i < ls.length := hi
      have hu : charAt (flat ls) i = some ls[i].val := by
        rw [charAt_flat h, List.getElem?_eq_getElem hlt, Option.map_some]
      obtain ⟨v, hv, -⟩ := Option.map_eq_some_iff.mp (hmatch i _ hu)
      obtain ⟨q, hq, -⟩ := Option.bind_eq_some_iff.mp hv
      rcases charAt_cases hq with ⟨-, hend⟩ | ⟨u, next, -, -, hnext, -⟩
      · rw [hend] at hv
        cases hv
      · exact ⟨next, hnext⟩
  obtain ⟨q, hq⟩ := hreached ls.length (Nat.le_refl _)
  exact Nat.le_trans (charIndex_add_le hpos hq) (charIndex_le hq)

/-- The first boundary from the `k`th on where the needle matches. -/
def FirstFrom (fold : Uchar → Uchar) (haystack needle : Text) (k : Nat) : Option Nat → Prop
  | none => ∀ j ≥ k, ∀ pos, charIndex haystack j = some pos → ¬ MatchesAt fold haystack needle j
  | some pos => ∃ j ≥ k, charIndex haystack j = some pos ∧ MatchesAt fold haystack needle j ∧
      ∀ i ≥ k, i < j → ¬ MatchesAt fold haystack needle i

theorem FirstFrom.succ {fold : Uchar → Uchar} {needle : Text} {r : Option Nat}
    (h : FirstFrom fold haystack needle (k + 1) r) (hk : ¬ MatchesAt fold haystack needle k) :
    FirstFrom fold haystack needle k r := by
  cases r with
  | none =>
    intro j hj pos hpos
    rcases Nat.lt_or_eq_of_le hj with hj | rfl
    · exact h j hj pos hpos
    · exact hk
  | some pos =>
    obtain ⟨j, hj, hpos, hmatch, hfirst⟩ := h
    refine ⟨j, Nat.le_of_succ_le hj, hpos, hmatch, fun i hi hij => ?_⟩
    rcases Nat.lt_or_eq_of_le hi with hi | rfl
    · exact hfirst i hi hij
    · exact hk

theorem strcasestrLoop_first (h : AllValid ls) (hshort : ls.length < 2 ^ 31) {fuel pos : Nat}
    (hpos : charIndex haystack k = some pos) (hfuel : haystack.length < pos + fuel) :
    ∃ r, strcasestrLoop L onlyBaseChars haystack (flat ls) ls.length fuel
      ((haystack.length : Int) - pos) pos = some r ∧
      FirstFrom (foldChar L onlyBaseChars) haystack (flat ls) k r := by
  induction fuel generalizing k pos with
  | zero => exact absurd (charIndex_le hpos) (by omega)
  | succ fuel ih =>
    rw [strcasestrLoop]
    split
    · rename_i hless
      refine ⟨none, rfl, fun j hj q hq hmatch => ?_⟩
      have hle := hmatch.length_le h hq
      have hdistance := charIndex_add_le hpos (d := j - k) (q := q) (by rwa [Nat.add_sub_cancel' hj])
      omega
    rename_i hlong
    obtain ⟨b, hequal, hb⟩ := @doUStrncaseEqual_matchesAt L onlyBaseChars ls haystack k h pos hpos
    rw [sizeT_natCast hshort, hequal]
    cases b with
    | true =>
      exact ⟨some pos, rfl, k, Nat.le_refl k, hpos, hb.mp rfl, fun i hi hik => by omega⟩
    | false =>
      have hno : ¬ MatchesAt (foldChar L onlyBaseChars) haystack (flat ls) k :=
        fun hmatch => Bool.false_ne_true (hb.mpr hmatch)
      rcases charAt_cases hpos with ⟨rfl, -⟩ | ⟨u, next, hget, -, hnext, hlt, hle⟩
      · -- at the end only an empty needle is left, which matches
        have hnil : ls = [] := List.eq_nil_of_length_eq_zero (by omega)
        subst hnil
        exact absurd (fun i u hu => by rw [charAt_flat h] at hu; cases hu) hno
      · obtain ⟨r, hr, hfirst⟩ := ih hnext (by omega)
        have hleft :
            (haystack.length : Int) - pos - (next - pos : Int) = haystack.length - next := by
          omega
        simp only [Option.bind_eq_bind, Option.bind_some, hget, hleft]
        exact ⟨r, hr, hfirst.succ hno⟩

theorem FirstFrom.first {fold : Uchar → Uchar} {needle : Text} {r : Option Nat}
    (h : FirstFrom fold haystack needle 0 r) : First fold haystack needle r := by
  cases r with
  | none => exact fun k => h k (Nat.zero_le k)
  | some pos =>
    obtain ⟨k, -, hpos, hmatch, hfirst⟩ := h
    exact ⟨k, hpos, hmatch, fun j => hfirst j (Nat.zero_le j)⟩

theorem doUStrcasestr_first (h : AllValid ls) (hhaystack : haystack.length < 2 ^ 31)
    (hneedle : ls.length < 2 ^ 31) :
    ∃ r, doUStrcasestr L onlyBaseChars haystack (flat ls) 0 = some r ∧
      First (foldChar L onlyBaseChars) haystack (flat ls) r := by
  obtain ⟨r, hr, hfirst⟩ := @strcasestrLoop_first L onlyBaseChars ls haystack 0 h hneedle
    (haystack.length + 1) 0 rfl (by omega)
  refine ⟨r, ?_, hfirst.first⟩
  rw [doUStrcasestr, if_neg (Nat.not_lt_zero _), uStrlen_flat h, Option.bind_eq_bind,
    Option.bind_some, toInt_natCast hneedle, Nat.sub_zero, Int.natCast_zero, Int.sub_zero,
    toInt_natCast hhaystack]
  exact hr

/-- A haystack that seems to be shorter than the needle is not searched. -/
theorem doUStrcasestr_null {needle : Text} {n : Nat} (hn : uStrlen needle = some n)
    (h : toInt haystack.length < toInt n) :
    doUStrcasestr L onlyBaseChars haystack needle 0 = some none := by
  rw [doUStrcasestr, if_neg (Nat.not_lt_zero _), hn, Option.bind_eq_bind, Option.bind_some,
    strcasestrLoop, Int.natCast_zero, Int.sub_zero, if_pos h]

/-- What is expected of the searches for a needle. -/
structure Finds (L : Locale) (haystack needle : Text) : Prop where
  casefold : ∃ r, uStrcasestr L haystack needle 0 = some r ∧
    First (uCasefoldChar L) haystack needle r
  base : ∃ r, uStrcasestrBase L haystack needle 0 = some r ∧ First (foldBase L) haystack needle r

/-- **The searches find the first match** in strings with lengths that fit into an `int`. Where
the length of the haystack becomes less than that of the needle, they are right only if there is
nothing to find. -/
theorem uStrcasestr_finds {needle : Text} (hvalid : uIsValid needle = true) (hend : 0 ∉ needle) :
    (haystack.length < 2 ^ 31 → needle.length < 2 ^ 31 → Finds L haystack needle) ∧
      ∀ n, uStrlen needle = some n → toInt haystack.length < toInt n →
        (Finds L haystack needle ↔ First (uCasefoldChar L) haystack needle none ∧
          First (foldBase L) haystack needle none) := by
  obtain ⟨ls, hls, rfl⟩ := exists_glyphs hvalid hend
  constructor
  · intro hhaystack hneedle
    have hcount : ls.length < 2 ^ 31 := Nat.lt_of_le_of_lt hls.length_le hneedle
    exact ⟨doUStrcasestr_first hls hhaystack hcount, doUStrcasestr_first hls hhaystack hcount⟩
  · intro n hn hless
    have hnull : ∀ onlyBaseChars, doUStrcasestr L onlyBaseChars haystack (flat ls) 0 = some none :=
      fun _ => doUStrcasestr_null hn hless
    constructor
    · intro h
      obtain ⟨r, hr, hcasefold⟩ := h.casefold
      obtain ⟨r', hr', hbase⟩ := h.base
      obtain rfl : none = r := Option.some.inj ((hnull false).symm.trans hr)
      obtain rfl : none = r' := Option.some.inj ((hnull true).symm.trans hr')
      exact ⟨hcasefold, hbase⟩
    · rintro ⟨hcasefold, hbase⟩
      exact ⟨⟨none, hnull false, hcasefold⟩, none, hnull true, hbase⟩

/-- The capital after two bytes that are no character. -/
theorem uStrcasestr_finds_capital : Finds Locale.c (0xff :: 0xc3 :: ascii "aBc") (ascii "b") :=
  (uStrcasestr_finds (by decide +kernel) (by decide)).1 (by decide) (by decide)

/-- In two gigabytes of a letter it is not found. -/
theorem uStrcasestr_overflow :
    uStrcasestr Locale.c (List.replicate (2 ^ 31) (ch 'a')) (ascii "a") 0 = some none ∧
      MatchesAt (uCasefoldChar Locale.c) (List.replicate (2 ^ 31) (ch 'a')) (ascii "a") 0 ∧
      ¬ Finds Locale.c (List.replicate (2 ^ 31) (ch 'a')) (ascii "a") := by
  have hnull : uStrcasestr Locale.c (List.replicate (2 ^ 31) (ch 'a')) (ascii "a") 0 =
      some none := by
    refine doUStrcasestr_null (n := 1) (by decide) ?_
    rw [List.length_replicate]
    decide
  have hmatch :
      MatchesAt (uCasefoldChar Locale.c) (List.replicate (2 ^ 31) (ch 'a')) (ascii "a") 0 := by
    obtain ⟨rest, hrest⟩ : ∃ rest, List.replicate (2 ^ 31) (ch 'a') = ch 'a' :: rest :=
      ⟨List.replicate (2 ^ 31 - 1) (ch 'a'), List.replicate_succ⟩
    rw [hrest]
    intro i u hu
    match i with
    | 0 =>
      obtain rfl : (ch 'a').toUInt32 = u := Option.some.inj hu
      rw [charAt_ascii (by decide)]
      rfl
    | 1 =>
      rw [show charAt (ascii "a") 1 = none by decide] at hu
      cases hu
    | i + 2 =>
      rw [charAt, charIndex_eq_none (show charIndex (ascii "a") 2 = none by decide) (by omega)] at hu
      cases hu
  refine ⟨hnull, hmatch, fun h => ?_⟩
  obtain ⟨r, hr, hfirst⟩ := h.casefold
  obtain rfl : none = r := Option.some.inj (hnull.symm.trans hr)
  exact hfirst 0 0 rfl hmatch

end GracefulMusic
