import Mathlib.Logic.Relation
import GracefulMusic.Format.Language
import GracefulMusic.Uchar.Chars

/-! Where the check of a format reads behind its end (`format_print.c`).

Outside of braces `format_skip_cond_expr` takes the terminator for the name of an option,
and then looks at the byte behind it. So the check leaves the format where it comes to a
conditional with a part that ends in an unfinished name, and nowhere else. -/
namespace GracefulMusic.Format
open Relation (ReflTransGen)

variable {format : Text} {s s' c : Nat} {u v : Uchar}

/-! ### Readers that stay inside -/

/-- A position with the character in front of it: behind the terminator there is none. -/
structure Inside (format : Text) (u : Uchar) (s : Nat) : Prop where
  le : s ≤ format.length + 1
  within : u ≠ 0 → s ≤ format.length

theorem getChar_inside (hs : s ≤ format.length) :
    ∃ u s', getChar format s = .ok (u, s') ∧ Inside format u s' ∧ s < s' := by
  obtain ⟨u, next, hget⟩ := uGetChar_isSome hs
  have hok : getChar format s = .ok (u, next) := by rw [getChar, hget]
  obtain ⟨hlt, hle, hin⟩ := getChar_spec hok
  exact ⟨u, next, hok, ⟨hle, hin⟩, hlt⟩

theorem byteAt_inside (hs : s ≤ format.length) : ∃ c, byteAt format s = .ok c := by
  rw [byteAt]
  split
  · exact ⟨0, rfl⟩
  · rename_i hend
    rw [List.getElem?_eq_getElem (by omega)]
    exact ⟨_, rfl⟩

theorem skipIf_inside (h : Inside format u s) {c : Char} (hc : uch c ≠ 0) :
    ∃ v s', skipIf format c u s = .ok (v, s') ∧ Inside format v s' ∧ s ≤ s' := by
  rw [skipIf]
  split
  · rename_i heq
    obtain ⟨v, s', hget, hin, hlt⟩ := getChar_inside (h.within (heq ▸ hc))
    exact ⟨v, s', hget, hin, Nat.le_of_lt hlt⟩
  · exact ⟨u, s, rfl, h, Nat.le_refl _⟩

theorem skipDigits_inside (h : Inside format u s) {fuel : Nat}
    (hfuel : format.length + 1 < fuel + s) :
    ∃ v s', skipDigits format fuel u s = .ok (v, s') ∧ Inside format v s' ∧ s ≤ s' := by
  induction fuel generalizing u s with
  | zero =>
    have hle := h.le
    omega
  | succ fuel ih =>
    rw [skipDigits]
    split
    · rename_i hdigit
      have hne : u ≠ 0 := by
        intro hzero
        rw [hzero] at hdigit
        exact absurd hdigit (by decide)
      obtain ⟨v, s₁, hget, hin, hlt⟩ := getChar_inside (h.within hne)
      obtain ⟨w, s₂, hrest, hin₂, hle⟩ := ih hin (by omega)
      refine ⟨w, s₂, ?_, hin₂, by omega⟩
      rw [hget]
      exact hrest
    · exact ⟨u, s, rfl, h, Nat.le_refl _⟩

theorem skipModifiers_inside (h : Inside format u s) :
    ∃ v s', skipModifiers format u s = .ok (v, s') ∧ Inside format v s' ∧ s ≤ s' := by
  obtain ⟨u₁, s₁, h₁, hin₁, hle₁⟩ := skipIf_inside h (c := '-') (by decide)
  obtain ⟨u₂, s₂, h₂, hin₂, hle₂⟩ := skipIf_inside hin₁ (c := '.') (by decide)
  obtain ⟨u₃, s₃, h₃, hin₃, hle₃⟩ := skipDigits_inside hin₂
    (show format.length + 1 < enough format + s₂ by rw [enough]; omega)
  refine ⟨u₃, s₃, ?_, hin₃, by omega⟩
  simp only [skipModifiers, h₁, h₂, h₃, ok_bind]

theorem validField_inside (h : Inside format u s) :
    ∃ f v s', validField format u s = .ok (f, v, s') ∧ Inside format v s' ∧ s ≤ s' := by
  obtain ⟨u₁, s₁, h₁, hin₁, hle₁⟩ := skipIf_inside h (c := '-') (by decide)
  obtain ⟨u₂, s₂, h₂, hin₂, hle₂⟩ := skipIf_inside hin₁ (c := '.') (by decide)
  obtain ⟨u₃, s₃, h₃, hin₃, hle₃⟩ := skipIf_inside hin₂ (c := '0') (by decide)
  obtain ⟨u₄, s₄, h₄, hin₄, hle₄⟩ := skipDigits_inside hin₃
    (show format.length + 1 < enough format + s₃ by rw [enough]; omega)
  obtain ⟨u₅, s₅, h₅, hin₅, hle₅⟩ := skipIf_inside hin₄ (c := '%') (by decide)
  refine ⟨decide (u₂ = uch '0'), u₅, s₅, ?_, hin₅, by omega⟩
  simp only [validField, h₁, h₂, h₃, h₄, h₅, ok_bind]

theorem isPlain_ne_zero (h : isPlain u = true) : u ≠ 0 := by
  intro hzero
  rw [hzero] at h
  exact absurd h (by decide)

theorem skipBraces_inside {fuel level : Nat} (hs : s ≤ format.length)
    (hfuel : format.length < fuel + s) :
    ∃ closed s', skipBraces format fuel level s = .ok (closed, s') ∧
      (closed = true → s' ≤ format.length) := by
  induction fuel generalizing level s with
  | zero => omega
  | succ fuel ih =>
    rw [skipBraces]
    split
    · exact ⟨true, s, rfl, fun _ => hs⟩
    obtain ⟨u, s₁, h₁, hin₁, hlt₁⟩ := getChar_inside hs
    rw [h₁, ok_bind]
    dsimp only
    split
    · exact ⟨false, s₁, rfl, fun h => by cases h⟩
    rename_i hne
    have hs₁ := hin₁.within hne
    split
    · exact ih hs₁ (by omega)
    obtain ⟨u, s₂, h₂, hin₂, hlt₂⟩ := getChar_inside hs₁
    rw [h₂, ok_bind]
    dsimp only
    split
    · rename_i hplain
      exact ih (hin₂.within (isPlain_ne_zero hplain)) (by omega)
    obtain ⟨u, s₃, h₃, hin₃, hle₃⟩ := skipModifiers_inside hin₂
    rw [h₃, ok_bind]
    dsimp only
    split
    · exact ⟨false, s₃, rfl, fun h => by cases h⟩
    · rename_i hname
      exact ih (hin₃.within hname) (by omega)

theorem readLongName_inside {fSize fuel n : Nat} (hsize : fSize ≤ format.length)
    (hfuel : format.length + 1 < fuel + s) (hs : s ≤ format.length + 1) :
    ∃ r, readLongName format fSize fuel s n = .ok r := by
  induction fuel generalizing s n with
  | zero => omega
  | succ fuel ih =>
    rw [readLongName]
    split
    · exact ⟨none, rfl⟩
    · rename_i hin
      obtain ⟨u, s₁, h₁, hin₁, hlt⟩ := getChar_inside (show s ≤ format.length by omega)
      rw [h₁, ok_bind]
      dsimp only
      split
      · exact ⟨_, rfl⟩
      · exact ih (by omega) hin₁.le

/-! ### The parts of a conditional -/

/-- A character of a part, and where its end is not reached yet. -/
def Starts (format : Text) (s : Nat) (u : Uchar) (s' : Nat) : Prop :=
  (∃ c, byteAt format s = .ok c ∧ c ≠ 0) ∧ getChar format s = .ok (u, s')

/-- The terminator is a character of its own. -/
theorem getChar_before (h : getChar format s = .ok (u, s')) (hs : s < format.length) :
    s' ≤ format.length := by
  rw [getChar] at h
  split at h
  · rename_i r hchar
    cases h
    obtain ⟨-, hstop | hle⟩ := uGetChar_next hchar
    · exact absurd hstop.1 (Nat.ne_of_lt hs)
    · exact hle
  · cases h

theorem byteAt_before {c : UInt8} (h : byteAt format s = .ok c) (hc : c ≠ 0) :
    s < format.length := by
  rw [byteAt] at h
  split at h
  · exact absurd (Except.ok.inj h).symm hc
  · split at h
    · rename_i hget
      exact (List.getElem?_eq_some_iff.mp hget).1
    · cases h

theorem Starts.lt (h : Starts format s u s') : s < format.length := by
  obtain ⟨⟨c, hc, hne⟩, -⟩ := h
  exact byteAt_before hc hne

theorem Starts.le (h : Starts format s u s') : s' ≤ format.length := getChar_before h.2 h.lt

/-- A percent sign with what modifies a name, and the character behind it. -/
def Names (format : Text) (s : Nat) (u : Uchar) (s' : Nat) : Prop :=
  ∃ s₁ v s₂, Starts format s (uch '%') s₁ ∧ getChar format s₁ = .ok (v, s₂) ∧
    isPlain v = false ∧ skipModifiers format v s₂ = .ok (u, s')

/-- What a part goes on with, outside of braces: a character, a percent sign with one that
stands for itself, a name of one character, or one in braces. -/
inductive PartStep (format : Text) (s s' : Nat) : Prop where
  | char (u : Uchar) (hstart : Starts format s u s') (hopen : u ≠ uch '}' ∧ u ≠ uch '?')
    (hpercent : u ≠ uch '%')
  | plain (s₁ : Nat) (u : Uchar) (hstart : Starts format s (uch '%') s₁)
    (hget : getChar format s₁ = .ok (u, s')) (hplain : isPlain u = true)
  | short (u : Uchar) (hname : Names format s u s') (hbrace : u ≠ uch '{')
    (hin : s' ≤ format.length)
  | long (s₁ : Nat) (hname : Names format s (uch '{') s₁)
    (hclosed : skipBraces format (enough format) 1 s₁ = .ok (true, s'))

/-- The name does not come any more: behind the percent sign and its modifiers the format
ends. -/
def Unfinished (format : Text) (s : Nat) : Prop := ∃ u, Names format s u (format.length + 1) ∧
  u ≠ uch '{'

/-- The part ends with a character that separates or closes. -/
def PartEnds (format : Text) (s : Nat) (u : Uchar) (s' : Nat) : Prop :=
  Starts format s u s' ∧ (u = uch '}' ∨ u = uch '?')

/-- Or the format does, or it ends in open braces. -/
def PartStops (format : Text) (s : Nat) : Prop :=
  byteAt format s = .ok 0 ∨ ∃ s₁ s₂, Names format s (uch '{') s₁ ∧
    skipBraces format (enough format) 1 s₁ = .ok (false, s₂)

/-- A part is one of these, and the next step is inside the format. -/
theorem part_cases (hs : s ≤ format.length) :
    Unfinished format s ∨ (∃ u s', PartEnds format s u s') ∨ PartStops format s ∨
      ∃ s', PartStep format s s' ∧ s < s' ∧ s' ≤ format.length := by
  obtain ⟨c, hc⟩ := byteAt_inside hs
  by_cases hzero : c = 0
  · exact .inr (.inr (.inl (.inl (hzero ▸ hc))))
  obtain ⟨u, s₁, h₁, hin₁, hlt₁⟩ := getChar_inside hs
  have hstart : Starts format s u s₁ := ⟨⟨c, hc, hzero⟩, h₁⟩
  have hs₁ := hstart.le
  by_cases hends : u = uch '}' ∨ u = uch '?'
  · exact .inr (.inl ⟨u, s₁, hstart, hends⟩)
  by_cases hpercent : u ≠ uch '%'
  · exact .inr (.inr (.inr ⟨s₁, .char u hstart (not_or.mp hends) hpercent, hlt₁, hs₁⟩))
  obtain rfl := not_not.mp hpercent
  obtain ⟨v, s₂, h₂, hin₂, hlt₂⟩ := getChar_inside hs₁
  by_cases hplain : isPlain v = true
  · exact .inr (.inr (.inr ⟨s₂, .plain s₁ v hstart h₂ hplain, by omega,
      hin₂.within (isPlain_ne_zero hplain)⟩))
  obtain ⟨w, s₃, h₃, hin₃, hle₃⟩ := skipModifiers_inside hin₂
  have hname : Names format s w s₃ :=
    ⟨s₁, v, s₂, hstart, h₂, Bool.eq_false_iff.mpr hplain, h₃⟩
  by_cases hbrace : w = uch '{'
  · subst hbrace
    have hs₃ := hin₃.within (by decide)
    obtain ⟨closed, s₄, h₄, hin₄⟩ : ∃ closed s', skipBraces format (enough format) 1 s₃ =
        .ok (closed, s') ∧ (closed = true → s' ≤ format.length) :=
      skipBraces_inside hs₃ (by rw [enough]; omega)
    have hle₄ := (skipBraces_forward h₄).le
    cases closed with
    | true => exact .inr (.inr (.inr ⟨s₄, .long s₃ hname h₄, by omega, hin₄ rfl⟩))
    | false => exact .inr (.inr (.inl (.inr ⟨s₃, s₄, hname, h₄⟩)))
  · by_cases hs₃ : s₃ ≤ format.length
    · exact .inr (.inr (.inr ⟨s₃, .short w hname hbrace hs₃, by omega, hs₃⟩))
    · obtain rfl : s₃ = format.length + 1 := by
        have hle := hin₃.le
        omega
      exact .inl ⟨w, hname, hbrace⟩

theorem skip_names (h : Names format s u s') (fuel : Nat) :
    formatSkipCondExpr format (fuel + 1) s =
      if u = uch '{' then
        skipBraces format (enough format) 1 s' >>= fun r =>
          if r.1 then formatSkipCondExpr format fuel r.2 else .ok (0, r.2)
      else formatSkipCondExpr format fuel s' := by
  obtain ⟨s₁, v, s₂, ⟨⟨c, hc, hne⟩, hstart⟩, hget, hplain, hmod⟩ := h
  rw [formatSkipCondExpr, hc, ok_bind, if_neg hne, hstart, ok_bind]
  dsimp only
  rw [if_neg (by decide), if_neg (by decide), hget, ok_bind]
  dsimp only
  rw [hplain, if_neg Bool.false_ne_true, hmod]
  rfl

theorem skip_step (h : PartStep format s s') (fuel : Nat) :
    formatSkipCondExpr format (fuel + 1) s = formatSkipCondExpr format fuel s' := by
  cases h with
  | char u hstart hopen hpercent =>
    obtain ⟨⟨c, hc, hne⟩, hstart⟩ := hstart
    rw [formatSkipCondExpr, hc, ok_bind, if_neg hne, hstart, ok_bind]
    dsimp only
    rw [if_neg (not_or.mpr hopen), if_pos hpercent]
  | plain s₁ u hstart hget hplain =>
    obtain ⟨⟨c, hc, hne⟩, hstart⟩ := hstart
    rw [formatSkipCondExpr, hc, ok_bind, if_neg hne, hstart, ok_bind]
    dsimp only
    rw [if_neg (by decide), if_neg (by decide), hget, ok_bind]
    dsimp only
    rw [if_pos hplain]
  | short u hname hbrace hin => rw [skip_names hname, if_neg hbrace]
  | long s₁ hname hclosed =>
    rw [skip_names hname, if_pos rfl, hclosed, ok_bind]
    rfl

theorem skip_unfinished (h : Unfinished format s) (fuel : Nat) :
    formatSkipCondExpr format (fuel + 2) s = .error .overread := by
  obtain ⟨u, hname, hbrace⟩ := h
  have hbehind : byteAt format (format.length + 1) = .error .overread := by
    rw [byteAt, if_neg (by omega), List.getElem?_eq_none (by omega)]
  rw [skip_names hname, if_neg hbrace, formatSkipCondExpr, hbehind]
  rfl

theorem skip_ends (h : PartEnds format s u s') (fuel : Nat) :
    formatSkipCondExpr format (fuel + 1) s = .ok (u, s') := by
  obtain ⟨⟨⟨c, hc, hne⟩, hstart⟩, hlast⟩ := h
  rw [formatSkipCondExpr, hc, ok_bind, if_neg hne, hstart, ok_bind]
  dsimp only
  rw [if_pos hlast]

theorem skip_stops (h : PartStops format s) (fuel : Nat) :
    ∃ s', formatSkipCondExpr format (fuel + 1) s = .ok (0, s') := by
  obtain hend | ⟨s₁, s₂, hname, hopen⟩ := h
  · exact ⟨s, by rw [formatSkipCondExpr, hend, ok_bind, if_pos rfl]⟩
  · refine ⟨s₂, ?_⟩
    rw [skip_names hname, if_pos rfl, hopen, ok_bind]
    rfl

/-- A part is cut off where it comes to an unfinished name. -/
def CutOff (format : Text) (s : Nat) : Prop :=
  ∃ p, ReflTransGen (PartStep format) s p ∧ Unfinished format p

/-- A part ends where it comes to its last character. -/
def EndsWith (format : Text) (s : Nat) (u : Uchar) (s' : Nat) : Prop :=
  ∃ p, ReflTransGen (PartStep format) s p ∧ PartEnds format p u s'

theorem PartStep.lt (h : PartStep format s s') : s < s' := by
  have hstart {u : Uchar} {t : Nat} (h : Starts format s u t) : s < t := (getChar_spec h.2).1
  have hname {u : Uchar} {t : Nat} (h : Names format s u t) : s < t := by
    obtain ⟨s₁, v, s₂, h₁, hget, -, hmod⟩ := h
    have hlt₁ := hstart h₁
    have hlt₂ := (getChar_spec hget).1
    have hle := (skipModifiers_forward hmod).le
    omega
  cases h with
  | char u h => exact hstart h
  | plain s₁ u h hget => exact (hstart h).trans (getChar_spec hget).1
  | short u h => exact hname h
  | long s₁ h hclosed => exact (hname h).trans_le (skipBraces_forward hclosed).le

theorem PartStep.start_lt (h : PartStep format s s') : s < format.length := by
  cases h with
  | char u h => exact h.lt
  | plain s₁ u h => exact h.lt
  | short u h =>
    obtain ⟨_, _, _, h, -⟩ := h
    exact h.lt
  | long s₁ h =>
    obtain ⟨_, _, _, h, -⟩ := h
    exact h.lt

/-- Steps do not change what is found at the end. -/
theorem skip_steps {r : Except Fault (Uchar × Nat)} {p : Nat}
    (h : ReflTransGen (PartStep format) s p)
    (hend : p ≤ format.length → ∀ fuel, formatSkipCondExpr format (fuel + 2) p = r)
    (hp : p ≤ format.length) {fuel : Nat} (hfuel : format.length + 2 ≤ fuel + s) :
    formatSkipCondExpr format fuel s = r := by
  induction h using ReflTransGen.head_induction_on generalizing fuel with
  | refl =>
    obtain ⟨fuel, rfl⟩ : ∃ k, fuel = k + 2 := ⟨fuel - 2, by omega⟩
    exact hend hp fuel
  | head hstep _ ih =>
    have hlt := hstep.lt
    have hin := hstep.start_lt
    obtain ⟨fuel, rfl⟩ : ∃ k, fuel = k + 1 := ⟨fuel - 1, by omega⟩
    rw [skip_step hstep]
    exact ih (by omega)

theorem Unfinished.le (h : Unfinished format s) : s ≤ format.length := by
  obtain ⟨_, ⟨_, _, _, hstart, -⟩, -⟩ := h
  exact Nat.le_of_lt hstart.lt

theorem skip_cutOff (h : CutOff format s) {fuel : Nat} (hfuel : format.length + 2 ≤ fuel + s) :
    formatSkipCondExpr format fuel s = .error .overread := by
  obtain ⟨p, hsteps, hend⟩ := h
  exact skip_steps hsteps (fun _ => skip_unfinished hend) hend.le hfuel

theorem skip_endsWith (h : EndsWith format s u s') {fuel : Nat}
    (hfuel : format.length + 2 ≤ fuel + s) : formatSkipCondExpr format fuel s = .ok (u, s') := by
  obtain ⟨p, hsteps, hend⟩ := h
  exact skip_steps hsteps (fun _ fuel => skip_ends hend (fuel + 1)) (Nat.le_of_lt hend.1.lt) hfuel

/-- Every part comes to an end of some kind. -/
theorem part_run (hs : s ≤ format.length) :
    ∃ p, ReflTransGen (PartStep format) s p ∧ p ≤ format.length ∧
      (Unfinished format p ∨ (∃ u s', PartEnds format p u s') ∨ PartStops format p) := by
  induction hn : format.length - s using Nat.strongRecOn generalizing s with
  | ind n ih =>
    obtain hcut | hends | hstops | ⟨s', hstep, hlt, hle⟩ := part_cases hs
    · exact ⟨s, .refl, hs, .inl hcut⟩
    · exact ⟨s, .refl, hs, .inr (.inl hends)⟩
    · exact ⟨s, .refl, hs, .inr (.inr hstops)⟩
    · obtain ⟨p, hsteps, hp, hend⟩ := ih _ (by omega) hle rfl
      exact ⟨p, .head hstep hsteps, hp, hend⟩

theorem skip_cases (hs : s ≤ format.length) :
    formatSkipCondExpr format (enough format) s = .error .overread ∧ CutOff format s ∨
      ∃ u s', formatSkipCondExpr format (enough format) s = .ok (u, s') ∧
        (u ≠ 0 → EndsWith format s u s' ∧ s' ≤ format.length) := by
  have hfuel : format.length + 2 ≤ enough format + s := Nat.le_add_right _ _
  obtain ⟨p, hsteps, hp, hcut | ⟨u, s', hends⟩ | hstops⟩ := part_run hs
  · have h : CutOff format s := ⟨p, hsteps, hcut⟩
    exact .inl ⟨skip_cutOff h hfuel, h⟩
  · have h : EndsWith format s u s' := ⟨p, hsteps, hends⟩
    exact .inr ⟨u, s', skip_endsWith h hfuel, fun _ => ⟨h, hends.1.le⟩⟩
  · obtain ⟨t, ht⟩ := skip_stops hstops (format.length + 1)
    have hsame (fuel : Nat) : formatSkipCondExpr format (fuel + 2) p = .ok (0, t) := by
      obtain hzero | ⟨s₁, s₂, hname, hopen⟩ := hstops
      · rw [formatSkipCondExpr, hzero, ok_bind, if_pos rfl] at ht ⊢
        exact ht
      · rw [skip_names hname, if_pos rfl, hopen] at ht ⊢
        exact ht
    exact .inr ⟨0, t, skip_steps hsteps (fun _ => hsame) hp hfuel, fun hne => absurd rfl hne⟩

/-- One of the parts of a conditional is cut off, all those in front of it end with a
question mark. -/
def CondCutOff (format : Text) (c : Nat) : Prop :=
  CutOff format c ∨ ∃ s₁, EndsWith format c (uch '?') s₁ ∧
    (CutOff format s₁ ∨ ∃ s₂, EndsWith format s₁ (uch '?') s₂ ∧ CutOff format s₂)

theorem readCond_cutOff (h : CondCutOff format c) :
    formatReadCond format c = .error .overread := by
  have hfuel (s : Nat) : format.length + 2 ≤ enough format + s := Nat.le_add_right _ _
  obtain hcut | ⟨s₁, hends₁, hcut | ⟨s₂, hends₂, hcut⟩⟩ := h
  · rw [formatReadCond, skip_cutOff hcut (hfuel _)]
    rfl
  · rw [formatReadCond, skip_endsWith hends₁ (hfuel _), ok_bind]
    dsimp only
    rw [if_neg (by decide), skip_cutOff hcut (hfuel _)]
    rfl
  · rw [formatReadCond, skip_endsWith hends₁ (hfuel _), ok_bind]
    dsimp only
    rw [if_neg (by decide), skip_endsWith hends₂ (hfuel _), ok_bind]
    dsimp only
    rw [if_neg (by decide), if_pos rfl, skip_cutOff hcut (hfuel _)]
    rfl

theorem readCond_cases (hc : c ≤ format.length) :
    formatReadCond format c = .error .overread ∧ CondCutOff format c ∨
      ∃ r, formatReadCond format c = .ok r := by
  rw [formatReadCond]
  obtain ⟨h₁, hcut⟩ | ⟨t, s₁, h₁, hends₁⟩ := skip_cases hc
  · exact .inl ⟨by rw [h₁]; rfl, .inl hcut⟩
  rw [h₁, ok_bind]
  dsimp only
  split
  · exact .inr ⟨_, rfl⟩
  rename_i hthen
  obtain rfl := not_not.mp hthen
  obtain ⟨hends₁, hs₁⟩ := hends₁ (by decide)
  obtain ⟨h₂, hcut⟩ | ⟨t, s₂, h₂, hends₂⟩ := skip_cases hs₁
  · exact .inl ⟨by rw [h₂]; rfl, .inr ⟨s₁, hends₁, .inl hcut⟩⟩
  rw [h₂, ok_bind]
  dsimp only
  split
  · exact .inr ⟨_, rfl⟩
  split
  · rename_i helse
    obtain rfl := helse
    obtain ⟨hends₂, hs₂⟩ := hends₂ (by decide)
    obtain ⟨h₃, hcut⟩ | ⟨t, s₃, h₃, -⟩ := skip_cases hs₂
    · exact .inl ⟨by rw [h₃]; rfl, .inr ⟨s₁, hends₁, .inr ⟨s₂, hends₂, hcut⟩⟩⟩
    rw [h₃, ok_bind]
    dsimp only
    split <;> exact .inr ⟨_, rfl⟩
  · exact .inr ⟨_, rfl⟩

/-! ### Where the check comes to -/

/-- Where the condition starts, if a conditional stands at the position. -/
def opening (format : Text) (s : Nat) : Except Fault (Option Nat) := do
  let (u, s) ← getChar format s
  if u ≠ uch '%' then .ok none
  else do
    let (u, s) ← getChar format s
    if isPlain u then .ok none
    else do
      let (_, u, s) ← validField format u s
      if u ≠ uch '{' then .ok none
      else do
        let c ← byteAt format s
        if c = ch '?' then .ok (some (s + 1)) else .ok none

section
variable {D : Type} {env : Expr.Env} {fopts : List (FormatOption D)} {fuel fSize : Nat}

theorem opening_of_cut {r : Except Fault (Option (Token × Nat))} (hopen : opening format s = .ok (some c))
    (hcut : CondCutOff format c) (hr : readToken env format fSize s = r) : r = .error .overread := by
  rw [← hr]
  unfold opening at hopen
  obtain ⟨⟨u, s₁⟩, h₁, hopen⟩ := bind_eq_ok.mp hopen
  dsimp only at hopen
  split at hopen
  · cases hopen
  rename_i hpercent
  obtain ⟨⟨u, s₂⟩, h₂, hopen⟩ := bind_eq_ok.mp hopen
  dsimp only at hopen
  split at hopen
  · cases hopen
  rename_i hplain
  obtain ⟨⟨f, u, s₃⟩, h₃, hopen⟩ := bind_eq_ok.mp hopen
  rw [validField_eq] at h₃
  obtain ⟨⟨field, u', s₃'⟩, h₃, hsame⟩ := bind_eq_ok.mp h₃
  cases hsame
  dsimp only at hopen
  split at hopen
  · cases hopen
  rename_i hbrace
  obtain ⟨b, h₄, hopen⟩ := bind_eq_ok.mp hopen
  split at hopen
  · rename_i hcond
    cases hopen
    simp only [readToken, h₁, h₂, h₃, h₄, ok_bind, if_neg hpercent, if_neg hplain,
      if_neg hbrace, if_pos hcond, readCond_cutOff hcut]
    rfl
  · cases hopen

/-- What reading a token comes to. -/
theorem readToken_cases (env : Expr.Env) (hs : s < fSize) (hsize : fSize ≤ format.length) :
    (readToken env format fSize s = .error .overread ∧
      ∃ c, opening format s = .ok (some c) ∧ CondCutOff format c) ∨
    ∃ r, readToken env format fSize s = .ok r := by
  obtain ⟨u, s₁, h₁, hin₁, hlt₁⟩ := getChar_inside (show s ≤ format.length by omega)
  have hs₁ : s₁ ≤ format.length := getChar_before h₁ (by omega)
  by_cases hpercent : u ≠ uch '%'
  · exact .inr ⟨_, by simp only [readToken, h₁, ok_bind, if_pos hpercent]; rfl⟩
  obtain ⟨u, s₂, h₂, hin₂, hlt₂⟩ := getChar_inside hs₁
  by_cases hplain : isPlain u = true
  · exact .inr ⟨_, by
      simp only [readToken, h₁, h₂, ok_bind, if_neg hpercent, if_pos hplain]; rfl⟩
  obtain ⟨f, u, s₃, hvalid, hin₃, hle₃⟩ := validField_inside hin₂
  have h₃ := hvalid
  rw [validField_eq] at h₃
  obtain ⟨⟨field, u', s₃'⟩, h₃, hsame⟩ := bind_eq_ok.mp h₃
  cases hsame
  by_cases hbrace : u ≠ uch '{'
  · exact .inr ⟨_, by
      simp only [readToken, h₁, h₂, h₃, ok_bind, if_neg hpercent, if_neg hplain, if_pos hbrace]
      rfl⟩
  have hs₃ := hin₃.within (not_not.mp hbrace ▸ by decide)
  obtain ⟨c, h₄⟩ := byteAt_inside hs₃
  by_cases hcond : c = ch '?'
  · have hopen : opening format s = .ok (some (s₃ + 1)) := by
      simp only [opening, h₁, h₂, hvalid, h₄, ok_bind, if_neg hpercent, if_neg hplain,
        if_neg hbrace, if_pos hcond]
    have hlt₃ := byteAt_before h₄ (hcond ▸ by decide)
    obtain ⟨h₅, hcut⟩ | ⟨b, h₅⟩ := readCond_cases (c := s₃ + 1) hlt₃
    · exact .inl ⟨opening_of_cut hopen hcut rfl, _, hopen, hcut⟩
    · right
      simp only [readToken, h₁, h₂, h₃, h₄, h₅, ok_bind, if_neg hpercent, if_neg hplain,
        if_neg hbrace, if_pos hcond]
      cases b with
      | none => exact ⟨_, rfl⟩
      | some b =>
        dsimp only
        split <;> exact ⟨_, rfl⟩
  · right
    obtain ⟨r, h₅⟩ := readLongName_inside (n := 0) hsize
      (show format.length + 1 < enough format + s₃ by rw [enough]; omega) hin₃.le
    simp only [readToken, h₁, h₂, h₃, h₄, h₅, ok_bind, if_neg hpercent, if_neg hplain,
      if_neg hbrace, if_neg hcond]
    cases r with
    | none => exact ⟨_, rfl⟩
    | some r => exact ⟨_, rfl⟩

variable (env fopts)

/-- The format can be read from the position on, and uses the table as it allows. -/
def Passes (format : Text) (fSize s : Nat) : Prop :=
  ∃ p, Reads env format fSize s p ∧ p.Allowed fopts

/-- A token that the check accepts. -/
def Token.Passes (format : Text) : Token → Prop
  | .char _ | .part _ => True
  | .field f key => validOption fopts f.padZero key = true
  | .cond _ b => Format.Passes env fopts (b.yes format).1 (b.yes format).2 0 ∧
      ∀ p, b.no format = some p → Format.Passes env fopts p.1 p.2 0

/-- The check comes to a conditional that is cut off: here, in a branch of the conditional
here, or behind the token here. -/
inductive CutShort : Text → Nat → Nat → Prop where
  | here {format : Text} {fSize s c : Nat} (hin : s < fSize) (hopen : opening format s = .ok (some c))
    (hcut : CondCutOff format c) : CutShort format fSize s
  | yes {format : Text} {fSize s s' : Nat} {cond : Expr} {b : Branches} (hin : s < fSize)
    (htok : readToken env format fSize s = .ok (some (.cond cond b, s')))
    (hcut : CutShort (b.yes format).1 (b.yes format).2 0) : CutShort format fSize s
  | no {format : Text} {fSize s s' : Nat} {cond : Expr} {b : Branches} {p : Text × Nat}
    (hin : s < fSize)
    (htok : readToken env format fSize s = .ok (some (.cond cond b, s')))
    (hyes : Passes env fopts (b.yes format).1 (b.yes format).2 0) (hno : b.no format = some p)
    (hcut : CutShort p.1 p.2 0) : CutShort format fSize s
  | behind {format : Text} {fSize s s' : Nat} {tok : Token} (hin : s < fSize)
    (htok : readToken env format fSize s = .ok (some (tok, s')))
    (hpass : tok.Passes env fopts format) (hfit : tok.overlaps fSize s' = false)
    (hcut : CutShort format fSize s') : CutShort format fSize s

variable {env fopts}

theorem valid_of_passes {tok : Token} (h : tok.Passes env fopts format)
    (hfuel : ∀ cond b, tok = .cond cond b → (b.yes format).1.length + 2 ≤ fuel ∧
      ∀ p, b.no format = some p → p.1.length + 2 ≤ fuel) :
    tok.valid env fopts fuel format = .ok true := by
  cases tok with
  | char u => rfl
  | part p => rfl
  | field f key => exact congrArg Except.ok h
  | cond cond b =>
    obtain ⟨⟨yes, hyes, hallowed⟩, hno⟩ := h
    obtain ⟨hyesFuel, hnoFuel⟩ := hfuel cond b rfl
    refine both_eq_ok.mpr ⟨valid_of_reads hyes hallowed (Nat.zero_le _) hyesFuel, ?_⟩
    cases hb : b.no format with
    | none => rfl
    | some p =>
      obtain ⟨no, hno, hallowed⟩ := hno p hb
      exact valid_of_reads hno hallowed (Nat.zero_le _) (hnoFuel p hb)

theorem check_cutShort (h : CutShort env fopts format fSize s) (hs : s ≤ format.length + 1)
    (hfuel : format.length + 2 ≤ fuel + s) :
    formatValidSub env fopts fuel format fSize s = .error .overread := by
  induction h generalizing fuel with
  | here hin hopen hcut =>
    obtain ⟨fuel, rfl⟩ : ∃ n, fuel = n + 1 := ⟨fuel - 1, by omega⟩
    rw [formatValidSub_eq hin, opening_of_cut hopen hcut rfl]
    rfl
  | @yes format fSize s s' cond b hin htok hcut ih =>
    obtain ⟨fuel, rfl⟩ : ∃ n, fuel = n + 1 := ⟨fuel - 1, by omega⟩
    obtain ⟨-, -, hshort⟩ := readToken_spec htok
    obtain ⟨⟨hlength, -⟩, -⟩ := hshort cond b rfl
    rw [formatValidSub_eq hin, htok, ok_bind, Option.elim_some, Token.valid,
      ih (Nat.zero_le _) (by omega)]
    rfl
  | @no format fSize s s' cond b p hin htok hyes hno hcut ih =>
    obtain ⟨fuel, rfl⟩ : ∃ n, fuel = n + 1 := ⟨fuel - 1, by omega⟩
    obtain ⟨-, -, hshort⟩ := readToken_spec htok
    obtain ⟨⟨hlength, -⟩, hnoLength⟩ := hshort cond b rfl
    obtain ⟨hlengthNo, -⟩ := hnoLength p hno
    obtain ⟨yes, hyes, hallowed⟩ := hyes
    obtain ⟨no, noSize⟩ := p
    rw [formatValidSub_eq hin, htok, ok_bind, Option.elim_some, Token.valid,
      valid_of_reads hyes hallowed (Nat.zero_le _) (by omega), hno, ok_bind]
    dsimp only
    rw [ih (Nat.zero_le _) (by dsimp only at hlengthNo ⊢; omega)]
    rfl
  | @behind format fSize s s' tok hin htok hpass hfit hcut ih =>
    obtain ⟨fuel, rfl⟩ : ∃ n, fuel = n + 1 := ⟨fuel - 1, by omega⟩
    obtain ⟨hlt, hle, hshort⟩ := readToken_spec htok
    have hvalid : tok.valid env fopts fuel format = .ok true := by
      refine valid_of_passes hpass fun cond b heq => ?_
      obtain ⟨⟨hlength, -⟩, hno⟩ := hshort cond b heq
      refine ⟨by omega, fun p hp => ?_⟩
      have hlengthNo := (hno p hp).1
      omega
    rw [formatValidSub_eq hin, htok, ok_bind, Option.elim_some, hvalid, ok_bind,
      if_pos ⟨rfl, hfit⟩]
    exact ih hle (by omega)

/-- One round of the check, or all of them. -/
theorem check_cases (hs : s ≤ format.length + 1) (hsize : fSize ≤ format.length)
    (hfuel : format.length + 2 ≤ fuel + s) :
    (formatValidSub env fopts fuel format fSize s = .error .overread ∧
      CutShort env fopts format fSize s) ∨
    ∃ valid, formatValidSub env fopts fuel format fSize s = .ok valid := by
  induction fuel generalizing format fSize s with
  | zero => omega
  | succ fuel ih =>
    by_cases hin : s < fSize
    swap
    · exact .inr ⟨true, by rw [formatValidSub, if_pos (Nat.not_lt.mp hin)]⟩
    rw [formatValidSub_eq hin]
    obtain ⟨htok, c, hopen, hcut⟩ | ⟨r, htok⟩ := readToken_cases env hin hsize
    · exact .inl ⟨by rw [htok]; rfl, .here hin hopen hcut⟩
    cases r with
    | none => exact .inr ⟨false, by rw [htok]; rfl⟩
    | some r =>
    obtain ⟨tok, s'⟩ := r
    obtain ⟨hlt, hle, hshort⟩ := readToken_spec htok
    rw [htok, ok_bind, Option.elim_some]
    -- what the check of the token comes to
    have hvalid : (tok.valid env fopts fuel format = .error .overread ∧
        CutShort env fopts format fSize s) ∨
        tok.valid env fopts fuel format = .ok false ∨
        (tok.valid env fopts fuel format = .ok true ∧ tok.Passes env fopts format) := by
      cases tok with
      | char u => exact .inr (.inr ⟨rfl, trivial⟩)
      | part p => exact .inr (.inr ⟨rfl, trivial⟩)
      | field f key =>
        cases hopt : validOption fopts f.padZero key with
        | false => exact .inr (.inl (congrArg Except.ok hopt))
        | true => exact .inr (.inr ⟨congrArg Except.ok hopt, hopt⟩)
      | cond cond b =>
        obtain ⟨⟨hlength, hyesSize⟩, hnoLength⟩ := hshort cond b rfl
        obtain ⟨hyes, hcut⟩ | ⟨yes, hyes⟩ := ih (s := 0) (Nat.zero_le _) hyesSize (by omega)
        · exact .inl ⟨by rw [Token.valid, hyes]; rfl, .yes hin htok hcut⟩
        cases yes with
        | false => exact .inr (.inl (by rw [Token.valid, hyes]; rfl))
        | true =>
        have hpass : Passes env fopts (b.yes format).1 (b.yes format).2 0 := reads_of_valid hyes
        cases hb : b.no format with
        | none =>
          refine .inr (.inr ⟨by rw [Token.valid, hyes, hb]; rfl, hpass, fun p hp => ?_⟩)
          cases hb.symm.trans hp
        | some p =>
          obtain ⟨hlengthNo, hnoSize⟩ := hnoLength p hb
          obtain ⟨hno, hcut⟩ | ⟨no, hno⟩ := ih (s := 0) (Nat.zero_le _) hnoSize (by omega)
          · refine .inl ⟨?_, .no hin htok hpass hb hcut⟩
            rw [Token.valid, hyes, hb]
            exact hno
          cases no with
          | false =>
            refine .inr (.inl ?_)
            rw [Token.valid, hyes, hb]
            exact hno
          | true =>
            refine .inr (.inr ⟨?_, hpass, fun q hq => ?_⟩)
            · rw [Token.valid, hyes, hb]
              exact hno
            · cases hb.symm.trans hq
              exact reads_of_valid hno
    obtain ⟨hvalid, hcut⟩ | hvalid | ⟨hvalid, hpass⟩ := hvalid
    · exact .inl ⟨by rw [hvalid]; rfl, hcut⟩
    · exact .inr ⟨false, by rw [hvalid]; rfl⟩
    rw [hvalid, ok_bind]
    by_cases hfit : tok.overlaps fSize s' = false
    · rw [if_pos ⟨rfl, hfit⟩]
      obtain ⟨hrest, hcut⟩ | ⟨valid, hrest⟩ := ih hle hsize (by omega)
      · exact .inl ⟨hrest, .behind hin htok hpass hfit hcut⟩
      · exact .inr ⟨valid, hrest⟩
    · exact .inr ⟨false, if_neg fun h => hfit h.2⟩

end

/-- The check of a format comes to a result and stays inside the format, if and only if it
comes to no conditional that is cut off. -/
theorem formatValid_inside_iff {D : Type} (env : Expr.Env) (fopts : List (FormatOption D))
    (format : Text) :
    (∃ valid, formatValid env fopts format = .ok valid) ↔
      ¬ CutShort env fopts format format.length 0 := by
  constructor
  · intro h hcut
    obtain ⟨valid, hvalid⟩ := h
    have hcheck : formatValid env fopts format = .error .overread :=
      check_cutShort hcut (Nat.zero_le _) (Nat.le_refl _)
    rw [hcheck] at hvalid
    cases hvalid
  · intro h
    have hcases : (formatValid env fopts format = .error .overread ∧
        CutShort env fopts format format.length 0) ∨
        ∃ valid, formatValid env fopts format = .ok valid :=
      check_cases (Nat.zero_le _) (Nat.le_refl _) (Nat.le_refl _)
    obtain ⟨-, hcut⟩ | hvalid := hcases
    · exact absurd hcut h
    · exact hvalid

/-- A percent sign as the last character of a condition. -/
theorem format_overread :
    formatValid Expr.plainEnv ([] : List (FormatOption Unit)) (ascii "%\x7b?%") =
      .error .overread := by
  decide +kernel

end GracefulMusic.Format
