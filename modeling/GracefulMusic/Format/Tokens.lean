import GracefulMusic.Format.Print
import GracefulMusic.Format.Progress

/-! The tokens of a format.

The check and the interpreter go from one token to the next. The check does not look at
the part that a token changes to, and sees only behind a conditional that it did not fit. -/
namespace GracefulMusic.Format

inductive Token where
  | char (u : Uchar)
  | part (p : Part)
  | field (field : Field) (key : Key)
  | cond (cond : Expr) (branches : Branches)

/-- The token at a position, with the position after it; `none` where there is none. -/
def nextToken (env : Expr.Env) (format : Text) (fSize s : Nat) :
    Except Fault (Option (Token × Nat)) := do
  let (u, s) ← getChar format s
  if u ≠ uch '%' then .ok (some (.char u, s))
  else do
    let (u, s) ← getChar format s
    if u = uch '%' ∨ u = uch '?' then .ok (some (.char u, s))
    else if u = uch '!' then .ok (some (.part .middle, s))
    else if u = uch '=' then .ok (some (.part .right, s))
    else do
      let (field, u, s) ← readField format u s
      if u ≠ uch '{' then .ok (some (.field field (.short u), s))
      else do
        let c ← byteAt format s
        if c = ch '?' then do
          let some b ← formatReadCond format (s + 1) | .ok none
          let some cond := formatParseCond env format (s + 1) b.thenPos | .ok none
          if fSize < b.endPos + 1 then .ok none else .ok (some (.cond cond b, b.endPos + 1))
        else do
          let some (longLen, s') ← readLongName format fSize (enough format) s 0 | .ok none
          .ok (some (.field field (.of format s longLen (uch '}')), s'))

/-- The token at a position, whether or not it fits into the format. -/
def readToken (env : Expr.Env) (format : Text) (fSize s : Nat) :
    Except Fault (Option (Token × Nat)) := do
  let (u, s) ← getChar format s
  if u ≠ uch '%' then .ok (some (.char u, s))
  else do
    let (u, s) ← getChar format s
    if isPlain u then .ok (some (.char u, s))
    else do
      let (field, u, s) ← readField format u s
      if u ≠ uch '{' then .ok (some (.field field (.short u), s))
      else do
        let c ← byteAt format s
        if c = ch '?' then do
          let some b ← formatReadCond format (s + 1) | .ok none
          let some cond := formatParseCond env format (s + 1) b.thenPos | .ok none
          .ok (some (.cond cond b, b.endPos + 1))
        else do
          let some (longLen, s') ← readLongName format fSize (enough format) s 0 | .ok none
          .ok (some (.field field (.of format s longLen (uch '}')), s'))

/-- A conditional that ends behind the format, which has ended in the middle of it. -/
def Token.overlaps (fSize s' : Nat) : Token → Bool
  | .cond _ _ => fSize < s'
  | _ => false

/-! ### Reading a token -/

section
variable {env : Expr.Env} {format : Text} {fSize s s' : Nat}

/-- The check takes a change of the part for a character. -/
def Token.checked : Token → Token
  | .char _ => .char 0
  | .part _ => .char 0
  | .field f key => .field f key
  | .cond c b => .cond c b

theorem nextToken_eq (env : Expr.Env) (format : Text) (fSize s : Nat) :
    (nextToken env format fSize s).map (Option.map (Prod.map Token.checked id)) =
      (readToken env format fSize s).map fun r =>
        (r.filter fun t => !t.1.overlaps fSize t.2).map (Prod.map Token.checked id) := by
  rw [nextToken, readToken]
  cases getChar format s with
  | error fault => rfl
  | ok r =>
  obtain ⟨u, s₁⟩ := r
  simp only [ok_bind]
  by_cases hpercent : u ≠ uch '%'
  · simp only [if_pos hpercent]
    rfl
  simp only [if_neg hpercent]
  cases getChar format s₁ with
  | error fault => rfl
  | ok r =>
  obtain ⟨u, s₂⟩ := r
  simp only [ok_bind]
  by_cases hplain : u = uch '%' ∨ u = uch '?'
  · have hchar : isPlain u = true := by rcases hplain with rfl | rfl <;> rfl
    rw [if_pos hplain, if_pos hchar]
    rfl
  by_cases hmiddle : u = uch '!'
  · subst hmiddle
    rfl
  by_cases hright : u = uch '='
  · subst hright
    rfl
  have hnot : ¬ isPlain u = true := by simpa [isPlain, hmiddle, hright] using hplain
  simp only [if_neg hplain, if_neg hmiddle, if_neg hright, if_neg hnot]
  cases readField format u s₂ with
  | error fault => rfl
  | ok r =>
  obtain ⟨field, u, s₃⟩ := r
  simp only [ok_bind]
  by_cases hshort : u ≠ uch '{'
  · simp only [if_pos hshort]
    rfl
  simp only [if_neg hshort]
  cases byteAt format s₃ with
  | error fault => rfl
  | ok c =>
  simp only [ok_bind]
  by_cases hcond : c = ch '?'
  · simp only [if_pos hcond]
    cases formatReadCond format (s₃ + 1) with
    | error fault => rfl
    | ok branches =>
    cases branches with
    | none => rfl
    | some b =>
    simp only [ok_bind]
    cases formatParseCond env format (s₃ + 1) b.thenPos with
    | none => rfl
    | some cond =>
    by_cases hend : fSize < b.endPos + 1
    · simp [hend, Token.overlaps, Except.map]
    · simp [hend, Token.overlaps, Except.map]
  · simp only [if_neg hcond]
    cases readLongName format fSize (enough format) s₃ 0 with
    | error fault => rfl
    | ok name =>
    cases name with
    | none => rfl
    | some p => rfl

/-- Both readers go on to the same position. -/
theorem readToken_of_next {tok : Token}
    (htok : nextToken env format fSize s = .ok (some (tok, s'))) :
    ∃ tok', readToken env format fSize s = .ok (some (tok', s')) ∧
      tok'.overlaps fSize s' = false ∧ tok'.checked = tok.checked := by
  have heq := nextToken_eq env format fSize s
  rw [htok] at heq
  cases hread : readToken env format fSize s with
  | error fault =>
    rw [hread] at heq
    cases heq
  | ok r =>
    rw [hread] at heq
    have hsame := (Except.ok.inj heq).symm
    obtain ⟨⟨tok', s₁⟩, hkept, hboth⟩ := Option.map_eq_some_iff.mp hsame
    obtain ⟨rfl, hfit⟩ := Option.filter_eq_some_iff.mp hkept
    obtain ⟨hchecked, rfl⟩ := Prod.mk.inj hboth
    exact ⟨tok', rfl, by simpa using hfit, hchecked⟩

theorem next_of_readToken {tok : Token}
    (htok : readToken env format fSize s = .ok (some (tok, s')))
    (hfit : tok.overlaps fSize s' = false) :
    ∃ tok', nextToken env format fSize s = .ok (some (tok', s')) ∧
      tok'.checked = tok.checked := by
  have heq := nextToken_eq env format fSize s
  rw [htok] at heq
  cases hnext : nextToken env format fSize s with
  | error fault =>
    rw [hnext] at heq
    cases heq
  | ok r =>
    rw [hnext] at heq
    have hkept : Option.filter (fun t : Token × Nat => !t.1.overlaps fSize t.2) (some (tok, s')) =
        some (tok, s') := Option.filter_some_pos (by rw [hfit]; rfl)
    have hsame := Except.ok.inj heq
    dsimp only at hsame
    rw [hkept] at hsame
    obtain ⟨⟨tok', s₁⟩, rfl, hboth⟩ := Option.map_eq_some_iff.mp hsame
    obtain ⟨hchecked, rfl⟩ := Prod.mk.inj hboth
    exact ⟨tok', rfl, hchecked⟩

/-- The next token is further on, and the branches of a conditional are shorter. -/
theorem readToken_spec {tok : Token} (htok : readToken env format fSize s = .ok (some (tok, s'))) :
    s < s' ∧ s' ≤ format.length + 1 ∧ ∀ cond b, tok = .cond cond b →
      ((b.yes format).1.length + s + 1 < format.length ∧
        (b.yes format).2 ≤ (b.yes format).1.length) ∧
      ∀ p, b.no format = some p → p.1.length + s + 1 < format.length ∧ p.2 ≤ p.1.length := by
  obtain ⟨⟨u, s₁⟩, h₁, h⟩ := bind_eq_ok.mp htok
  obtain ⟨hlt, hle, -⟩ := getChar_spec h₁
  dsimp only at h
  split at h
  · cases h
    exact ⟨hlt, hle, fun _ _ heq => by cases heq⟩
  obtain ⟨⟨u, s₂⟩, h₂, h⟩ := bind_eq_ok.mp h
  obtain ⟨hlt₂, hle₂, -⟩ := getChar_spec h₂
  have hlt₂ := hlt.trans hlt₂
  dsimp only at h
  split at h
  · cases h
    exact ⟨hlt₂, hle₂, fun _ _ heq => by cases heq⟩
  obtain ⟨⟨field, u, s₃⟩, h₃, h⟩ := bind_eq_ok.mp h
  have hfield := readField_forward h₃
  have hlt₃ : s < s₃ := hlt₂.trans_le hfield.le
  have hle₃ : s₃ ≤ format.length + 1 := hfield.bound.elim (fun heq => heq ▸ hle₂) id
  dsimp only at h
  split at h
  · cases h
    exact ⟨hlt₃, hle₃, fun _ _ heq => by cases heq⟩
  obtain ⟨c, -, h⟩ := bind_eq_ok.mp h
  split at h
  · obtain ⟨branches, hread, h⟩ := bind_eq_ok.mp h
    cases branches with
    | none => cases h
    | some b =>
    obtain ⟨hthen, hnext, helse, hend⟩ := formatReadCond_spec hread
    dsimp only at h
    split at h
    · cases h
      have hthen' : b.thenPos < b.endPos := by
        cases hpos : b.elsePos with
        | none => rwa [hpos] at hnext
        | some elsePos =>
          obtain ⟨h₁, h₂⟩ := helse elsePos hpos
          exact h₁.trans h₂
      have hyes : b.elsePos.getD b.endPos ≤ b.endPos := by
        cases hpos : b.elsePos with
        | none => exact Nat.le_refl _
        | some elsePos => exact Nat.le_of_lt (helse elsePos hpos).2
      refine ⟨by omega, by omega, fun c b' heq => ?_⟩
      cases heq
      refine ⟨by simp only [Branches.yes, List.length_drop]; omega, fun p hp => ?_⟩
      obtain ⟨elsePos, hpos, rfl⟩ := Option.map_eq_some_iff.mp hp
      obtain ⟨h₁, h₂⟩ := helse elsePos hpos
      simp only [List.length_drop]
      omega
    · cases h
  · obtain ⟨name, hlong, h⟩ := bind_eq_ok.mp h
    cases name with
    | none => cases h
    | some r =>
    cases h
    have hname := readLongName_forward hlong
    exact ⟨hlt₃.trans_le hname.le, hname.bound.elim (fun heq => heq ▸ hle₃) id, fun _ _ heq => by cases heq⟩

/-- A token lies before the next one, and the branches of a conditional are shorter than
what is left of the format. -/
theorem nextToken_spec {tok : Token}
    (htok : nextToken env format fSize s = .ok (some (tok, s'))) :
    s < s' ∧ s' ≤ format.length + 1 ∧ ∀ c b, tok = .cond c b →
      (b.yes format).1.length + s + 1 < format.length ∧
        ∀ p, b.no format = some p → p.1.length + s + 1 < format.length := by
  obtain ⟨tok', hread, -, hchecked⟩ := readToken_of_next htok
  obtain ⟨hlt, hle, hshort⟩ := readToken_spec hread
  refine ⟨hlt, hle, fun c b heq => ?_⟩
  subst heq
  cases tok' with
  | char u => cases hchecked
  | part p => cases hchecked
  | field f key => cases hchecked
  | cond c' b' =>
    cases hchecked
    obtain ⟨⟨hyes, -⟩, hno⟩ := hshort c b rfl
    exact ⟨hyes, fun p hp => (hno p hp).1⟩

end

/-! ### The check of a token -/

section
variable {D : Type} (env : Expr.Env) (fopts : List (FormatOption D)) (fuel : Nat) (format : Text)

/-- The check of a token. -/
def Token.valid : Token → Except Fault Bool
  | .char _ | .part _ => .ok true
  | .field f key => .ok (validOption fopts f.padZero key)
  | .cond _ b => do
    if !(← formatValidSub env fopts fuel (b.yes format).1 (b.yes format).2 0) then .ok false
    else
      match b.no format with
      | some (branch, size) => formatValidSub env fopts fuel branch size 0
      | none => .ok true

variable {env fopts fuel format} {fSize s s' : Nat}

/-- The digits are the same with and without their value. -/
theorem skipDigits_eq (n : Nat) (width : Int) (u : Uchar) (s : Nat) :
    skipDigits format n u s =
      (do let (_, u, s) ← readWidth format n width u s; .ok (u, s)) := by
  induction n generalizing width u s with
  | zero => rfl
  | succ n ih =>
    rw [skipDigits, readWidth]
    split
    · cases getChar format s with
      | error fault => rfl
      | ok r => exact ih (toInt (width * 10 + (u - uch '0').toNat)) r.1 r.2
    · rfl

/-- The two read the same between the percent sign and the name. -/
theorem validField_eq (u : Uchar) (s : Nat) : validField format u s =
    (do let (field, u, s) ← readField format u s; .ok (field.padZero, u, s)) := by
  simp only [validField, readField, skipDigits_eq (enough format) 0, bind_assoc, ok_bind]

/-- The check goes from token to token. -/
theorem formatValidSub_eq (hin : s < fSize) :
    formatValidSub env fopts (fuel + 1) format fSize s =
      readToken env format fSize s >>= fun r => r.elim (.ok false) fun t =>
        t.1.valid env fopts fuel format >>= fun valid =>
          if valid = true ∧ t.1.overlaps fSize t.2 = false then
            formatValidSub env fopts fuel format fSize t.2
          else .ok false := by
  rw [formatValidSub, if_neg (Nat.not_le.mpr hin), readToken]
  cases getChar format s with
  | error fault => rfl
  | ok r =>
  obtain ⟨u, s₁⟩ := r
  simp only [ok_bind]
  by_cases hpercent : u ≠ uch '%'
  · simp [if_pos hpercent, Token.valid, Token.overlaps, ok_bind]
  simp only [if_neg hpercent]
  cases getChar format s₁ with
  | error fault => rfl
  | ok r =>
  obtain ⟨u, s₂⟩ := r
  simp only [ok_bind]
  by_cases hplain : isPlain u = true
  · simp [if_pos hplain, Token.valid, Token.overlaps, ok_bind]
  simp only [if_neg hplain, validField_eq]
  cases readField format u s₂ with
  | error fault => rfl
  | ok r =>
  obtain ⟨field, u, s₃⟩ := r
  simp only [ok_bind]
  by_cases hshort : u ≠ uch '{'
  · by_cases hopt : validOption fopts field.padZero (.short u) = true <;>
      simp [if_pos hshort, Token.valid, Token.overlaps, ok_bind, hopt]
  simp only [if_neg hshort]
  cases byteAt format s₃ with
  | error fault => rfl
  | ok c =>
  simp only [ok_bind]
  by_cases hcond : c = ch '?'
  · simp only [if_pos hcond]
    cases formatReadCond format (s₃ + 1) with
    | error fault => rfl
    | ok branches =>
    cases branches with
    | none => rfl
    | some b =>
    simp only [ok_bind]
    cases formatParseCond env format (s₃ + 1) b.thenPos with
    | none => rfl
    | some cond =>
    simp only [Token.valid, Option.elim, ok_bind]
    have hover : (Token.cond cond b).overlaps fSize (b.endPos + 1) = decide (fSize < b.endPos + 1) :=
      rfl
    obtain fault | valid := formatValidSub env fopts fuel (b.yes format).1 (b.yes format).2 0
    · rfl
    cases valid with
    | false => rfl
    | true =>
    cases b.no format with
    | none => by_cases hend : fSize < b.endPos + 1 <;> simp [ok_bind, hover, hend]
    | some p =>
    obtain ⟨no, noSize⟩ := p
    dsimp only
    obtain fault | valid := formatValidSub env fopts fuel no noSize 0
    · rfl
    cases valid with
    | false => rfl
    | true => by_cases hend : fSize < b.endPos + 1 <;> simp [ok_bind, hover, hend]
  · simp only [if_neg hcond]
    cases readLongName format fSize (enough format) s₃ 0 with
    | error fault => rfl
    | ok name =>
    cases name with
    | none => rfl
    | some p =>
    obtain ⟨longLen, s'⟩ := p
    by_cases hopt : validOption fopts field.padZero (.of format s₃ longLen (uch '}')) = true <;>
      simp [Token.valid, Token.overlaps, ok_bind, hopt]

theorem Token.valid_eq {tok tok' : Token} (h : tok'.checked = tok.checked) :
    tok'.valid env fopts fuel format = tok.valid env fopts fuel format := by
  have hchecked (tok : Token) :
      tok.checked.valid env fopts fuel format = tok.valid env fopts fuel format := by
    cases tok with
    | char u => rfl
    | part p => rfl
    | field f key => rfl
    | cond c b => rfl
  rw [← hchecked tok', h, hchecked]

theorem formatValidSub_token (hin : s < fSize) :
    formatValidSub env fopts (fuel + 1) format fSize s = .ok true ↔
      ∃ tok s', nextToken env format fSize s = .ok (some (tok, s')) ∧
        tok.valid env fopts fuel format = .ok true ∧
        formatValidSub env fopts fuel format fSize s' = .ok true := by
  rw [formatValidSub_eq hin]
  constructor
  · intro h
    obtain ⟨r, hread, h⟩ := bind_eq_ok.mp h
    cases r with
    | none => cases h
    | some r =>
    obtain ⟨tok, s'⟩ := r
    obtain ⟨valid, hvalid, h⟩ := bind_eq_ok.mp h
    split at h
    · next hgood =>
      obtain ⟨rfl, hfit⟩ := hgood
      obtain ⟨tok', hnext, hchecked⟩ := next_of_readToken hread hfit
      exact ⟨tok', s', hnext, (Token.valid_eq hchecked).trans hvalid, h⟩
    · cases h
  · intro h
    obtain ⟨tok, s', hnext, hvalid, hrest⟩ := h
    obtain ⟨tok', hread, hfit, hchecked⟩ := readToken_of_next hnext
    rw [hread, ok_bind, Option.elim_some, Token.valid_eq hchecked, hvalid, ok_bind,
      if_pos ⟨rfl, hfit⟩]
    exact hrest

end

end GracefulMusic.Format
