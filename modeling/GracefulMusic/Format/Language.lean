import GracefulMusic.Format.Tokens

/-! The language of formats.

A format is read as a tree of pieces, one token after the other. The check accepts what
can be read and uses options of the table as they allow, and printing carries the pieces
out. -/
namespace GracefulMusic.Format

inductive Pieces where
  | nil
  | char (u : Uchar) (rest : Pieces)
  | part (p : Part) (rest : Pieces)
  | field (field : Field) (key : Key) (rest : Pieces)
  | cond (cond : Expr) (yes no rest : Pieces)

/-- A format of the size, from the position on, reads as the pieces. -/
inductive Reads (env : Expr.Env) : Text → Nat → Nat → Pieces → Prop where
  | nil {format fSize s} (hend : fSize ≤ s) : Reads env format fSize s .nil
  | char {format fSize s u s' rest} (hin : s < fSize)
      (htok : nextToken env format fSize s = .ok (some (.char u, s')))
      (hrest : Reads env format fSize s' rest) : Reads env format fSize s (.char u rest)
  | part {format fSize s p s' rest} (hin : s < fSize)
      (htok : nextToken env format fSize s = .ok (some (.part p, s')))
      (hrest : Reads env format fSize s' rest) : Reads env format fSize s (.part p rest)
  | field {format fSize s field key s' rest} (hin : s < fSize)
      (htok : nextToken env format fSize s = .ok (some (.field field key, s')))
      (hrest : Reads env format fSize s' rest) : Reads env format fSize s (.field field key rest)
  | cond {format fSize s cond b s' yes no rest} (hin : s < fSize)
      (htok : nextToken env format fSize s = .ok (some (.cond cond b, s')))
      (hyes : Reads env (b.yes format).1 (b.yes format).2 0 yes)
      (hno : ∀ p, b.no format = some p → Reads env p.1 p.2 0 no)
      (hnone : b.no format = none → no = .nil)
      (hrest : Reads env format fSize s' rest) : Reads env format fSize s (.cond cond yes no rest)

namespace Pieces
variable {D : Type}

/-- Every name is in the table, zeros are asked for only where they are allowed, and so
in all branches. -/
def Allowed (fopts : List (FormatOption D)) : Pieces → Prop
  | nil => True
  | .char _ rest | .part _ rest => rest.Allowed fopts
  | .field f key rest => validOption fopts f.padZero key = true ∧ rest.Allowed fopts
  | .cond _ yes no rest => yes.Allowed fopts ∧ no.Allowed fopts ∧ rest.Allowed fopts

/-- The calls that print the pieces; of a conditional those of the branch that holds. -/
def print (env : Env) (strWidth : Int) (fopts : List (FormatOption D)) :
    Pieces → Out D → Out D
  | nil, out => out
  | .char u rest, out => rest.print env strWidth fopts (out.print (.char u))
  | .part p rest, out => rest.print env strWidth fopts {out with part := p}
  | .field f key rest, out =>
    rest.print env strWidth fopts (match fopts.find? (FormatOption.matches · key) with
      | some fo => out.print (.option f (f.columns strWidth) fo)
      | none => out)
  | .cond c yes no rest, out =>
    rest.print env strWidth fopts
      (if formatEvalCond env fopts c then yes.print env strWidth fopts out
        else no.print env strWidth fopts out)

end Pieces

/-! ### Tokens -/

section
variable {env : Expr.Env} {format : Text} {fSize s s' : Nat}

/-- There is one way to read a format. -/
theorem Reads.unique {p q : Pieces} (hp : Reads env format fSize s p)
    (hq : Reads env format fSize s q) : p = q := by
  induction hp generalizing q with
  | nil hend =>
    cases hq with
    | nil => rfl
    | char hin | part hin | field hin | cond hin => exact absurd hin (Nat.not_lt.mpr hend)
  | char hin htok hrest ih =>
    cases hq with
    | nil hend => exact absurd hin (Nat.not_lt.mpr hend)
    | char _ htok' hrest' =>
      cases htok.symm.trans htok'
      rw [ih hrest']
    | part _ htok' | field _ htok' | cond _ htok' => cases htok.symm.trans htok'
  | part hin htok hrest ih =>
    cases hq with
    | nil hend => exact absurd hin (Nat.not_lt.mpr hend)
    | part _ htok' hrest' =>
      cases htok.symm.trans htok'
      rw [ih hrest']
    | char _ htok' | field _ htok' | cond _ htok' => cases htok.symm.trans htok'
  | field hin htok hrest ih =>
    cases hq with
    | nil hend => exact absurd hin (Nat.not_lt.mpr hend)
    | field _ htok' hrest' =>
      cases htok.symm.trans htok'
      rw [ih hrest']
    | char _ htok' | part _ htok' | cond _ htok' => cases htok.symm.trans htok'
  | @cond format fSize s cond b s' yes no rest hin htok hyes hno hnone hrest ihyes ihno ihrest =>
    cases hq with
    | nil hend => exact absurd hin (Nat.not_lt.mpr hend)
    | cond _ htok' hyes' hno' hnone' hrest' =>
      cases htok.symm.trans htok'
      rw [ihyes hyes', ihrest hrest']
      cases hb : b.no format with
      | none => rw [hnone hb, hnone' hb]
      | some p => rw [ihno p hb (hno' p hb)]
    | char _ htok' | part _ htok' | field _ htok' => cases htok.symm.trans htok'

end

/-! ### The check -/

section
variable {D : Type} {env : Expr.Env} {fopts : List (FormatOption D)} {fuel : Nat} {format : Text}
  {fSize s s' : Nat}

theorem reads_of_valid (h : formatValidSub env fopts fuel format fSize s = .ok true) :
    ∃ p, Reads env format fSize s p ∧ p.Allowed fopts := by
  induction fuel generalizing format fSize s with
  | zero => cases h
  | succ fuel ih =>
    by_cases hin : s < fSize
    · obtain ⟨tok, s', htok, hvalid, hrest⟩ := (formatValidSub_token hin).mp h
      obtain ⟨rest, hreads, hallowed⟩ := ih hrest
      cases tok with
      | char u => exact ⟨_, .char hin htok hreads, hallowed⟩
      | part p => exact ⟨_, .part hin htok hreads, hallowed⟩
      | field f key => exact ⟨_, .field hin htok hreads, Except.ok.inj hvalid, hallowed⟩
      | cond c b =>
        obtain ⟨hyes, hno⟩ := both_eq_ok.mp hvalid
        obtain ⟨yes, hyes, hyes'⟩ := ih hyes
        cases hb : b.no format with
        | none =>
          exact ⟨_, .cond hin htok hyes (fun _ hp => nomatch hb.symm.trans hp) (fun _ => rfl)
            hreads, hyes', trivial, hallowed⟩
        | some p =>
          rw [hb] at hno
          obtain ⟨no, hno, hno'⟩ := ih hno
          refine ⟨_, .cond hin htok hyes (fun _ hp => ?_) (fun hn => nomatch hb.symm.trans hn)
            hreads, hyes', hno', hallowed⟩
          cases hb.symm.trans hp
          exact hno
    · exact ⟨.nil, .nil (Nat.not_lt.mp hin), trivial⟩

/-- The fuel is enough. -/
theorem valid_of_reads {p : Pieces} (h : Reads env format fSize s p) (hallowed : p.Allowed fopts)
    (hs : s ≤ format.length + 1) (hfuel : format.length + 2 ≤ fuel + s) :
    formatValidSub env fopts fuel format fSize s = .ok true := by
  induction h generalizing fuel with
  | nil hend =>
    obtain ⟨fuel, rfl⟩ : ∃ n, fuel = n + 1 := ⟨fuel - 1, by omega⟩
    rw [formatValidSub, if_pos hend]
  | char hin htok hrest ih | part hin htok hrest ih =>
    obtain ⟨fuel, rfl⟩ : ∃ n, fuel = n + 1 := ⟨fuel - 1, by omega⟩
    obtain ⟨hlt, hle, -⟩ := nextToken_spec htok
    exact (formatValidSub_token hin).mpr ⟨_, _, htok, rfl, ih hallowed hle (by omega)⟩
  | field hin htok hrest ih =>
    obtain ⟨fuel, rfl⟩ : ∃ n, fuel = n + 1 := ⟨fuel - 1, by omega⟩
    obtain ⟨hlt, hle, -⟩ := nextToken_spec htok
    exact (formatValidSub_token hin).mpr
      ⟨_, _, htok, congrArg _ hallowed.1, ih hallowed.2 hle (by omega)⟩
  | @cond format fSize s c b s' yes no rest hin htok hyes hno hnone hrest ihyes ihno ihrest =>
    obtain ⟨fuel, rfl⟩ : ∃ n, fuel = n + 1 := ⟨fuel - 1, by omega⟩
    obtain ⟨hlt, hle, hshort⟩ := nextToken_spec htok
    obtain ⟨hyesLen, hnoLen⟩ := hshort c b rfl
    obtain ⟨hyes', hno', hrest'⟩ := hallowed
    refine (formatValidSub_token hin).mpr ⟨_, _, htok, both_eq_ok.mpr
      ⟨ihyes hyes' (Nat.zero_le _) (by omega), ?_⟩, ihrest hrest' hle (by omega)⟩
    cases hb : b.no format with
    | none => rfl
    | some p =>
      have hlen := hnoLen p hb
      exact ihno p hb hno' (Nat.zero_le _) (by omega)

end

/-! ### The interpreter -/

section
variable {D : Type} (env : Env) (strWidth : Int) (fopts : List (FormatOption D)) (fuel : Nat)
  (format : Text)

/-- The interpreter at a token. -/
def Token.exec (out : Out D) : Token → Except Fault (Out D)
  | .char u => .ok (out.print (.char u))
  | .part p => .ok {out with part := p}
  | .field f key => printOption strWidth fopts f key out
  | .cond c b =>
    match if formatEvalCond env fopts c then some (b.yes format) else b.no format with
    | some (branch, size) => formatParse env strWidth fopts fuel branch size 0 out
    | none => .ok out

variable {env fopts fuel format} {fSize s s' : Nat}

theorem formatParse_token (out : Out D) {tok : Token} (hin : s < fSize)
    (htok : nextToken env.toEnv format fSize s = .ok (some (tok, s'))) :
    formatParse env strWidth fopts (fuel + 1) format fSize s out =
      (do formatParse env strWidth fopts fuel format fSize s'
            (← tok.exec env strWidth fopts fuel format out)) := by
  rw [formatParse, if_neg (Nat.not_le.mpr hin)]
  rw [nextToken] at htok
  obtain ⟨⟨u, s₁⟩, hget, htok⟩ := bind_eq_ok.mp htok
  rw [hget, ok_bind]
  by_cases hpercent : u ≠ uch '%'
  · simp only [if_pos hpercent] at htok ⊢
    cases htok
    rfl
  simp only [if_neg hpercent] at htok ⊢
  obtain ⟨⟨u, s₂⟩, hget, htok⟩ := bind_eq_ok.mp htok
  rw [hget, ok_bind]
  by_cases hplain : u = uch '%' ∨ u = uch '?'
  · simp only [if_pos hplain] at htok ⊢
    cases htok
    rfl
  by_cases hmiddle : u = uch '!'
  · simp only [if_neg hplain, if_pos hmiddle] at htok ⊢
    cases htok
    rfl
  by_cases hright : u = uch '='
  · simp only [if_neg hplain, if_neg hmiddle, if_pos hright] at htok ⊢
    cases htok
    rfl
  simp only [if_neg hplain, if_neg hmiddle, if_neg hright] at htok ⊢
  obtain ⟨⟨field, u, s₃⟩, hfield, htok⟩ := bind_eq_ok.mp htok
  rw [hfield, ok_bind]
  by_cases hshort : u ≠ uch '{'
  · simp only [if_pos hshort] at htok ⊢
    cases htok
    rfl
  simp only [if_neg hshort] at htok ⊢
  obtain ⟨c, hbyte, htok⟩ := bind_eq_ok.mp htok
  rw [hbyte, ok_bind]
  by_cases hcond : c = ch '?'
  · simp only [if_pos hcond] at htok ⊢
    obtain ⟨branches, hread, htok⟩ := bind_eq_ok.mp htok
    rw [hread, ok_bind]
    cases branches with
    | none => cases htok
    | some b =>
      cases hparse : formatParseCond env.toEnv format (s₃ + 1) b.thenPos with
      | none => simp only [hparse] at htok; cases htok
      | some cond =>
        simp only [hparse] at htok ⊢
        by_cases hend : fSize < b.endPos + 1
        · rw [if_pos hend] at htok
          cases htok
        · simp only [if_neg hend] at htok ⊢
          cases htok
          rw [Token.exec]
          generalize (if formatEvalCond env fopts cond then some (b.yes format)
            else b.no format) = branch
          cases branch <;> rfl
  · simp only [if_neg hcond] at htok ⊢
    obtain ⟨name, hlong, htok⟩ := bind_eq_ok.mp htok
    rw [hlong, ok_bind]
    cases name with
    | none => cases htok
    | some p =>
      cases htok
      rfl

theorem print_of_reads {p : Pieces} (h : Reads env.toEnv format fSize s p) (hallowed : p.Allowed fopts)
    (hs : s ≤ format.length + 1) (hfuel : format.length + 2 ≤ fuel + s) (out : Out D) :
    formatParse env strWidth fopts fuel format fSize s out =
      .ok (p.print env strWidth fopts out) := by
  induction h generalizing fuel out with
  | nil hend =>
    obtain ⟨fuel, rfl⟩ : ∃ n, fuel = n + 1 := ⟨fuel - 1, by omega⟩
    rw [formatParse, if_pos hend, Pieces.print]
  | char hin htok hrest ih | part hin htok hrest ih =>
    obtain ⟨fuel, rfl⟩ : ∃ n, fuel = n + 1 := ⟨fuel - 1, by omega⟩
    obtain ⟨hlt, hle, -⟩ := nextToken_spec htok
    rw [formatParse_token strWidth out hin htok, Pieces.print]
    exact ih hallowed hle (by omega) _
  | @field format fSize s f key s' rest hin htok hrest ih =>
    obtain ⟨fuel, rfl⟩ : ∃ n, fuel = n + 1 := ⟨fuel - 1, by omega⟩
    obtain ⟨hlt, hle, -⟩ := nextToken_spec htok
    obtain ⟨hfound, hrest'⟩ := hallowed
    rw [formatParse_token strWidth out hin htok, Pieces.print]
    unfold validOption at hfound
    rw [Token.exec, printOption]
    cases hfind : fopts.find? (FormatOption.matches · key) with
    | none =>
      rw [hfind] at hfound
      cases hfound
    | some fo => exact ih hrest' hle (by omega) _
  | @cond format fSize s c b s' yes no rest hin htok hyes hno hnone hrest ihyes ihno ihrest =>
    obtain ⟨fuel, rfl⟩ : ∃ n, fuel = n + 1 := ⟨fuel - 1, by omega⟩
    obtain ⟨hlt, hle, hshort⟩ := nextToken_spec htok
    obtain ⟨hyesLen, hnoLen⟩ := hshort c b rfl
    obtain ⟨hyes', hno', hrest'⟩ := hallowed
    rw [formatParse_token strWidth out hin htok, Pieces.print, Token.exec]
    by_cases hcond : formatEvalCond env fopts c = true
    · simp only [if_pos hcond]
      rw [ihyes hyes' (Nat.zero_le _) (by omega) out]
      exact ihrest hrest' hle (by omega) _
    · simp only [if_neg hcond]
      cases hb : b.no format with
      | none =>
        rw [hnone hb, Pieces.print]
        exact ihrest hrest' hle (by omega) _
      | some p =>
        have hlen := hnoLen p hb
        simp only
        rw [ihno p hb hno' (Nat.zero_le _) (by omega) out]
        exact ihrest hrest' hle (by omega) _

end

/-! ### The same table -/

section
variable {D : Type}

/-- What the check looks at of an option. -/
def FormatOption.entry (fo : FormatOption D) : UInt8 × Option Text × Bool :=
  (fo.ch, fo.str, fo.padZero)

theorem validOption_congr {fopts fopts' : List (FormatOption D)}
    (h : fopts'.map FormatOption.entry = fopts.map FormatOption.entry) (padZero : Bool)
    (key : Key) : validOption fopts' padZero key = validOption fopts padZero key := by
  induction fopts generalizing fopts' with
  | nil => rw [List.map_eq_nil_iff.mp h]
  | cons fo fopts ih =>
    cases fopts' with
    | nil => cases h
    | cons fo' fopts' =>
      obtain ⟨hentry, hrest⟩ := List.cons.inj h
      obtain ⟨hch, hstr, hpad⟩ : fo'.ch = fo.ch ∧ fo'.str = fo.str ∧ fo'.padZero = fo.padZero := by
        simpa [FormatOption.entry] using hentry
      have hmatch : fo'.matches key = fo.matches key := by
        cases key with
        | long name => rw [FormatOption.matches, FormatOption.matches, hstr]
        | short u => rw [FormatOption.matches, FormatOption.matches, hch]
      have ih := ih hrest
      unfold validOption at ih ⊢
      rw [List.find?_cons, List.find?_cons, hmatch]
      cases fo.matches key with
      | true => simp only [hpad]
      | false => exact ih

theorem Pieces.Allowed.congr {fopts fopts' : List (FormatOption D)}
    (h : fopts'.map FormatOption.entry = fopts.map FormatOption.entry) {p : Pieces}
    (hp : p.Allowed fopts) : p.Allowed fopts' := by
  induction p with
  | nil => trivial
  | char u rest ih => exact ih hp
  | part p rest ih => exact ih hp
  | field f key rest ih => exact ⟨(validOption_congr h _ _).trans hp.1, ih hp.2⟩
  | cond c yes no rest ihyes ihno ihrest => exact ⟨ihyes hp.1, ihno hp.2.1, ihrest hp.2.2⟩

end

/-- **Check and interpreter** have one language. A format is accepted exactly when it
reads as pieces that the table allows, in one way only, and printing it with any values
in the same table, any options of the program and any width carries these pieces out. -/
theorem format_valid_iff_reads {D : Type} (env : Expr.Env) (fopts : List (FormatOption D))
    (format : Text) :
    (formatValid env fopts format = .ok true ↔
      ∃! p, Reads env format format.length 0 p ∧ p.Allowed fopts) ∧
    ∀ p, Reads env format format.length 0 p → p.Allowed fopts →
      ∀ (option : Text → Option Text) (strWidth : Int) (fopts' : List (FormatOption D)),
        fopts'.map FormatOption.entry = fopts.map FormatOption.entry →
        formatRead ⟨env, option⟩ strWidth fopts' format =
          .ok (p.print ⟨env, option⟩ strWidth fopts' ⟨.left, []⟩) := by
  refine ⟨⟨fun h => ?_, fun ⟨p, ⟨hreads, hallowed⟩, _⟩ => ?_⟩,
    fun p hreads hallowed option strWidth fopts' hsame => ?_⟩
  · obtain ⟨p, hreads, hallowed⟩ := reads_of_valid h
    exact ⟨p, ⟨hreads, hallowed⟩, fun q hq => hq.1.unique hreads⟩
  · exact valid_of_reads hreads hallowed (Nat.zero_le _)
      (Nat.le_refl _)
  · exact print_of_reads strWidth hreads (hallowed.congr hsame)
      (Nat.zero_le _) (Nat.le_refl _) _

end GracefulMusic.Format
