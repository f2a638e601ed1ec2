import Mathlib.Order.WithBot
import GracefulMusic.Expr.LongForm
import GracefulMusic.Urls.Strings

/-! Comparing a key with a number (`expr.c`).

The value is an `int`, and so is the number that was written as a `long`. They are compared
by the sign of a difference that is an `int` again, and a value of -1 is not compared. -/
namespace GracefulMusic.Expr

/-! ### What is compared -/

/-- A number as it is written. -/
structure Numeral where
  negative : Bool
  digits : Digits

def Numeral.text (n : Numeral) : Text :=
  if n.negative then ch '-' :: n.digits.text else n.digits.text

def Numeral.num (n : Numeral) : Int :=
  if n.negative then -digitsValue n.digits.text else digitsValue n.digits.text

/-- The `EXPR_INT` rows of `builtin`. -/
inductive IntKey where
  | bitrate | bpm | date | discnumber | duration | originaldate | playCount | tracknumber

def IntKey.name : IntKey → Text
  | bitrate => ascii "bitrate"
  | bpm => ascii "bpm"
  | date => ascii "date"
  | discnumber => ascii "discnumber"
  | duration => ascii "duration"
  | originaldate => ascii "originaldate"
  | playCount => ascii "play_count"
  | tracknumber => ascii "tracknumber"

/-- The number that a comment ends in. -/
def numberIn (val : Text) : Option Nat :=
  let digits := val.dropWhile fun c => !isDigit c
  if digits ≠ [] ∧ digits.all isDigit = true then some (digitsValue digits) else none

/-- The value of a key where it is present; a stream has no bound. -/
def IntKey.value (ti : TrackInfo) : IntKey → Option (WithTop Int)
  | duration =>
    if isHttpUrl ti.filename then some ⊤
    else if ti.duration = -1 then none else some ti.duration
  | date => if ti.date ≥ 0 then some ((ti.date / 10000 : Int) : WithTop Int) else none
  | originaldate =>
    if ti.originaldate ≥ 0 then some ((ti.originaldate / 10000 : Int) : WithTop Int) else none
  | bitrate =>
    if ti.bitrate ≥ 0 then some (((ti.bitrate + 500) / 1000 : Int) : WithTop Int) else none
  | playCount => some ((ti.playCount : Int) : WithTop Int)
  | bpm => if ti.bpm = -1 then none else some ti.bpm
  | key =>
    (keyValueGetValue ti.comments key.name).bind fun val =>
      (numberIn val).map fun n => ((n : Int) : WithTop Int)

/-- The fields hold what their types can. -/
structure Held (ti : TrackInfo) : Prop where
  duration : -2 ^ 31 ≤ ti.duration ∧ ti.duration ≤ intMax
  date : ti.date ≤ intMax
  originaldate : ti.originaldate ≤ intMax
  bitrate : ti.bitrate < 2 ^ 63
  playCount : ti.playCount < 2 ^ 32
  bpm : -2 ^ 31 ≤ ti.bpm ∧ ti.bpm ≤ intMax

/-- The duration of a stream is above every number. -/
instance topLt : LT (WithTop Int) := @WithTop.instLT Int Int.instLTInt

instance topLe : LE (WithTop Int) := @WithTop.instLE Int Int.instLEInt

/-- The comparison that an operator stands for. -/
def Op.Compares {α : Type} [LT α] [LE α] : Op → α → α → Prop
  | .lt, a, b => a < b
  | .le, a, b => a ≤ b
  | .eq, a, b => a = b
  | .ge, a, b => b ≤ a
  | .gt, a, b => b < a
  | .ne, a, b => a ≠ b

/-- A leaf as it is written. -/
def leafText (key : IntKey) (op : Op) (n : Numeral) : Text := key.name ++ (opName op ++ n.text)

/-! ### What the code compares -/

/-- What is left of a value in a `long`; a stream is almost infinite. -/
def asLong : WithTop Int → Int
  | ⊤ => intMax
  | (v : Int) => max (-2 ^ 63) (min (2 ^ 63 - 1) v)

/-- How a difference compares that is known modulo `2 ^ 32` only. -/
def Op.OfRemainder : Op → Int → Prop
  | .lt, r => 2 ^ 31 ≤ r
  | .le, r => r = 0 ∨ 2 ^ 31 ≤ r
  | .eq, r => r = 0
  | .ge, r => r < 2 ^ 31
  | .gt, r => 0 < r ∧ r < 2 ^ 31
  | .ne, r => r ≠ 0

/-- No value that is taken for -1 is compared with success, and what is left of the
difference compares as the difference does. -/
def Kept (op : Op) (v : WithTop Int) (n : Int) : Prop :=
  if asLong v % 2 ^ 32 = 2 ^ 32 - 1 ∧ op ≠ .eq then ¬ op.Compares v n
  else (op.OfRemainder ((asLong v - asLong n) % 2 ^ 32) ↔ op.Compares v n)

theorem toInt_cases (x : Int) : toInt x = x % 2 ^ 32 ∧ x % 2 ^ 32 < 2 ^ 31 ∨
    toInt x = x % 2 ^ 32 - 2 ^ 32 ∧ 2 ^ 31 ≤ x % 2 ^ 32 := by
  rw [toInt, Int.bmod]
  split <;> omega

theorem exprOpToBool_iff (x : Int) (op : Op) :
    exprOpToBool (toInt x) op = true ↔ op.OfRemainder (x % 2 ^ 32) := by
  have hcases := toInt_cases x
  have hnonneg := Int.emod_nonneg x (show (2 : Int) ^ 32 ≠ 0 by decide)
  cases op <;> simp only [exprOpToBool, Op.OfRemainder, decide_eq_true_eq] <;> omega

/-- The difference of two `int`s. -/
theorem toInt_sub_toInt (x y : Int) : toInt (toInt x - toInt y) = toInt (x - y) := by
  rw [toInt, toInt, toInt, toInt, Int.bmod_sub_bmod, Int.sub_bmod_bmod]

variable {key : Text} {ti : TrackInfo}

theorem evalInt_iff {x : Int} (hx : intVal key ti = toInt x) (op : Op) (y : Int) :
    evalInt key op (toInt y) ti = true ↔
      ¬ (x % 2 ^ 32 = 2 ^ 32 - 1 ∧ op ≠ .eq) ∧ op.OfRemainder ((x - y) % 2 ^ 32) := by
  have hxcases := toInt_cases x
  have hycases := toInt_cases y
  have hdiff := exprOpToBool_iff (x - y) op
  rw [← toInt_sub_toInt] at hdiff
  unfold evalInt
  dsimp only
  rw [hx]
  split
  · rename_i h
    obtain ⟨hy, rfl⟩ := h
    simp only [Op.OfRemainder, decide_eq_true_eq]
    simp
    omega
  split
  · rename_i h
    obtain ⟨hy, rfl⟩ := h
    simp only [Op.OfRemainder, decide_eq_true_eq]
    simp
    omega
  split
  · rename_i hunequal _ hunset
    refine iff_of_false Bool.false_ne_true fun h => ?_
    obtain ⟨hskip, hrest⟩ := h
    -- only the number that is not set equals what is not set
    have hop : op = .eq := by
      by_contra hne
      exact hskip ⟨by omega, hne⟩
    subst hop
    have hzero : (x - y) % 2 ^ 32 = 0 := hrest
    exact hunequal ⟨by omega, rfl⟩
  · rename_i hset
    rw [hdiff, and_iff_right]
    exact fun h => hset (by omega)

/-! ### What is read -/

theorem strToInt_negative {t : Text} (hne : t ≠ []) (ht : ∀ c ∈ t, isDigit c = true) :
    (strToInt (ch '-' :: t)).1 = max (-2 ^ 63) (min (2 ^ 63 - 1) (-(digitsValue t : Int))) := by
  have htake : t.takeWhile isDigit = t := List.takeWhile_eq_self_iff.mpr ht
  have hspace : (ch '-' :: t).dropWhile isSpace = ch '-' :: t := rfl
  simp only [strToInt, strtol, hspace, if_pos, htake, if_neg hne]

theorem numeral_long (n : Numeral) : (strToInt n.text).1 = asLong n.num := by
  rw [Numeral.text, Numeral.num]
  cases n.negative with
  | false =>
    rw [if_neg Bool.false_ne_true, if_neg Bool.false_ne_true,
      strToInt_digits n.digits.nonempty n.digits.digits]
    show min (2 ^ 63 - 1) _ = max (-2 ^ 63) (min (2 ^ 63 - 1) _)
    omega
  | true =>
    rw [if_pos rfl, if_pos rfl, strToInt_negative n.digits.nonempty n.digits.digits]
    rfl

theorem asLong_of_long {v : Int} (hlow : -2 ^ 63 ≤ v) (hhigh : v < 2 ^ 63) :
    asLong (v : WithTop Int) = v := by
  show max (-2 ^ 63) (min (2 ^ 63 - 1) v) = v
  omega

theorem toInt_asLong {v : Int} (h : -2 ^ 31 ≤ v ∧ v ≤ intMax) :
    toInt (asLong (v : WithTop Int)) = v := by
  have hmax : intMax = 2 ^ 31 - 1 := rfl
  rw [asLong_of_long (by omega) (by omega)]
  exact Int.bmod_eq_of_le (by omega) (by omega)

/-- The first number in a comment. -/
theorem commentsGetInt_eq {key : Text} {comments : List (Text × Text)} {v : WithTop Int}
    (h : ((keyValueGetValue comments key).bind fun val =>
      (numberIn val).map fun n => ((n : Int) : WithTop Int)) = some v) :
    commentsGetInt comments key = toInt (asLong v) := by
  rw [commentsGetInt]
  cases hval : keyValueGetValue comments key with
  | none =>
    rw [hval] at h
    cases h
  | some val =>
    rw [hval, Option.bind_some, numberIn] at h
    dsimp only at h ⊢
    split at h
    · rename_i hdigits
      obtain ⟨hne, hall⟩ := hdigits
      obtain rfl := Option.some.inj h
      rw [strToInt_digits hne (List.all_eq_true.mp hall)]
      dsimp only
      rw [if_pos rfl]
      congr 1
      show _ = max (-2 ^ 63) (min (2 ^ 63 - 1) _)
      omega
    · cases h

/-- The `int` that is read for a key is the value that is left of a `long`. -/
theorem intVal_eq {ti : TrackInfo} (hti : Held ti) {key : IntKey} {v : WithTop Int}
    (hv : key.value ti = some v) : intVal key.name ti = toInt (asLong v) := by
  have hmax : intMax = 2 ^ 31 - 1 := rfl
  cases key with
  | duration =>
    show (if isHttpUrl ti.filename then intMax else ti.duration) = _
    rw [IntKey.value] at hv
    split at hv
    · rename_i hstream
      cases hv
      rw [if_pos hstream]
      rfl
    · rename_i hfile
      split at hv
      · cases hv
      · cases hv
        rw [if_neg hfile]
        exact (toInt_asLong hti.duration).symm
  | date =>
    show (if ti.date ≥ 0 then ti.date / 10000 else -1) = _
    have hdate := hti.date
    rw [IntKey.value] at hv
    split at hv
    · rename_i hset
      cases hv
      rw [if_pos hset]
      exact (toInt_asLong ⟨by omega, by omega⟩).symm
    · cases hv
  | originaldate =>
    show (if ti.originaldate ≥ 0 then ti.originaldate / 10000 else -1) = _
    have hdate := hti.originaldate
    rw [IntKey.value] at hv
    split at hv
    · rename_i hset
      cases hv
      rw [if_pos hset]
      exact (toInt_asLong ⟨by omega, by omega⟩).symm
    · cases hv
  | bitrate =>
    show (if ti.bitrate ≥ 0 then toInt ((ti.bitrate + 500) / 1000) else -1) = _
    have hbitrate := hti.bitrate
    rw [IntKey.value] at hv
    split at hv
    · rename_i hset
      cases hv
      rw [if_pos hset, asLong_of_long (by omega) (by omega)]
    · cases hv
  | playCount =>
    have hcount := hti.playCount
    rw [IntKey.name, intVal, if_neg (by decide), if_neg (by decide), if_neg (by decide),
      if_neg (by decide), if_pos rfl]
    rw [IntKey.value] at hv
    obtain rfl := Option.some.inj hv
    rw [asLong_of_long (by omega) (by omega)]
  | bpm =>
    show ti.bpm = _
    rw [IntKey.value] at hv
    split at hv
    · cases hv
    · cases hv
      exact (toInt_asLong hti.bpm).symm
  | discnumber => exact commentsGetInt_eq hv
  | tracknumber => exact commentsGetInt_eq hv

/-! ### The text of a leaf -/

theorem Lexes.negative {w rest : Text} {toks : List Token} (h : Lexes rest toks)
    (hrest : Delimited rest) (hw : ∀ c ∈ w, isDigit c = true) :
    Lexes (ch '-' :: (w ++ rest)) (⟨.intOrKey, ch '-' :: w⟩ :: toks) := by
  refine h.cons (by decide) ?_ (by simp)
  have hscan := scan_word w hrest true fun c hc => by simp [isWord, hw c hc]
  rw [List.all_eq_true.mpr hw] at hscan
  have hspecial : Expr.special (ch '-') = none := by decide
  have hquote : ch '-' ≠ ch '"' := by decide
  simp only [getToken, hspecial, if_neg hquote, getIntOrKey, List.head?_cons, if_pos,
    List.tail_cons]
  show (scanIntOrKey true (w ++ rest)).bind _ = _
  rw [hscan]
  rfl

theorem Lexes.numeral (n : Numeral) : Lexes n.text [⟨.intOrKey, n.text⟩] := by
  have hrest : Delimited [] := nofun
  rw [Numeral.text]
  cases n.negative with
  | false =>
    have hlexes := lexes_nil.digits n.digits hrest
    rwa [List.append_nil] at hlexes
  | true =>
    have hlexes := lexes_nil.negative hrest n.digits.digits
    rwa [List.append_nil] at hlexes

theorem numeral_head (n : Numeral) : n.text.head? ≠ some (ch '=') := by
  rw [Numeral.text]
  cases n.negative with
  | true =>
    show some (ch '-') ≠ some (ch '=')
    decide
  | false =>
    obtain ⟨c, row, hn⟩ := List.exists_cons_of_ne_nil n.digits.nonempty
    have hc := n.digits.digits c (hn ▸ List.mem_cons_self)
    rw [if_neg Bool.false_ne_true, hn]
    intro h
    cases h
    revert hc
    decide

theorem tokenize_leaf (key : IntKey) (op : Op) (n : Numeral) :
    tokenize (leafText key op n) =
      .ok [⟨.key, key.name⟩, .special op.tokenType, ⟨.intOrKey, n.text⟩] := by
  have hword : key.name ≠ [] ∧ key.name.all isWord = true ∧ key.name.all isDigit = false := by
    cases key <;> decide
  obtain ⟨hne, hall, hkey⟩ := hword
  have hlexes := ((Lexes.numeral n).op op (numeral_head n)).word (delimited_op op _) hne
    (List.all_eq_true.mp hall)
  rw [hkey] at hlexes
  exact hlexes _ (Nat.lt_succ_self _)

theorem parse_leaf (key : IntKey) (op : Op) (n : Numeral) :
    (tokenize (leafText key op n)).bind parseTokens =
      .ok (.int key.name op (toInt (asLong n.num))) := by
  rw [tokenize_leaf, ← numeral_long]
  cases op <;> rfl

/-- Where all of it fits into `int`s, only an overflow of the difference is in the way. -/
theorem kept_of_fits (op : Op) {v n : Int} (hv : -2 ^ 31 ≤ v ∧ v ≤ intMax) (hset : v ≠ -1)
    (hn : -2 ^ 31 ≤ n ∧ n ≤ intMax) :
    Kept op v n ↔ op = .eq ∨ op = .ne ∨ -2 ^ 31 ≤ v - n ∧ v - n ≤ intMax := by
  have hmax : intMax = 2 ^ 31 - 1 := rfl
  rw [Kept, asLong_of_long (by omega) (by omega), asLong_of_long (by omega) (by omega),
    if_neg (by omega)]
  cases op <;> simp only [Op.OfRemainder, Op.Compares, ne_eq, WithTop.coe_lt_coe,
    WithTop.coe_le_coe, WithTop.coe_inj] <;> simp <;> omega

/-- A track of 1999. -/
def dated : TrackInfo := {uid := 0, filename := ascii "a.ogg", date := 19990101}

theorem dated_held : Held dated :=
  ⟨by decide, by decide, by decide, by decide, by decide, by decide⟩

theorem year_digits : ∀ c ∈ ascii "2000", isDigit c = true :=
  List.all_eq_true.mp (by decide +kernel)

def year : Numeral := ⟨false, ⟨ascii "2000", List.cons_ne_nil _ _, year_digits⟩⟩

end GracefulMusic.Expr
