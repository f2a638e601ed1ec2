import Mathlib.Tactic.Ring
import GracefulMusic.Text

/-! The argument of the command `seek` (`command_mode.c`).

`wrap` is what storing a result in an `int` does to it. It is `toInt` in the program
(`cmdSeek`); with `id` in its place the same functions compute the exact numbers, and the
two results differ by one `toInt` at the end. -/
namespace GracefulMusic.Seek

section
variable (wrap : Int → Int)

/-- The value, and what is left. -/
def getNumber (val : Int) : Text → Int × Text
  | [] => (val, [])
  | c :: str =>
    if isDigit c then getNumber (wrap (wrap (val * 10) + (c - ch '0').toNat)) str
    else (val, c :: str)

/-- The body of the loop behind its label; `none` breaks. -/
def inside (seek : Int) (arg : Text) : Option (Int × Text) :=
  let (num, rest) := getNumber wrap 0 arg
  if arg = rest then none else some (wrap (wrap (seek * 60) + num), rest)

/-- The rounds of the loop that begin with a colon: `seek`, `count` and `arg` at its end. -/
def components : Nat → Nat → Int → Text → Int × Nat × Text
  | 0, count, seek, arg => (seek, count, arg)
  | _ + 1, count, seek, [] => (seek, count, [])
  | left + 1, count, seek, c :: rest =>
    if c ≠ ch ':' then (seek, count, c :: rest)
    else
      match inside wrap seek rest with
      | none => (seek, count, rest)
      | some (seek, arg) => components left (count + 1) seek arg

def loop (arg : Text) : Int × Nat × Text :=
  match inside wrap 0 arg with
  | none => (0, 0, arg)
  | some (seek, arg) => components wrap 2 1 seek arg

/-- The letter behind a single component. -/
def scale (seek : Int) : Text → Int × Text
  | [] => (seek, [])
  | c :: rest =>
    if toLower c = ch 'h' then (wrap (wrap (seek * 60) * 60), rest)
    else if toLower c = ch 'm' then (wrap (seek * 60), rest)
    else if toLower c = ch 's' then (seek, rest)
    else (seek, c :: rest)

def readSign (arg : Text) : Int × Bool × Text :=
  match arg with
  | [] => (1, false, [])
  | c :: rest =>
    if c = ch '-' then (-1, true, rest)
    else if c = ch '+' then (1, true, rest)
    else (1, false, c :: rest)

def readSeek (arg : Text) : Option (Int × Bool) :=
  let (sign, relative, arg) := readSign arg
  let (seek, count, arg) := loop wrap arg
  let seek := wrap (seek * sign)
  if count = 0 then none
  else
    let (seek, arg) := if count = 1 then scale wrap seek arg else (seek, arg)
    if arg = [] then some (seek, relative) else none

end

/-- `cmd_seek`: the arguments of `player_seek`, `none` for the error message. -/
def cmdSeek (arg : Text) : Option (Int × Bool) := readSeek toInt arg

example : cmdSeek (ascii "-1:02:03") = some (-3723, true) := by decide

/-! ### What the argument denotes -/

def Numeral (t : Text) : Prop := t ≠ [] ∧ ∀ c ∈ t, isDigit c = true

def secondsPer (c : UInt8) : Option Nat :=
  if toLower c = ch 'h' then some 3600
  else if toLower c = ch 'm' then some 60
  else if toLower c = ch 's' then some 1
  else none

inductive Amount : Text → Nat → Prop where
  | seconds {n : Text} : Numeral n → Amount n (digitsValue n)
  | unit {n : Text} {c : UInt8} {k : Nat} : Numeral n → secondsPer c = some k →
    Amount (n ++ [c]) (digitsValue n * k)
  | minutes {m s : Text} : Numeral m → Numeral s →
    Amount (m ++ ch ':' :: s) (digitsValue m * 60 + digitsValue s)
  | hours {h m s : Text} : Numeral h → Numeral m → Numeral s →
    Amount (h ++ ch ':' :: (m ++ ch ':' :: s))
      ((digitsValue h * 60 + digitsValue m) * 60 + digitsValue s)

/-- What is read although a colon has no digits behind it. -/
inductive Dangling : Text → Nat → Prop where
  | plain {n : Text} : Numeral n → Dangling (n ++ [ch ':']) (digitsValue n)
  | unit {n : Text} {c : UInt8} {k : Nat} : Numeral n → secondsPer c = some k →
    Dangling (n ++ [ch ':', c]) (digitsValue n * k)
  | minutes {m s : Text} : Numeral m → Numeral s →
    Dangling (m ++ ch ':' :: (s ++ [ch ':'])) (digitsValue m * 60 + digitsValue s)

/-- With a sign the position is relative. -/
inductive Signed (body : Text → Nat → Prop) : Text → Bool → Int → Prop where
  | absolute {t : Text} {n : Nat} : body t n → Signed body t false n
  | forward {t : Text} {n : Nat} : body t n → Signed body (ch '+' :: t) true n
  | back {t : Text} {n : Nat} : body t n → Signed body (ch '-' :: t) true (-n)

/-! ### The exact reading -/

theorem getNumber_digits (val : Int) {t rest : Text} (ht : ∀ c ∈ t, isDigit c = true)
    (hrest : rest.head?.all (fun c => !isDigit c) = true) :
    getNumber id val (t ++ rest) =
      (t.foldl (fun (v : Int) c => v * 10 + (c - ch '0').toNat) val, rest) := by
  induction t generalizing val with
  | nil =>
    cases rest with
    | nil => rfl
    | cons c rest =>
      have hc : isDigit c = false := by simpa using hrest
      rw [List.nil_append, getNumber, if_neg (by rw [hc]; exact Bool.false_ne_true)]
      rfl
  | cons c t ih =>
    rw [List.cons_append, getNumber, if_pos (ht c List.mem_cons_self)]
    exact ih _ fun d hd => ht d (List.mem_cons_of_mem c hd)

theorem foldl_digits (t : Text) (n : Nat) :
    t.foldl (fun (v : Int) c => v * 10 + (c - ch '0').toNat) n =
      (t.foldl (fun n c => 10 * n + (c - ch '0').toNat) n : Nat) := by
  induction t generalizing n with
  | nil => rfl
  | cons c t ih =>
    rw [List.foldl_cons, List.foldl_cons, ← ih]
    congr 1
    push_cast
    rw [Int.mul_comm]

/-- Text that a number ends at. -/
def Stops (rest : Text) : Prop := rest.head?.all (fun c => !isDigit c) = true

theorem inside_numeral (seek : Int) {t rest : Text} (ht : Numeral t) (hrest : Stops rest) :
    inside id seek (t ++ rest) = some (seek * 60 + digitsValue t, rest) := by
  have hdigits := getNumber_digits 0 ht.2 hrest
  have hvalue := foldl_digits t 0
  have hne : t ++ rest ≠ rest := fun h => ht.1 (List.append_left_eq_self.mp h)
  rw [inside, hdigits]
  dsimp only
  rw [if_neg hne]
  exact congrArg (fun v : Int => some (seek * 60 + v, rest)) hvalue

theorem stops_dropWhile (t : Text) : Stops (t.dropWhile isDigit) := by
  cases h : t.dropWhile isDigit with
  | nil => rfl
  | cons c rest =>
    have hc := List.head_dropWhile_not isDigit (l := t) (by rw [h]; exact List.cons_ne_nil c rest)
    simpa [Stops, h] using hc

/-- Either a number is read, or there is none. -/
theorem inside_cases (seek : Int) (arg : Text) :
    (∃ t rest, Numeral t ∧ Stops rest ∧ arg = t ++ rest ∧
      inside id seek arg = some (seek * 60 + digitsValue t, rest)) ∨
    (Stops arg ∧ inside id seek arg = none) := by
  have hsplit : arg.takeWhile isDigit ++ arg.dropWhile isDigit = arg :=
    List.takeWhile_append_dropWhile
  have hrest := stops_dropWhile arg
  by_cases hnil : arg.takeWhile isDigit = []
  · rw [hnil, List.nil_append] at hsplit
    rw [hsplit] at hrest
    right
    refine ⟨hrest, ?_⟩
    have hread := getNumber_digits 0 (t := []) (by simp) hrest
    rw [List.nil_append] at hread
    rw [inside, hread]
    exact if_pos rfl
  · have hnumeral : Numeral (arg.takeWhile isDigit) :=
      ⟨hnil, fun c hc => List.mem_takeWhile_imp hc⟩
    left
    refine ⟨_, _, hnumeral, hrest, hsplit.symm, ?_⟩
    conv_lhs => rw [← hsplit]
    exact inside_numeral seek hnumeral hrest

theorem secondsPer_scale {c : UInt8} {k : Nat} (h : secondsPer c = some k) (v : Int) :
    scale id v [c] = (v * k, []) := by
  rw [secondsPer] at h
  rw [scale]
  split at h
  · rename_i hc
    cases h
    rw [if_pos hc]
    show (v * 60 * 60, _) = (v * 3600, _)
    rw [Int.mul_assoc]
    rfl
  · rename_i hh
    split at h
    · rename_i hc
      cases h
      rw [if_neg hh, if_pos hc]
      rfl
    · rename_i hm
      split at h
      · rename_i hc
        cases h
        rw [if_neg hh, if_neg hm, if_pos hc]
        show (v, _) = (v * 1, _)
        rw [Int.mul_one]
      · cases h

theorem scale_nil {v seek : Int} {arg : Text} (h : scale id v arg = (seek, [])) :
    (arg = [] ∧ seek = v) ∨ ∃ c k, arg = [c] ∧ secondsPer c = some k ∧ seek = v * k := by
  cases arg with
  | nil =>
    cases h
    exact Or.inl ⟨rfl, rfl⟩
  | cons c rest =>
    right
    have hunit : rest = [] ∧ ∃ k, secondsPer c = some k := by
      rw [scale] at h
      split at h
      · rename_i hc
        exact ⟨congrArg Prod.snd h, 3600, by rw [secondsPer, if_pos hc]⟩
      · rename_i hh
        split at h
        · rename_i hc
          exact ⟨congrArg Prod.snd h, 60, by rw [secondsPer, if_neg hh, if_pos hc]⟩
        · rename_i hm
          split at h
          · rename_i hc
            exact ⟨congrArg Prod.snd h, 1, by rw [secondsPer, if_neg hh, if_neg hm, if_pos hc]⟩
          · cases h
    obtain ⟨rfl, k, hk⟩ := hunit
    rw [secondsPer_scale hk] at h
    exact ⟨c, k, rfl, hk, (congrArg Prod.fst h).symm⟩

theorem secondsPer_not {c : UInt8} {k : Nat} (h : secondsPer c = some k) :
    c ≠ ch ':' ∧ isDigit c = false := by
  have hall : ∀ c, secondsPer c ≠ none → c ≠ ch ':' ∧ isDigit c = false :=
    forall_byte (by decide +kernel)
  exact hall c (by rw [h]; exact Option.some_ne_none k)

/-- `readSeek` without the sign. -/
def readAmount (arg : Text) : Option Int :=
  let (seek, count, arg) := loop id arg
  if count = 0 then none
  else
    let (seek, arg) := if count = 1 then scale id seek arg else (seek, arg)
    if arg = [] then some seek else none

theorem loop_numeral {t rest : Text} (ht : Numeral t) (hrest : Stops rest) :
    loop id (t ++ rest) = components id 2 1 (digitsValue t) rest := by
  rw [loop, inside_numeral 0 ht hrest, Int.zero_mul, Int.zero_add]

theorem components_colon (left count : Nat) (seek : Int) {t rest : Text} (ht : Numeral t)
    (hrest : Stops rest) :
    components id (left + 1) count seek (ch ':' :: (t ++ rest)) =
      components id left (count + 1) (seek * 60 + digitsValue t) rest := by
  rw [components, if_neg (not_not_intro rfl), inside_numeral seek ht hrest]

theorem components_dangling (left count : Nat) (seek : Int) {rest : Text} (hrest : Stops rest) :
    components id (left + 1) count seek (ch ':' :: rest) = (seek, count, rest) := by
  obtain ⟨t, rest', ht, -, hsplit, -⟩ | ⟨-, hnone⟩ := inside_cases seek rest
  · obtain ⟨c, t', rfl⟩ := List.exists_cons_of_ne_nil ht.1
    have hc := ht.2 c List.mem_cons_self
    have hstop : isDigit c = false := by simpa [Stops, hsplit] using hrest
    rw [hc] at hstop
    cases hstop
  · rw [components, if_neg (not_not_intro rfl), hnone]

theorem components_stop (left count : Nat) (seek : Int) {rest : Text}
    (hrest : rest.head? ≠ some (ch ':')) :
    components id left count seek rest = (seek, count, rest) := by
  cases left with
  | zero => rfl
  | succ left =>
    cases rest with
    | nil => rfl
    | cons c rest => rw [components, if_pos fun h => hrest (congrArg some h)]

theorem readAmount_of_loop {arg rest : Text} {seek : Int} {count : Nat} (hcount : 0 < count)
    (h : loop id arg = (seek, count, rest)) :
    readAmount arg = if count = 1 then
        (if (scale id seek rest).2 = [] then some (scale id seek rest).1 else none)
      else if rest = [] then some seek else none := by
  rw [readAmount, h]
  dsimp only
  rw [if_neg (Nat.ne_of_gt hcount)]
  split <;> rfl

theorem stops_nil : Stops [] := rfl

theorem stops_cons {c : UInt8} (hc : isDigit c = false) (rest : Text) : Stops (c :: rest) := by
  simp [Stops, hc]

theorem stops_colon (rest : Text) : Stops (ch ':' :: rest) := stops_cons (by decide) rest

theorem readAmount_amount {arg : Text} {n : Nat} (h : Amount arg n) : readAmount arg = some n := by
  cases h with
  | seconds ht =>
    have hloop := loop_numeral ht stops_nil
    rw [List.append_nil, components_stop _ _ _ (by simp)] at hloop
    rw [readAmount_of_loop Nat.one_pos hloop]
    rfl
  | unit ht hk =>
    obtain ⟨hcolon, hdigit⟩ := secondsPer_not hk
    have hloop := loop_numeral ht (stops_cons hdigit [])
    rw [components_stop _ _ _ (by simpa using hcolon)] at hloop
    rw [readAmount_of_loop Nat.one_pos hloop, if_pos rfl, secondsPer_scale hk, if_pos rfl]
    push_cast
    rfl
  | @minutes m s hm hs =>
    have hloop := loop_numeral hm (stops_colon s)
    have hnext := components_colon 1 1 (digitsValue m) hs stops_nil
    rw [List.append_nil, components_stop 1 (1 + 1) _ (by simp)] at hnext
    rw [readAmount_of_loop Nat.two_pos (hloop.trans hnext)]
    push_cast
    rfl
  | @hours h m s hh hm hs =>
    have hloop := loop_numeral hh (stops_colon (m ++ ch ':' :: s))
    have hnext := components_colon 1 1 (digitsValue h) hm (stops_colon s)
    have hlast := components_colon 0 2 (digitsValue h * 60 + digitsValue m) hs stops_nil
    rw [List.append_nil] at hlast
    rw [readAmount_of_loop (Nat.succ_pos 2) ((hloop.trans hnext).trans hlast)]
    push_cast
    rfl

theorem readAmount_dangling {arg : Text} {n : Nat} (h : Dangling arg n) :
    readAmount arg = some n := by
  cases h with
  | plain ht =>
    have hloop := loop_numeral ht (stops_colon [])
    rw [components_dangling _ _ _ stops_nil] at hloop
    rw [readAmount_of_loop Nat.one_pos hloop]
    rfl
  | @unit t c k ht hk =>
    have hstops := stops_cons (secondsPer_not hk).2 []
    have hloop := loop_numeral ht (stops_colon [c])
    rw [components_dangling _ _ _ hstops] at hloop
    rw [readAmount_of_loop Nat.one_pos hloop, if_pos rfl, secondsPer_scale hk, if_pos rfl]
    push_cast
    rfl
  | @minutes m s hm hs =>
    have hloop := loop_numeral hm (stops_colon (s ++ [ch ':']))
    have hnext := components_colon 1 1 (digitsValue m) hs (stops_colon [])
    rw [components_dangling _ _ _ stops_nil] at hnext
    rw [readAmount_of_loop Nat.two_pos (hloop.trans hnext)]
    push_cast
    rfl

/-- The exact reading takes the amounts and those with a dangling colon, and no others. -/
theorem readAmount_iff (arg : Text) (v : Int) :
    readAmount arg = some v ↔ ∃ n : Nat, v = n ∧ (Amount arg n ∨ Dangling arg n) := by
  constructor
  · intro h
    obtain ⟨t, rest, ht, hstops, rfl, -⟩ | ⟨-, hnone⟩ := inside_cases 0 arg
    · have hloop := loop_numeral ht hstops
      by_cases hcolon : rest.head? = some (ch ':')
      · obtain ⟨rest, rfl⟩ := List.head?_eq_some_iff.mp hcolon
        obtain ⟨t₂, rest₂, ht₂, hstops₂, rfl, -⟩ | ⟨hstops₂, -⟩ := inside_cases 0 rest
        · rw [components_colon 1 1 _ ht₂ hstops₂] at hloop
          by_cases hcolon₂ : rest₂.head? = some (ch ':')
          · obtain ⟨rest₂, rfl⟩ := List.head?_eq_some_iff.mp hcolon₂
            obtain ⟨t₃, rest₃, ht₃, hstops₃, rfl, -⟩ | ⟨hstops₃, -⟩ := inside_cases 0 rest₂
            · rw [components_colon 0 2 _ ht₃ hstops₃, components] at hloop
              rw [readAmount_of_loop (Nat.succ_pos 2) hloop, if_neg (by decide)] at h
              obtain ⟨rfl, hv⟩ := Option.ite_none_right_eq_some.mp h
              cases hv
              rw [List.append_nil]
              exact ⟨_, by push_cast; rfl, Or.inl (.hours ht ht₂ ht₃)⟩
            · rw [components_dangling _ _ _ hstops₃] at hloop
              rw [readAmount_of_loop Nat.two_pos hloop, if_neg (by decide)] at h
              obtain ⟨rfl, hv⟩ := Option.ite_none_right_eq_some.mp h
              cases hv
              exact ⟨_, by push_cast; rfl, Or.inr (.minutes ht ht₂)⟩
          · rw [components_stop _ _ _ hcolon₂] at hloop
            rw [readAmount_of_loop Nat.two_pos hloop, if_neg (by decide)] at h
            obtain ⟨rfl, hv⟩ := Option.ite_none_right_eq_some.mp h
            cases hv
            rw [List.append_nil]
            exact ⟨_, by push_cast; rfl, Or.inl (.minutes ht ht₂)⟩
        · rw [components_dangling _ _ _ hstops₂] at hloop
          rw [readAmount_of_loop Nat.one_pos hloop, if_pos rfl] at h
          obtain ⟨hnil, hv⟩ := Option.ite_none_right_eq_some.mp h
          obtain ⟨rfl, hseek⟩ | ⟨c, k, rfl, hk, hseek⟩ :=
            scale_nil (Prod.ext (Option.some.inj hv) hnil)
          · exact ⟨_, hseek, Or.inr (.plain ht)⟩
          · exact ⟨_, by rw [hseek]; push_cast; rfl, Or.inr (.unit ht hk)⟩
      · rw [components_stop _ _ _ hcolon] at hloop
        rw [readAmount_of_loop Nat.one_pos hloop, if_pos rfl] at h
        obtain ⟨hnil, hv⟩ := Option.ite_none_right_eq_some.mp h
        obtain ⟨rfl, hseek⟩ | ⟨c, k, rfl, hk, hseek⟩ :=
          scale_nil (Prod.ext (Option.some.inj hv) hnil)
        · rw [List.append_nil]
          exact ⟨_, hseek, Or.inl (.seconds ht)⟩
        · exact ⟨_, by rw [hseek]; push_cast; rfl, Or.inl (.unit ht hk)⟩
    · rw [readAmount, loop, hnone] at h
      cases h
  · intro h
    obtain ⟨n, rfl, hamount | hdangling⟩ := h
    · exact readAmount_amount hamount
    · exact readAmount_dangling hdangling

/-! ### The sign -/

theorem scale_mul (v sign : Int) (arg : Text) :
    scale id (v * sign) arg = ((scale id v arg).1 * sign, (scale id v arg).2) := by
  cases arg with
  | nil => rfl
  | cons c rest =>
    rw [scale, scale]
    split
    · exact congrArg (·, rest) (by rw [id, id, id, id]; ring)
    · split
      · exact congrArg (·, rest) (by rw [id, id]; ring)
      · split <;> rfl

theorem readSeek_id (arg : Text) :
    readSeek id arg = (readAmount (readSign arg).2.2).map
      fun v => (v * (readSign arg).1, (readSign arg).2.1) := by
  rw [readSeek, readAmount]
  obtain ⟨sign, relative, body⟩ := readSign arg
  dsimp only
  obtain ⟨seek, count, rest⟩ := loop id body
  dsimp only [id]
  split
  · rfl
  · split
    · rw [scale_mul]
      split <;> rfl
    · split <;> rfl

theorem digit_of_amount {arg : Text} {n : Nat} (h : Amount arg n ∨ Dangling arg n) :
    ∃ c rest, arg = c :: rest ∧ isDigit c = true := by
  have hnumeral : ∀ {t : Text} (rest : Text), Numeral t →
      ∃ c s, t ++ rest = c :: s ∧ isDigit c = true := by
    intro t rest ht
    obtain ⟨c, t, rfl⟩ := List.exists_cons_of_ne_nil ht.1
    exact ⟨c, t ++ rest, rfl, ht.2 c List.mem_cons_self⟩
  obtain h | h := h
  · cases h with
    | seconds ht =>
      have hfirst := hnumeral [] ht
      rwa [List.append_nil] at hfirst
    | unit ht _ => exact hnumeral _ ht
    | minutes ht _ => exact hnumeral _ ht
    | hours ht _ _ => exact hnumeral _ ht
  · cases h with
    | plain ht => exact hnumeral _ ht
    | unit ht _ => exact hnumeral _ ht
    | minutes ht _ => exact hnumeral _ ht

theorem readSign_digit {c : UInt8} (hc : isDigit c = true) (rest : Text) :
    readSign (c :: rest) = (1, false, c :: rest) := by
  rw [readSign, if_neg, if_neg]
  · intro heq
    subst heq
    exact absurd hc (by decide)
  · intro heq
    subst heq
    exact absurd hc (by decide)

theorem readSign_plus (t : Text) : readSign (ch '+' :: t) = (1, true, t) := rfl

theorem readSign_minus (t : Text) : readSign (ch '-' :: t) = (-1, true, t) := rfl

theorem readSeek_iff (arg : Text) (seek : Int) (relative : Bool) :
    readSeek id arg = some (seek, relative) ↔
      Signed (fun t n => Amount t n ∨ Dangling t n) arg relative seek := by
  rw [readSeek_id]
  constructor
  · intro h
    obtain ⟨v, hv, heq⟩ := Option.map_eq_some_iff.mp h
    obtain ⟨n, rfl, hbody⟩ := (readAmount_iff _ v).mp hv
    obtain ⟨rfl, rfl⟩ := Prod.mk.inj heq
    obtain ⟨c, rest, hdigit, hc⟩ := digit_of_amount hbody
    cases arg with
    | nil => cases hdigit
    | cons d arg =>
      rw [readSign] at hbody ⊢
      split
      · rename_i hminus
        rw [if_pos hminus] at hbody
        subst hminus
        rw [Int.mul_neg_one]
        exact .back hbody
      · rename_i hminus
        rw [if_neg hminus] at hbody
        split
        · rename_i hplus
          rw [if_pos hplus] at hbody
          subst hplus
          rw [Int.mul_one]
          exact .forward hbody
        · rename_i hplus
          rw [if_neg hplus] at hbody
          rw [Int.mul_one]
          exact .absolute hbody
  · intro h
    cases h with
    | absolute hbody =>
      obtain ⟨c, rest, rfl, hc⟩ := digit_of_amount hbody
      rw [readSign_digit hc, (readAmount_iff _ _).mpr ⟨_, rfl, hbody⟩, Option.map_some,
        Int.mul_one]
    | forward hbody =>
      rw [readSign_plus, (readAmount_iff _ _).mpr ⟨_, rfl, hbody⟩, Option.map_some, Int.mul_one]
    | back hbody =>
      rw [readSign_minus, (readAmount_iff _ _).mpr ⟨_, rfl, hbody⟩, Option.map_some, Int.mul_neg_one]

/-! ### The reading in an `int` -/

theorem toInt_mul (x y : Int) : toInt (toInt x * y) = toInt (x * y) := Int.bmod_mul_bmod

theorem toInt_add (x y : Int) : toInt (toInt x + toInt y) = toInt (x + y) := by
  rw [toInt, toInt, toInt, toInt, Int.bmod_add_bmod, Int.add_bmod_bmod]

theorem getNumber_toInt (val : Int) (str : Text) :
    getNumber toInt (toInt val) str =
      (toInt (getNumber id val str).1, (getNumber id val str).2) := by
  induction str generalizing val with
  | nil => rfl
  | cons c str ih =>
    rw [getNumber, getNumber]
    split
    · rw [toInt_mul, toInt, toInt, Int.bmod_add_bmod]
      exact ih _
    · rfl

theorem inside_toInt (seek : Int) (arg : Text) :
    inside toInt (toInt seek) arg = (inside id seek arg).map fun r => (toInt r.1, r.2) := by
  have hnum : getNumber toInt 0 arg = (toInt (getNumber id 0 arg).1, (getNumber id 0 arg).2) :=
    getNumber_toInt 0 arg
  rw [inside, inside, hnum]
  dsimp only
  split
  · rfl
  · rw [toInt_mul, toInt_add]
    rfl

theorem components_toInt (left count : Nat) (seek : Int) (arg : Text) :
    components toInt left count (toInt seek) arg =
      (toInt (components id left count seek arg).1, (components id left count seek arg).2) := by
  induction left generalizing count seek arg with
  | zero => rfl
  | succ left ih =>
    cases arg with
    | nil => rfl
    | cons c rest =>
      rw [components, components]
      split
      · rfl
      · rw [inside_toInt]
        cases inside id seek rest with
        | none => rfl
        | some r => exact ih _ _ _

theorem loop_toInt (arg : Text) :
    loop toInt arg = (toInt (loop id arg).1, (loop id arg).2) := by
  have hfirst : inside toInt 0 arg = (inside id 0 arg).map fun r => (toInt r.1, r.2) :=
    inside_toInt 0 arg
  rw [loop, loop, hfirst]
  cases inside id 0 arg with
  | none => rfl
  | some r => exact components_toInt 2 1 r.1 r.2

theorem scale_toInt (seek : Int) (arg : Text) :
    scale toInt (toInt seek) arg = (toInt (scale id seek arg).1, (scale id seek arg).2) := by
  cases arg with
  | nil => rfl
  | cons c rest =>
    rw [scale, scale]
    split
    · rw [toInt_mul, Int.mul_assoc, toInt_mul, ← Int.mul_assoc]
      rfl
    · split
      · rw [toInt_mul]
        rfl
      · split <;> rfl

/-- The program's number is the exact one, stored in an `int`. -/
theorem cmdSeek_eq (arg : Text) :
    cmdSeek arg = (readSeek id arg).map fun r => (toInt r.1, r.2) := by
  rw [cmdSeek, readSeek, readSeek]
  obtain ⟨sign, relative, body⟩ := readSign arg
  dsimp only
  rw [loop_toInt]
  obtain ⟨seek, count, rest⟩ := loop id body
  dsimp only
  rw [toInt_mul]
  split
  · rfl
  · split
    · rw [scale_toInt]
      dsimp only [id]
      split <;> rfl
    · dsimp only [id]
      split <;> rfl

def FitsInt (n : Int) : Prop := -2 ^ 31 ≤ n ∧ n < 2 ^ 31

theorem toInt_of_fits {n : Int} (h : FitsInt n) : toInt n = n := by
  rw [FitsInt] at h
  rw [toInt]
  apply Int.bmod_eq_of_le <;> omega

/-! ### The command -/

/-- The player is called exactly for the arguments that denote an `int`, with it. -/
def SeeksRight (arg : Text) : Prop :=
  ∀ (seek : Int) (relative : Bool),
    cmdSeek arg = some (seek, relative) ↔ Signed Amount arg relative seek ∧ FitsInt seek

theorem signed_or {arg : Text} {relative : Bool} {seek : Int} :
    Signed (fun t n => Amount t n ∨ Dangling t n) arg relative seek ↔
      Signed Amount arg relative seek ∨ Signed Dangling arg relative seek := by
  constructor
  · intro h
    cases h with
    | absolute h => exact h.imp .absolute .absolute
    | forward h => exact h.imp .forward .forward
    | back h => exact h.imp .back .back
  · intro h
    obtain h | h := h
    · cases h with
      | absolute h => exact .absolute (Or.inl h)
      | forward h => exact .forward (Or.inl h)
      | back h => exact .back (Or.inl h)
    · cases h with
      | absolute h => exact .absolute (Or.inr h)
      | forward h => exact .forward (Or.inr h)
      | back h => exact .back (Or.inr h)

/-- Every colon is followed by a digit. -/
def ColonsFollowed : Text → Prop
  | [] => True
  | c :: rest => (c = ch ':' → rest.head?.any isDigit = true) ∧ ColonsFollowed rest

theorem colonsFollowed_append {t : Text} (ht : ∀ c ∈ t, c ≠ ch ':') (rest : Text) :
    ColonsFollowed (t ++ rest) ↔ ColonsFollowed rest := by
  induction t with
  | nil => exact Iff.rfl
  | cons c t ih =>
    rw [List.cons_append, ColonsFollowed, ih fun d hd => ht d (List.mem_cons_of_mem c hd)]
    exact and_iff_right fun hc => absurd hc (ht c List.mem_cons_self)

theorem Numeral.noColon {t : Text} (ht : Numeral t) : ∀ c ∈ t, c ≠ ch ':' := by
  intro c hc heq
  subst heq
  exact absurd (ht.2 _ hc) (by decide)

theorem Numeral.followed {t : Text} (ht : Numeral t) : ColonsFollowed t := by
  have h := colonsFollowed_append ht.noColon []
  rw [List.append_nil] at h
  exact h.mpr trivial

theorem Numeral.head (rest : Text) {t : Text} (ht : Numeral t) :
    (t ++ rest).head?.any isDigit = true := by
  obtain ⟨c, t, rfl⟩ := List.exists_cons_of_ne_nil ht.1
  exact ht.2 c List.mem_cons_self

theorem Amount.followed {arg : Text} {n : Nat} (h : Amount arg n) : ColonsFollowed arg := by
  cases h with
  | seconds ht => exact ht.followed
  | unit ht hk =>
    rw [colonsFollowed_append ht.noColon]
    exact ⟨fun hc => absurd hc (secondsPer_not hk).1, trivial⟩
  | minutes hm hs =>
    rw [colonsFollowed_append hm.noColon]
    refine ⟨fun _ => ?_, hs.followed⟩
    have hhead := hs.head []
    rwa [List.append_nil] at hhead
  | hours hh hm hs =>
    rw [colonsFollowed_append hh.noColon]
    refine ⟨fun _ => hm.head _, ?_⟩
    rw [colonsFollowed_append hm.noColon]
    refine ⟨fun _ => ?_, hs.followed⟩
    have hhead := hs.head []
    rwa [List.append_nil] at hhead

theorem Dangling.not_followed {arg : Text} {n : Nat} (h : Dangling arg n) :
    ¬ ColonsFollowed arg := by
  cases h with
  | plain ht =>
    rw [colonsFollowed_append ht.noColon]
    intro h
    exact Bool.false_ne_true (h.1 rfl)
  | unit ht hk =>
    rw [colonsFollowed_append ht.noColon]
    intro h
    have hdigit := h.1 rfl
    rw [List.head?_cons, Option.any_some, (secondsPer_not hk).2] at hdigit
    cases hdigit
  | minutes hm hs =>
    rw [colonsFollowed_append hm.noColon]
    intro h
    have hlast := (colonsFollowed_append hs.noColon [ch ':']).mp h.2
    exact Bool.false_ne_true (hlast.1 rfl)

theorem not_signed_both {arg : Text} {relative relative' : Bool} {seek seek' : Int}
    (hdangling : Signed Dangling arg relative seek) : ¬ Signed Amount arg relative' seek' := by
  intro hamount
  have hfollowed : ColonsFollowed arg := by
    cases hamount with
    | absolute h => exact h.followed
    | forward h => exact ⟨fun hc => absurd hc (by decide), h.followed⟩
    | back h => exact ⟨fun hc => absurd hc (by decide), h.followed⟩
  cases hdangling with
  | absolute h => exact h.not_followed hfollowed
  | forward h => exact h.not_followed hfollowed.2
  | back h => exact h.not_followed hfollowed.2

theorem cmdSeek_iff (arg : Text) (seek : Int) (relative : Bool) :
    cmdSeek arg = some (seek, relative) ↔ ∃ n, toInt n = seek ∧
      (Signed Amount arg relative n ∨ Signed Dangling arg relative n) := by
  rw [cmdSeek_eq, Option.map_eq_some_iff]
  constructor
  · intro h
    obtain ⟨⟨n, relative'⟩, hread, heq⟩ := h
    obtain ⟨rfl, rfl⟩ := Prod.mk.inj heq
    exact ⟨n, rfl, signed_or.mp ((readSeek_iff _ _ _).mp hread)⟩
  · intro h
    obtain ⟨n, rfl, hsigned⟩ := h
    exact ⟨(n, relative), (readSeek_iff _ _ _).mpr (signed_or.mpr hsigned), rfl⟩

/-- **The seek argument** is read right exactly where no colon dangles and the number of
seconds fits an `int`. -/
theorem cmd_seek_right (arg : Text) : SeeksRight arg ↔
    (∀ relative seek, ¬ Signed Dangling arg relative seek) ∧
      ∀ relative seek, Signed Amount arg relative seek → FitsInt seek := by
  constructor
  · intro h
    constructor
    · intro relative seek hdangling
      have hcall := (cmdSeek_iff arg (toInt seek) relative).mpr ⟨seek, rfl, Or.inr hdangling⟩
      exact not_signed_both hdangling ((h _ _).mp hcall).1
    · intro relative seek hamount
      have hcall := (cmdSeek_iff arg (toInt seek) relative).mpr ⟨seek, rfl, Or.inl hamount⟩
      obtain ⟨hstored, hfits⟩ := (h _ _).mp hcall
      have hexact := (readSeek_iff arg seek relative).mpr (signed_or.mpr (Or.inl hamount))
      have hexact' := (readSeek_iff arg _ relative).mpr (signed_or.mpr (Or.inl hstored))
      obtain ⟨hsame, -⟩ := Prod.mk.inj (Option.some.inj (hexact.symm.trans hexact'))
      rwa [hsame]
  · intro h seek relative
    rw [cmdSeek_iff]
    constructor
    · intro hread
      obtain ⟨n, rfl, hamount | hdangling⟩ := hread
      · rw [toInt_of_fits (h.2 _ _ hamount)]
        exact ⟨hamount, h.2 _ _ hamount⟩
      · exact absurd hdangling (h.1 _ _)
    · intro hdenotes
      exact ⟨seek, toInt_of_fits hdenotes.2, Or.inl hdenotes.1⟩

/-- A colon at the end is dropped, and 2^32 seconds are none. -/
theorem seek_reads_wrong :
    (cmdSeek (ascii "1:") = some (1, false) ∧ ¬ SeeksRight (ascii "1:")) ∧
      cmdSeek (ascii "4294967296") = some (0, false) ∧ ¬ SeeksRight (ascii "4294967296") := by
  refine ⟨⟨by decide +kernel, fun h => ?_⟩, by decide +kernel, fun h => ?_⟩
  · exact ((cmd_seek_right _).mp h).1 false 1
      (.absolute (.plain (n := ascii "1") ⟨by decide, by decide +kernel⟩))
  · have hfits := ((cmd_seek_right _).mp h).2 false 4294967296
      (.absolute (.seconds (n := ascii "4294967296") ⟨by decide, by decide +kernel⟩))
    rw [FitsInt] at hfits
    omega

end GracefulMusic.Seek
