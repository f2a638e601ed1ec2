import GracefulMusic.Expr.Grammar
import GracefulMusic.Expr.IntLeaf
import GracefulMusic.Format.Scan
import GracefulMusic.TextOrder

/-! What conditions are worth (`format_print.c`).

A condition is put together from the truth values of its leaves. A leaf for an integer finds
its operator only where both sides are set, a leaf for two keys of the program's options
finds the second one twice, and integers are compared by a difference that is an `int`. -/
namespace GracefulMusic.Format
open GracefulMusic.Expr (Op)

variable {D : Type} (env : Env) (fopts : List (FormatOption D))

/-! ### The truth values of leaves -/

/-- Only `=` and `!=` hold of what is not set. -/
def compareInts (op : Op) (a b : Int) : Bool :=
  if a = -1 ∨ b = -1 then unsetToBool (a - b) op else Expr.exprOpToBool (a - b) op

/-- Two strings where both keys have one, and else two integers. -/
def compareKeys (key : Text) (op : Op) (other : Text) : Bool :=
  match strVal env fopts key, strVal env fopts other with
  | some sa, some sb => Expr.exprOpToBool (strcmp sa.text sb.text) op
  | _, _ => compareInts op (intVal fopts key) (intVal fopts other)

def leafValue : Expr → Bool
  | .str key op pattern =>
    let res := env.globMatch pattern (((strVal env fopts key).map StrVal.text).getD [])
    if op = .eq then res else !res
  | .int key op val => compareInts op (intVal fopts key) val
  | .id key op other => compareKeys env fopts key op other
  | .bool key => evalBool env fopts key
  | _ => false

/-- The truth value of a condition. -/
def condValue (e : Expr) : Bool := e.evalLeaves (leafValue env fopts)

/-! ### Leaves at fault -/

/-- The remainder of a difference modulo `2 ^ 32` is not where the operator looks for it. -/
def overflows (op : Op) (a b : Int) : Bool :=
  match op with
  | .eq | .ne => decide ((a - b) % 2 ^ 32 = 0 ∧ a ≠ b)
  | .lt | .ge => decide (¬ (2 ^ 31 ≤ (a - b) % 2 ^ 32 ↔ a < b))
  | .le | .gt => decide (¬ ((a - b) % 2 ^ 32 = 0 ∨ 2 ^ 31 ≤ (a - b) % 2 ^ 32 ↔ a ≤ b))

/-- A comparison of a string with itself in place of another one. -/
def differs (op : Op) (cmp : Int) : Bool :=
  match op with
  | .eq | .ne => cmp ≠ 0
  | .lt | .ge => cmp < 0
  | .le | .gt => 0 < cmp

/-- What is not set holds of no integer leaf. -/
def intAtFault (op : Op) (v val : Int) : Bool :=
  if v = -1 ∨ val = -1 then decide (op = .eq ∧ v = val ∨ op = .ne ∧ v ≠ val)
  else overflows op v val

/-- And only options of the program get into each other's way. -/
def idAtFault (key : Text) (op : Op) (other : Text) : Bool :=
  match strVal env fopts key, strVal env fopts other with
  | some (.buffer sa), some (.buffer sb) => differs op (strcmp sa sb)
  | some _, some _ => false
  | _, _ =>
    let a := intVal fopts key
    let b := intVal fopts other
    if a = -1 ∨ b = -1 then decide (op = .eq ∨ op = .ne) && overflows op a b
    else overflows op a b

def atFault : Expr → Bool
  | .int key op val => intAtFault op (intVal fopts key) val
  | .id key op other => idAtFault env fopts key op other
  | _ => false

/-- A condition with the truth values of its leaves at fault negated. -/
def negated (e : Expr) : Bool :=
  e.evalLeaves fun leaf => leafValue env fopts leaf != atFault env fopts leaf

/-! ### Integers -/

theorem exprOpToBool_overflows (op : Op) (a b : Int) :
    Expr.exprOpToBool (toInt (a - b)) op =
      (Expr.exprOpToBool (a - b) op != overflows op a b) := by
  have hcode := Expr.exprOpToBool_iff (a - b) op
  have hnonneg := Int.emod_nonneg (a - b) (show (2 : Int) ^ 32 ≠ 0 by decide)
  have hbound := Int.emod_lt_of_pos (a - b) (show (0 : Int) < 2 ^ 32 by decide)
  rw [Bool.eq_iff_iff, hcode, bne_iff_ne, ne_eq, Bool.eq_iff_iff]
  cases op <;>
    simp only [Expr.Op.OfRemainder, Expr.exprOpToBool, overflows, decide_eq_true_eq] <;> omega

/-- Two `int`s are equal where the remainder is 0, and else their difference has to fit. -/
theorem overflows_of_fits (op : Op) {a b : Int} (ha : -2 ^ 31 ≤ a ∧ a ≤ intMax)
    (hb : -2 ^ 31 ≤ b ∧ b ≤ intMax) :
    overflows op a b = true ↔
      op ≠ .eq ∧ op ≠ .ne ∧ ¬ (-2 ^ 31 ≤ a - b ∧ a - b ≤ intMax) := by
  have hmax : intMax = 2 ^ 31 - 1 := rfl
  cases op <;> simp only [overflows, decide_eq_true_eq] <;> simp <;> omega

theorem unsetToBool_overflows (op : Op) (a b : Int) :
    unsetToBool (toInt (a - b)) op =
      (unsetToBool (a - b) op != (decide (op = .eq ∨ op = .ne) && overflows op a b)) := by
  have hover := exprOpToBool_overflows op a b
  cases op with
  | eq => simpa [unsetToBool, Expr.exprOpToBool] using hover
  | ne => simpa [unsetToBool, Expr.exprOpToBool] using hover
  | _ => rfl

/-! ### Leaves -/

theorem formatEvalCond_int (key : Text) (op : Op) (val : Int) :
    formatEvalCond env fopts (.int key op val) =
      (compareInts op (intVal fopts key) val != intAtFault op (intVal fopts key) val) := by
  rw [formatEvalCond, compareInts, intAtFault]
  by_cases hunset : intVal fopts key = -1 ∨ val = -1
  · rw [if_pos hunset, if_pos hunset, if_pos hunset]
    cases op <;> simp [unsetToBool, opBehindInt, sub_eq_zero]
  · rw [if_neg hunset, if_neg hunset, if_neg hunset, exprOpToBool_overflows]

theorem strcmp_self (s : Text) : strcmp s s = 0 := by
  have hswap := strcmp_swap s s
  omega

theorem exprOpToBool_differs (op : Op) (cmp : Int) :
    Expr.exprOpToBool 0 op = (Expr.exprOpToBool cmp op != differs op cmp) := by
  rw [Bool.eq_iff_iff, bne_iff_ne, ne_eq, Bool.eq_iff_iff]
  have hsplit := lt_trichotomy cmp 0
  cases op <;> simp [Expr.exprOpToBool, differs] <;> omega

theorem evalId_eq (key : Text) (op : Op) (other : Text) :
    evalId env fopts key op other =
      (compareKeys env fopts key op other != idAtFault env fopts key op other) := by
  have hints : (if intVal fopts key = -1 ∨ intVal fopts other = -1 then
        unsetToBool (toInt (intVal fopts key - intVal fopts other)) op
      else Expr.exprOpToBool (toInt (intVal fopts key - intVal fopts other)) op) =
      (compareInts op (intVal fopts key) (intVal fopts other) !=
        if intVal fopts key = -1 ∨ intVal fopts other = -1 then
          decide (op = .eq ∨ op = .ne) &&
            overflows op (intVal fopts key) (intVal fopts other)
        else overflows op (intVal fopts key) (intVal fopts other)) := by
    rw [compareInts]
    split
    · exact unsetToBool_overflows op _ _
    · exact exprOpToBool_overflows op _ _
  unfold evalId compareKeys idAtFault
  cases strVal env fopts key with
  | none => exact hints
  | some sa =>
    cases strVal env fopts other with
    | none => cases sa <;> exact hints
    | some sb =>
      cases sa with
      | table sa => exact (Bool.bne_false _).symm
      | buffer sa =>
        cases sb with
        | table sb => exact (Bool.bne_false _).symm
        | buffer sb =>
          dsimp only
          rw [strcmp_self]
          exact exprOpToBool_differs op _

/-- A leaf has its truth value where it is not at fault. -/
theorem formatEvalCond_eq (e : Expr) : formatEvalCond env fopts e = negated env fopts e := by
  induction e with
  | and left right hl hr => rw [formatEvalCond, hl, hr]; rfl
  | or left right hl hr => rw [formatEvalCond, hl, hr]; rfl
  | not left hl => rw [formatEvalCond, hl]; rfl
  | str key op pattern => exact (Bool.bne_false _).symm
  | int key op val => exact formatEvalCond_int env fopts key op val
  | id key op other => exact evalId_eq env fopts key op other
  | bool key => exact (Bool.bne_false _).symm

/-! ### Mirrored comparisons -/

/-- The operator with its sides exchanged. -/
def mirror : Op → Op
  | .lt => .gt
  | .le => .ge
  | .eq => .eq
  | .ge => .le
  | .gt => .lt
  | .ne => .ne

/-- The least `int` is its own negative. -/
def skewed (key : Text) (op : Op) (other : Text) : Bool :=
  match strVal env fopts key, strVal env fopts other with
  | some _, some _ => false
  | _, _ =>
    let a := intVal fopts key
    let b := intVal fopts other
    decide (a ≠ -1 ∧ b ≠ -1 ∧ op ≠ .eq ∧ op ≠ .ne ∧ (a - b) % 2 ^ 32 = 2 ^ 31)

theorem exprOpToBool_mirror (op : Op) (cmp : Int) :
    Expr.exprOpToBool cmp op = Expr.exprOpToBool (-cmp) (mirror op) := by
  cases op <;> simp [Expr.exprOpToBool, mirror]

theorem unsetToBool_mirror (op : Op) (a b : Int) :
    unsetToBool (toInt (a - b)) op = unsetToBool (toInt (b - a)) (mirror op) := by
  have hab := Expr.toInt_cases (a - b)
  have hba := Expr.toInt_cases (b - a)
  cases op <;> simp only [unsetToBool, mirror, decide_eq_decide] <;> omega

theorem toInt_mirror (op : Op) (a b : Int) :
    Expr.exprOpToBool (toInt (a - b)) op = Expr.exprOpToBool (toInt (b - a)) (mirror op) ↔
      ¬ (op ≠ .eq ∧ op ≠ .ne ∧ (a - b) % 2 ^ 32 = 2 ^ 31) := by
  have hab := Expr.toInt_cases (a - b)
  have hba := Expr.toInt_cases (b - a)
  cases op <;> simp [Expr.exprOpToBool, mirror] <;> omega

theorem evalId_mirror (key : Text) (op : Op) (other : Text) :
    evalId env fopts key op other = evalId env fopts other (mirror op) key ↔
      skewed env fopts key op other = false := by
  have hints : ((if intVal fopts key = -1 ∨ intVal fopts other = -1 then
        unsetToBool (toInt (intVal fopts key - intVal fopts other)) op
      else Expr.exprOpToBool (toInt (intVal fopts key - intVal fopts other)) op) =
      if intVal fopts other = -1 ∨ intVal fopts key = -1 then
        unsetToBool (toInt (intVal fopts other - intVal fopts key)) (mirror op)
      else Expr.exprOpToBool (toInt (intVal fopts other - intVal fopts key)) (mirror op)) ↔
      decide (intVal fopts key ≠ -1 ∧ intVal fopts other ≠ -1 ∧ op ≠ .eq ∧ op ≠ .ne ∧
        (intVal fopts key - intVal fopts other) % 2 ^ 32 = 2 ^ 31) = false := by
    rw [decide_eq_false_iff_not]
    by_cases hunset : intVal fopts key = -1 ∨ intVal fopts other = -1
    · rw [if_pos hunset, if_pos hunset.symm]
      refine iff_of_true (unsetToBool_mirror op _ _) fun h => ?_
      exact hunset.elim h.1 h.2.1
    · rw [not_or] at hunset
      rw [if_neg (not_or.mpr hunset), if_neg (not_or.mpr hunset.symm), toInt_mirror,
        and_iff_right hunset.1, and_iff_right hunset.2]
  have hstrings (sa sb : Text) : Expr.exprOpToBool (strcmp sa sb) op =
      Expr.exprOpToBool (strcmp sb sa) (mirror op) := by
    rw [strcmp_swap sa sb, exprOpToBool_mirror]
  unfold evalId skewed
  cases strVal env fopts key with
  | none =>
    cases strVal env fopts other with
    | none => exact hints
    | some sb => cases sb <;> exact hints
  | some sa =>
    cases strVal env fopts other with
    | none => cases sa <;> exact hints
    | some sb =>
      refine iff_of_true ?_ rfl
      cases sa with
      | table sa => cases sb <;> exact hstrings _ _
      | buffer sa =>
        cases sb with
        | table sb => exact hstrings _ _
        | buffer sb =>
          dsimp only
          rw [strcmp_self, strcmp_self, exprOpToBool_mirror]
          rfl

/-! ### Conditions -/

/-- No options of the program. -/
def bareEnv : Env := {Expr.plainEnv with option := fun _ => none}

end GracefulMusic.Format
