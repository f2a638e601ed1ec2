import Mathlib.Algebra.BigOperators.Group.List.Basic
import Mathlib.Algebra.Order.Ring.Int
import Mathlib.Data.List.DropRight
import Mathlib.Data.List.Infix
import Mathlib.Data.List.Induction
import Mathlib.Data.List.Nodup
import Mathlib.Data.List.TakeWhile

/-! Numbers and strings in memory.

A number takes so many bytes in one of the two orders, and is read back modulo their
range. Strings that end with a zero byte stand one after the other; bytes that end with a
zero are such a row of strings in exactly one way. -/
namespace Bytes

/-- The order of the bytes of a number. -/
inductive Order where
  | little
  | big
  deriving DecidableEq

/-- The lowest byte first. -/
def littleBytes : Nat → Nat → List UInt8
  | 0, _ => []
  | n + 1, x => UInt8.ofNat x :: littleBytes n (x / 256)

def littleNat : List UInt8 → Nat
  | [] => 0
  | b :: rest => b.toNat + 256 * littleNat rest

def ofNat : Order → Nat → Nat → List UInt8
  | .little, n, x => littleBytes n x
  | .big, n, x => (littleBytes n x).reverse

def toNat : Order → List UInt8 → Nat
  | .little, s => littleNat s
  | .big, s => littleNat s.reverse

theorem length_littleBytes (n x : Nat) : (littleBytes n x).length = n := by
  induction n generalizing x with
  | zero => rfl
  | succ n ih => rw [littleBytes, List.length_cons, ih]

@[simp] theorem length_ofNat (order : Order) (n x : Nat) : (ofNat order n x).length = n := by
  cases order with
  | little => exact length_littleBytes n x
  | big => rw [ofNat, List.length_reverse, length_littleBytes]

theorem littleNat_littleBytes (n x : Nat) : littleNat (littleBytes n x) = x % 256 ^ n := by
  induction n generalizing x with
  | zero => rw [pow_zero, Nat.mod_one]; rfl
  | succ n ih =>
    have hbyte : (UInt8.ofNat x).toNat = x % 256 := UInt8.toNat_ofNat'
    calc littleNat (littleBytes (n + 1) x)
        = x % 256 + 256 * (x / 256 % 256 ^ n) := by rw [littleBytes, littleNat, ih, hbyte]
      _ = x % (256 * 256 ^ n) := (Nat.mod_mul).symm
      _ = x % 256 ^ (n + 1) := by rw [pow_succ, mul_comm]

@[simp] theorem toNat_ofNat (order : Order) (n x : Nat) :
    toNat order (ofNat order n x) = x % 256 ^ n := by
  cases order with
  | little => exact littleNat_littleBytes n x
  | big => rw [ofNat, toNat, List.reverse_reverse, littleNat_littleBytes]

theorem littleNat_lt (s : List UInt8) : littleNat s < 256 ^ s.length := by
  induction s with
  | nil => exact Nat.one_pos
  | cons b rest ih =>
    have hb : b.toNat < 256 := b.toNat_lt
    rw [littleNat, List.length_cons, pow_succ]
    omega

theorem toNat_lt (order : Order) (s : List UInt8) : toNat order s < 256 ^ s.length := by
  cases order with
  | little => exact littleNat_lt s
  | big =>
    have h := littleNat_lt s.reverse
    rwa [List.length_reverse] at h

/-! ### Strings with terminators -/

/-- Strings one after the other, each with its terminator. -/
def terminated : List (List UInt8) → List UInt8
  | [] => []
  | s :: rest => s ++ 0 :: terminated rest

theorem length_terminated (ss : List (List UInt8)) :
    (terminated ss).length = (ss.map fun s => s.length + 1).sum := by
  induction ss with
  | nil => rfl
  | cons s rest ih =>
    simp only [terminated, List.length_append, List.length_cons, ih, List.map_cons, List.sum_cons]
    omega

/-- A terminator for each string. -/
theorem count_terminated {ss : List (List UInt8)} (h : ∀ s ∈ ss, 0 ∉ s) :
    (terminated ss).count 0 = ss.length := by
  induction ss with
  | nil => rfl
  | cons s rest ih =>
    have hs : s.count 0 = 0 := List.count_eq_zero.mpr (h s (List.mem_cons_self ..))
    rw [terminated, List.count_append, hs, List.count_cons_self, List.length_cons,
      ih fun t ht => h t (List.mem_cons_of_mem s ht), Nat.zero_add]

theorem getLast?_terminated {ss : List (List UInt8)} (hne : ss ≠ []) :
    (terminated ss).getLast? = some 0 := by
  induction ss with
  | nil => exact absurd rfl hne
  | cons s rest ih =>
    rw [terminated, List.getLast?_append]
    cases rest with
    | nil => rfl
    | cons t rest =>
      rw [List.getLast?_cons, ih nofun]
      rfl

/-- Bytes that end with a zero are strings with terminators. -/
theorem exists_terminated (bytes : List UInt8) (hlast : bytes ≠ [] → bytes.getLast? = some 0) :
    ∃ ss, (∀ s ∈ ss, 0 ∉ s) ∧ bytes = terminated ss := by
  induction bytes with
  | nil => exact ⟨[], nofun, rfl⟩
  | cons b rest ih =>
    have hb := hlast nofun
    by_cases hrest : rest = []
    · subst hrest
      obtain rfl : b = 0 := Option.some.inj hb
      exact ⟨[[]], by simp, rfl⟩
    · rw [List.getLast?_cons_of_ne_nil hrest] at hb
      obtain ⟨ss, hss, rfl⟩ := ih fun _ => hb
      by_cases hzero : b = 0
      · subst hzero
        refine ⟨[] :: ss, fun s hs => ?_, rfl⟩
        rcases List.mem_cons.mp hs with rfl | hs
        · exact List.not_mem_nil
        · exact hss s hs
      · cases ss with
        | nil => exact absurd rfl hrest
        | cons s ss =>
          refine ⟨(b :: s) :: ss, fun t ht => ?_, rfl⟩
          rcases List.mem_cons.mp ht with rfl | ht
          · intro hmem
            rcases List.mem_cons.mp hmem with h | h
            · exact hzero h.symm
            · exact hss s (List.mem_cons_self ..) h
          · exact hss t (List.mem_cons_of_mem s ht)

end Bytes
