import Mathlib.Data.List.Infix
import Mathlib.Algebra.Order.Ring.Nat
import Mathlib.Tactic.Ring

/-! Allocated arrays, and arrays that grow as they are filled.

A block is the cells of an allocation, and `none` is a cell that nothing was written to.
A write outside of the block is undefined, and so is the run that makes it.

A growing array doubles its allocation when it is full, and has some cells to spare for
what follows the last element. `Holds.room_iff` says when there is room for that. -/
namespace Memory

/-- The cells of an allocation. -/
abbrev Block (α : Type*) := List (Option α)

variable {α : Type*}

namespace Block

def malloc (n : Nat) : Block α := List.replicate n none

def realloc (b : Block α) (n : Nat) : Block α := b.take n ++ malloc (n - b.length)

def write (b : Block α) (i : Nat) (a : α) : Option (Block α) :=
  if i < b.length then some (b.set i (some a)) else none

def read (b : Block α) (i : Nat) : Option α := b[i]?.join

/-- The cells up to the first null pointer. -/
def untilNull : Block (Option α) → Option (List α)
  | [] => none
  | none :: _ => none
  | some none :: _ => some []
  | some (some a) :: b => (untilNull b).map (a :: ·)

/-- The first cells hold these values. -/
def Starts (b : Block α) (l : List α) : Prop := l.map some <+: b

variable {b : Block α} {l : List α}

theorem starts_nil : Starts b [] := List.nil_prefix

theorem Starts.write (h : Starts b l) (hroom : l.length < b.length) (a : α) :
    ∃ b', b.write l.length a = some b' ∧ Starts b' (l ++ [a]) ∧ b'.length = b.length := by
  obtain ⟨spare, rfl⟩ := h
  refine ⟨_, if_pos hroom, ?_, List.length_set⟩
  cases spare with
  | nil => simp at hroom
  | cons c spare => exact ⟨spare, by simp⟩

theorem Starts.realloc (h : Starts b l) {n : Nat} (hn : l.length ≤ n) :
    Starts (b.realloc n) l := by
  obtain ⟨spare, rfl⟩ := h
  refine ⟨spare.take (n - l.length) ++ malloc (n - (l.map some ++ spare).length), ?_⟩
  rw [Block.realloc, List.take_append, List.take_of_length_le (i := n) (by simpa using hn),
    List.length_map, List.append_assoc]

theorem length_realloc (n : Nat) : (b.realloc n).length = n := by
  rw [Block.realloc, malloc, List.length_append, List.length_take, List.length_replicate]
  omega

theorem Starts.read (h : Starts b l) {i : Nat} (hi : i < l.length) : b.read i = l[i]? := by
  obtain ⟨spare, rfl⟩ := h
  rw [Block.read, List.getElem?_append_left (by simpa using hi), List.getElem?_map]
  cases l[i]? <;> rfl

/-- A block that is full. -/
theorem Starts.eq (h : Starts b l) (hlength : b.length = l.length) : b = l.map some := by
  obtain ⟨spare, rfl⟩ := h
  have hspare : spare = [] := by
    rw [List.length_append, List.length_map] at hlength
    exact List.length_eq_zero_iff.mp (by omega)
  rw [hspare, List.append_nil]

theorem Starts.untilNull {b : Block (Option α)} {l : List α} (h : Starts b (l.map some ++ [none])) :
    b.untilNull = some l := by
  obtain ⟨spare, rfl⟩ := h
  induction l with
  | nil => rfl
  | cons a l ih => exact congrArg (Option.map (a :: ·)) ih

end Block

/-- An array that is `none` of its cells at first. -/
structure Growing (α : Type*) where
  block : Block α
  alloc : Nat
  nr : Nat

namespace Growing

def empty : Growing α := ⟨[], 0, 0⟩

/-- Where the array is full, it is made twice as large, or `first` elements at first. -/
def push (first spare : Nat) (g : Growing α) (a : α) : Option (Growing α) :=
  let alloc := if g.nr = g.alloc then if g.alloc ≠ 0 then g.alloc * 2 else first else g.alloc
  let block := if g.nr = g.alloc then g.block.realloc (alloc + spare) else g.block
  (block.write g.nr a).map fun block => ⟨block, alloc, g.nr + 1⟩

/-- The array holds `l`, in an allocation that was doubled no more often than needed. -/
structure Holds (first spare : Nat) (g : Growing α) (l : List α) : Prop where
  starts : g.block.Starts l
  nr : g.nr = l.length
  none : l = [] → g.alloc = 0 ∧ g.block = []
  some : l ≠ [] → g.block.length = g.alloc + spare ∧ l.length ≤ g.alloc ∧
    ∃ k, g.alloc = first * 2 ^ k ∧ (k = 0 ∨ g.alloc < 2 * l.length)

variable {first spare : Nat} {g : Growing α} {l : List α}

theorem holds_empty : Holds first spare (empty : Growing α) [] :=
  ⟨Block.starts_nil, rfl, fun _ => ⟨rfl, rfl⟩, fun h => absurd rfl h⟩

theorem Holds.push (h : Holds first spare g l) (hfirst : 0 < first) (a : α) :
    ∃ g', g.push first spare a = Option.some g' ∧ Holds first spare g' (l ++ [a]) := by
  have hle : l.length ≤ g.alloc := by
    by_cases hl : l = []
    · simp [hl]
    · exact (h.some hl).2.1
  unfold Growing.push
  by_cases hfull : g.nr = g.alloc
  · simp only [if_pos hfull]
    have hfull' : g.alloc = l.length := hfull.symm.trans h.nr
    -- how large the array becomes
    obtain ⟨alloc, halloc, hroom, k, hk, hless⟩ : ∃ alloc,
        (if g.alloc ≠ 0 then g.alloc * 2 else first) = alloc ∧ l.length < alloc ∧
        ∃ k, alloc = first * 2 ^ k ∧ (k = 0 ∨ alloc < 2 * (l.length + 1)) := by
      by_cases hzero : g.alloc = 0
      · exact ⟨first, if_neg (not_not.mpr hzero), by omega, 0, by simp, .inl rfl⟩
      · have hl : l ≠ [] := List.length_pos_iff.mp (by omega)
        obtain ⟨-, -, k, hk, -⟩ := h.some hl
        refine ⟨g.alloc * 2, if_pos hzero, by omega, k + 1, ?_, .inr (by omega)⟩
        rw [hk, pow_succ, Nat.mul_assoc]
    rw [halloc, h.nr]
    obtain ⟨b, hb, hstarts, hlength⟩ := (h.starts.realloc (n := alloc + spare)
      (by omega)).write (by rw [Block.length_realloc]; omega) a
    rw [Block.length_realloc] at hlength
    refine ⟨⟨b, alloc, l.length + 1⟩, by rw [hb]; rfl, hstarts, by simp, by simp,
      fun _ => ⟨hlength, ?_, k, hk, ?_⟩⟩
    · simpa using Nat.succ_le_of_lt hroom
    · simpa using hless
  · simp only [if_neg hfull]
    have hl : l ≠ [] := by
      intro heq
      subst heq
      exact hfull (h.nr.trans (h.none rfl).1.symm)
    obtain ⟨hblock, -, k, hk, hless⟩ := h.some hl
    rw [h.nr] at hfull ⊢
    obtain ⟨b, hb, hstarts, hlength⟩ := h.starts.write (by omega) a
    refine ⟨⟨b, g.alloc, l.length + 1⟩, by rw [hb]; rfl, hstarts, by simp, by simp,
      fun _ => ⟨hlength.trans hblock, ?_, k, hk, ?_⟩⟩
    · simp only [List.length_append, List.length_singleton]
      omega
    · simp only [List.length_append, List.length_singleton]
      omega

/-- All elements one after the other. -/
theorem holds_foldlM (spare : Nat) (hfirst : 0 < first) (l : List α) : ∃ g,
    l.foldlM (fun g a => push first spare g a) empty = Option.some g ∧ Holds first spare g l := by
  induction l using List.reverseRecOn with
  | nil => exact ⟨_, rfl, holds_empty⟩
  | append_singleton l a ih =>
    obtain ⟨g, hg, h⟩ := ih
    obtain ⟨g', hg', h'⟩ := h.push hfirst a
    refine ⟨g', ?_, h'⟩
    rw [List.foldlM_append, hg]
    exact (bind_pure _).trans hg'

/-- Room for a terminator. -/
theorem Holds.room_iff (h : Holds first spare g l) :
    l.length < g.block.length ↔ l ≠ [] ∧ (0 < spare ∨ ∀ k, l.length ≠ first * 2 ^ k) := by
  by_cases hl : l = []
  · rw [hl, (h.none hl).2]
    simp
  · obtain ⟨hblock, hle, k, hk, hless⟩ := h.some hl
    rw [hblock, and_iff_right hl]
    constructor
    · intro hroom
      by_cases hspare : 0 < spare
      · exact .inl hspare
      · refine .inr fun j hj => ?_
        have hjk : first * 2 ^ j < first * 2 ^ k := by omega
        have hlt : j < k := (Nat.pow_lt_pow_iff_right (by decide)).mp (Nat.lt_of_mul_lt_mul_left hjk)
        have hdouble : first * 2 ^ (j + 1) ≤ first * 2 ^ k :=
          Nat.mul_le_mul_left first (Nat.pow_le_pow_right (by decide) hlt)
        rw [pow_succ, ← Nat.mul_assoc] at hdouble
        omega
    · intro hroom
      obtain hspare | hsize := hroom
      · omega
      · have := hsize k
        omega

end Growing

end Memory
