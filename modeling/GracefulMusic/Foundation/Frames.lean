import Mathlib.Algebra.BigOperators.Group.List.Basic
import Mathlib.Algebra.Order.Ring.Int
import Mathlib.Data.List.DropRight
import Mathlib.Data.List.Infix
import Mathlib.Data.List.Induction
import Mathlib.Data.List.Nodup
import Mathlib.Data.List.TakeWhile

/-! Rows of symbols cut at a delimiter.

A stream that arrives in pieces is cut into the same frames as one that arrives at once,
as long as what is unfinished at the end of a piece is put in front of the next one
(`frames_append`). -/
namespace Frames
variable {α : Type*} [DecidableEq α] (delim : α)

/-- The finished frames, the first of which has begun already. -/
def frames : List α → List α → List (List α)
  | _, [] => []
  | cur, b :: rest => if b = delim then cur :: frames [] rest else frames (cur ++ [b]) rest

/-- What is left behind the last delimiter. -/
def unfinished : List α → List α → List α
  | cur, [] => cur
  | cur, b :: rest => if b = delim then unfinished [] rest else unfinished (cur ++ [b]) rest

variable {delim}

theorem frames_append (cur s t : List α) :
    frames delim cur (s ++ t) = frames delim cur s ++ frames delim (unfinished delim cur s) t := by
  induction s generalizing cur with
  | nil => rfl
  | cons b s ih =>
    rw [List.cons_append, frames, frames, unfinished]
    split
    · rw [ih, List.cons_append]
    · exact ih _

theorem unfinished_append (cur s t : List α) :
    unfinished delim cur (s ++ t) = unfinished delim (unfinished delim cur s) t := by
  induction s generalizing cur with
  | nil => rfl
  | cons b s ih =>
    rw [List.cons_append, unfinished, unfinished]
    split
    · exact ih _
    · exact ih _

theorem frames_of_notMem {s : List α} (h : delim ∉ s) (cur : List α) :
    frames delim cur s = [] ∧ unfinished delim cur s = cur ++ s := by
  induction s generalizing cur with
  | nil => exact ⟨rfl, (List.append_nil _).symm⟩
  | cons b s ih =>
    rw [List.mem_cons, not_or] at h
    obtain ⟨hframes, hrest⟩ := ih h.2 (cur ++ [b])
    rw [frames, unfinished, if_neg (Ne.symm h.1), if_neg (Ne.symm h.1)]
    exact ⟨hframes, by rw [hrest, List.append_assoc, List.singleton_append]⟩

/-- Up to the first delimiter there is one frame. -/
theorem frames_of_mem {s : List α} (h : delim ∈ s) : ∃ row rest, ∀ cur,
    frames delim cur s = (cur ++ row) :: frames delim [] rest ∧
      unfinished delim cur s = unfinished delim [] rest := by
  induction s with
  | nil => cases h
  | cons b s ih =>
    by_cases hb : b = delim
    · apply Exists.intro []
      apply Exists.intro s
      intro cur
      rw [frames, unfinished, if_pos hb, if_pos hb, List.append_nil]
      exact ⟨rfl, rfl⟩
    · obtain ⟨row, rest, hframes⟩ := ih ((List.mem_cons.mp h).resolve_left (Ne.symm hb))
      apply Exists.intro (b :: row)
      apply Exists.intro rest
      intro cur
      obtain ⟨hfirst, hleft⟩ := hframes (cur ++ [b])
      rw [frames, unfinished, if_neg hb, if_neg hb]
      exact ⟨by rw [hfirst, List.append_assoc, List.singleton_append], hleft⟩

/-- The frames with their delimiters and what is left are the whole stream. -/
theorem flatMap_frames (cur s : List α) :
    (frames delim cur s).flatMap (· ++ [delim]) ++ unfinished delim cur s = cur ++ s := by
  induction s generalizing cur with
  | nil => simp [frames, unfinished]
  | cons b s ih =>
    rw [frames, unfinished]
    split
    · rename_i hb
      simp [ih, hb]
    · simp [ih]

theorem notMem_frames {cur s row : List α} (h : delim ∉ cur) (hrow : row ∈ frames delim cur s) :
    delim ∉ row := by
  induction s generalizing cur with
  | nil => cases hrow
  | cons b s ih =>
    rw [frames] at hrow
    split at hrow
    · rcases List.mem_cons.mp hrow with rfl | hrow
      · exact h
      · exact ih List.not_mem_nil hrow
    · rename_i hb
      refine ih ?_ hrow
      rw [List.mem_append, List.mem_singleton, not_or]
      exact ⟨h, Ne.symm hb⟩

/-- A frame and its delimiter lie in the stream. -/
theorem length_lt_of_mem_frames {cur s row : List α} (h : row ∈ frames delim cur s) :
    row.length < cur.length + s.length := by
  induction s generalizing cur with
  | nil => cases h
  | cons b s ih =>
    rw [frames] at h
    rw [List.length_cons]
    split at h
    · rcases List.mem_cons.mp h with rfl | h
      · omega
      · have := ih h
        rw [List.length_nil] at this
        omega
    · have := ih h
      rw [List.length_append, List.length_singleton] at this
      omega

theorem length_unfinished_le (cur s : List α) :
    (unfinished delim cur s).length ≤ cur.length + s.length := by
  induction s generalizing cur with
  | nil => exact Nat.le_refl _
  | cons b s ih =>
    rw [unfinished, List.length_cons]
    split
    · have := ih []
      rw [List.length_nil] at this
      omega
    · have := ih (cur ++ [b])
      rw [List.length_append, List.length_singleton] at this
      omega

theorem notMem_unfinished {cur : List α} (h : delim ∉ cur) (s : List α) :
    delim ∉ unfinished delim cur s := by
  induction s generalizing cur with
  | nil => exact h
  | cons b s ih =>
    rw [unfinished]
    split
    · exact ih (List.not_mem_nil)
    · rename_i hb
      apply ih
      rw [List.mem_append, List.mem_singleton, not_or]
      exact ⟨h, Ne.symm hb⟩

end Frames
