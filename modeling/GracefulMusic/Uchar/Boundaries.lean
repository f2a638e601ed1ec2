import GracefulMusic.Uchar.Chars

/-! The boundaries of a string (`uchar.c`): what `u_get_char` visits from its start on. Going
back is the inverse of going on, whatever the bytes are. -/
namespace GracefulMusic

theorem charIndex_take {l : List Text} (hl : Decoded l) {n : Nat} (h : n ≤ l.length) :
    charIndex l.flatten n = some (l.take n).flatten.length := by
  have hsplit := List.take_append_drop n l
  have hparts : Decoded (l.take n ++ l.drop n) := hsplit.symm ▸ hl
  have hindex := charIndex_flatten hparts
  rwa [hsplit, List.length_take_of_le h] at hindex

/-- Behind the last character there is no boundary. -/
theorem charIndex_none {l : List Text} (hl : Decoded l) {n : Nat} (h : l.length < n) :
    charIndex l.flatten n = none := by
  obtain ⟨k, rfl⟩ := Nat.exists_eq_add_of_lt h
  induction k with
  | zero =>
    rw [Nat.add_zero, charIndex, charIndex_take hl (Nat.le_refl _), List.take_length]
    exact if_neg (Nat.lt_irrefl _)
  | succ k ih =>
    rw [charIndex, show l.length + (k + 1) = l.length + k + 1 by omega, ih (by omega)]
    rfl

/-- The boundaries of a string are counted by its characters. -/
theorem charIndex_isSome (s : Text) (n : Nat) :
    (charIndex s n).isSome ↔ n ≤ uStrlenSafe s := by
  obtain ⟨l, hl, rfl⟩ := exists_decoded s
  rw [uStrlenSafe_flatten hl]
  by_cases hn : n ≤ l.length
  · rw [charIndex_take hl hn]
    exact iff_of_true rfl hn
  · rw [charIndex_none hl (Nat.lt_of_not_le hn)]
    exact iff_of_false nofun hn

theorem charIndex_last (s : Text) : charIndex s (uStrlenSafe s) = some s.length := by
  obtain ⟨l, hl, rfl⟩ := exists_decoded s
  rw [uStrlenSafe_flatten hl, charIndex_take hl (Nat.le_refl _), List.take_length]

/-- The character between two boundaries. -/
structure Between (s : Text) (n idx : Nat) (front : List Text) (g rest : Text) : Prop where
  bytes : s = front.flatten ++ (g ++ rest)
  starts : front.flatten.length = idx
  decoded : Decoded (front ++ [g])
  char : IsChar g rest
  next : charIndex s (n + 1) = some (idx + g.length)

theorem exists_between {s : Text} {n idx : Nat} (h : charIndex s n = some idx)
    (hn : n < uStrlenSafe s) : ∃ front g rest, Between s n idx front g rest := by
  obtain ⟨l, hl, rfl⟩ := exists_decoded s
  rw [uStrlenSafe_flatten hl] at hn
  have htake : l.take (n + 1) = l.take n ++ [l[n]] := List.take_succ_eq_append_getElem hn
  have hsplit : (l.take n ++ [l[n]]) ++ l.drop (n + 1) = l := by
    rw [← htake, List.take_append_drop]
  have hdecoded : Decoded ((l.take n ++ [l[n]]) ++ l.drop (n + 1)) := by rwa [hsplit]
  have hrest : Decoded (l.take n ++ l[n] :: l.drop (n + 1)) := by
    rwa [List.append_assoc] at hdecoded
  rw [charIndex_take hl (Nat.le_of_lt hn), Option.some.injEq] at h
  refine ⟨l.take n, l[n], (l.drop (n + 1)).flatten, ?_, h, hdecoded.of_append.1,
    hrest.of_append.2.1, ?_⟩
  · calc l.flatten = ((l.take n ++ [l[n]]) ++ l.drop (n + 1)).flatten := by rw [hsplit]
      _ = (l.take n).flatten ++ (l[n] ++ (l.drop (n + 1)).flatten) := by
        rw [List.flatten_append, List.flatten_append, List.flatten_singleton, List.append_assoc]
  · rw [charIndex_take hl hn, htake, List.flatten_append, List.flatten_singleton,
      List.length_append, h]

namespace Between
variable {s : Text} {n idx : Nat} {front : List Text} {g rest : Text}

theorem pos (h : Between s n idx front g rest) : 0 < g.length := List.length_pos_iff.mpr h.char.1

theorem lt (h : Between s n idx front g rest) : idx < s.length := by
  have hpos := h.pos
  have hstarts := h.starts
  rw [h.bytes, List.length_append, List.length_append]
  omega

/-- On from the first boundary to the second one. -/
theorem uGetChar (h : Between s n idx front g rest) :
    ∃ u, GracefulMusic.uGetChar s idx = some (u, idx + g.length) := by
  have hread := uGetChar_char h.char front.flatten
  rwa [h.starts, ← h.bytes] at hread

/-- The same in a buffer. -/
theorem uGetChar_line (h : Between s n idx front g rest) (junk : Text) :
    ∃ u, GracefulMusic.uGetChar (s ++ 0 :: junk) idx = some (u, idx + g.length) := by
  have hread := uGetChar_char (h.char.before_end junk) front.flatten
  rwa [← List.append_assoc g, ← List.append_assoc, ← h.bytes, h.starts] at hread

/-- And back. -/
theorem uPrevCharPos (h : Between s n idx front g rest) (more : Text) :
    GracefulMusic.uPrevCharPos (s ++ more) (idx + g.length) = idx := by
  have hback := uPrevCharPos_char h.decoded (rest ++ more)
  have hlength : (front ++ [g]).flatten.length = idx + g.length := by
    rw [List.flatten_append, List.flatten_singleton, List.length_append, h.starts]
  have hline : (front ++ [g]).flatten ++ (rest ++ more) = s ++ more := by
    rw [h.bytes, List.flatten_append, List.flatten_singleton]
    simp only [List.append_assoc]
  rwa [hline, hlength, h.starts] at hback

end Between

/-- Every boundary but the first lies behind a character. -/
theorem between_before {s : Text} {n idx : Nat} (h : charIndex s n = some idx) (hidx : 0 < idx) :
    ∃ m front g rest, n = m + 1 ∧ charIndex s m = some front.flatten.length ∧
      idx = front.flatten.length + g.length ∧
      Between s m front.flatten.length front g rest := by
  cases n with
  | zero =>
    cases h
    exact absurd hidx (Nat.lt_irrefl 0)
  | succ m =>
    have hm : m < uStrlenSafe s := (charIndex_isSome s (m + 1)).mp (h ▸ rfl)
    obtain ⟨prev, hprev⟩ := Option.isSome_iff_exists.mp
      ((charIndex_isSome s m).mpr (Nat.le_of_lt hm))
    obtain ⟨front, g, rest, hb⟩ := exists_between hprev hm
    have hnext : some idx = some (prev + g.length) := h.symm.trans hb.next
    obtain rfl := hb.starts
    exact ⟨m, front, g, rest, rfl, hprev, Option.some.inj hnext, hb⟩

end GracefulMusic
