import GracefulMusic.CommandLine.Buffer
import GracefulMusic.Uchar.Boundaries

/-! The cursor on the characters of the command line (`cmdline.c`).

It walks over the boundaries of the string in both directions, and a move is undone by one
the other way. -/
namespace GracefulMusic.CommandLine

theorem line_eq {c : Cmdline} (h : Good c) : ∃ junk, c.line = cstr c.line ++ 0 :: junk := by
  have hsplit := List.takeWhile_append_dropWhile (p := (· ≠ (0 : UInt8))) (l := c.line)
  obtain ⟨b, junk, hjunk⟩ : ∃ b junk, c.line.dropWhile (· ≠ 0) = b :: junk := by
    refine List.exists_cons_of_ne_nil fun hnil => ?_
    have hlength := congrArg List.length hsplit
    have hsize := h.size
    have hblen := h.blen
    have hroom := h.room
    rw [hnil, List.append_nil] at hlength
    rw [cstr] at hblen
    omega
  have hb := List.head?_dropWhile_not (· ≠ (0 : UInt8)) c.line
  rw [hjunk] at hb
  obtain rfl : b = 0 := by simpa using hb
  refine ⟨junk, ?_⟩
  conv => lhs; rw [← hsplit, hjunk]
  rfl

/-- Where the cursor stands on a string that stays. -/
structure At (c : Cmdline) (s : Text) (n : Nat) : Prop where
  line : ∃ junk, c.line = s ++ 0 :: junk
  blen : c.blen = s.length
  bpos : charIndex s n = some c.bpos
  cpos : c.cpos = n

theorem Good.at {c : Cmdline} (h : Good c) : ∃ n, At c (cstr c.line) n := by
  obtain ⟨n, hcpos, hbpos⟩ := h.cursor
  exact ⟨n, line_eq h, h.blen, hbpos, hcpos⟩

/-- To the right the cursor goes to the next boundary, and stops at the last one. -/
theorem At.moveRight {c : Cmdline} {s : Text} {n : Nat} (h : At c s n) :
    ∃ c', CommandLine.moveRight c = some c' ∧ At c' s (min (n + 1) (uStrlenSafe s)) ∧
      (n < uStrlenSafe s → CommandLine.moveLeft c' = some c) := by
  have hle : n ≤ uStrlenSafe s := (charIndex_isSome s n).mp (h.bpos ▸ rfl)
  by_cases hn : n < uStrlenSafe s
  · obtain ⟨front, g, rest, hb⟩ := exists_between h.bpos hn
    obtain ⟨junk, hline⟩ := h.line
    obtain ⟨u, hread⟩ := hb.uGetChar_line junk
    have hpos := hb.pos
    refine ⟨{c with bpos := c.bpos + g.length, cpos := c.cpos + 1}, ?_, ?_, fun _ => ?_⟩
    · rw [CommandLine.moveRight, if_pos (h.blen ▸ hb.lt), hline, hread]
      rfl
    · rw [Nat.min_eq_left hn]
      refine ⟨h.line, h.blen, hb.next, ?_⟩
      show c.cpos + 1 = ((n + 1 : Nat) : Int)
      rw [h.cpos]
      rfl
    · have hback := hb.uPrevCharPos (0 :: junk)
      rw [← hline] at hback
      rw [CommandLine.moveLeft]
      dsimp only
      rw [if_pos (by omega), hback, Int.add_sub_cancel]
  · obtain rfl : n = uStrlenSafe s := Nat.le_antisymm hle (Nat.le_of_not_lt hn)
    have hend : c.bpos = s.length :=
      Option.some.inj (h.bpos.symm.trans (charIndex_last s))
    refine ⟨c, ?_, ?_, fun hlt => absurd hlt hn⟩
    · rw [CommandLine.moveRight, if_neg (by rw [hend, h.blen]; exact Nat.lt_irrefl _)]
    · rwa [Nat.min_eq_right (Nat.le_succ _)]

/-- To the left it goes to the boundary before, and stops at the first one. -/
theorem At.moveLeft {c : Cmdline} {s : Text} {n : Nat} (h : At c s n) :
    ∃ c', CommandLine.moveLeft c = some c' ∧ At c' s (n - 1) ∧
      (0 < n → CommandLine.moveRight c' = some c) := by
  by_cases hidx : c.bpos > 0
  · obtain ⟨m, front, g, rest, rfl, hm, hbpos, hb⟩ := between_before h.bpos hidx
    obtain ⟨junk, hline⟩ := h.line
    obtain ⟨u, hread⟩ := hb.uGetChar_line junk
    have hback := hb.uPrevCharPos (0 :: junk)
    rw [← hline, ← hbpos] at hback
    rw [← hline, ← hbpos] at hread
    refine ⟨{c with bpos := front.flatten.length, cpos := c.cpos - 1}, ?_, ?_, fun _ => ?_⟩
    · rw [CommandLine.moveLeft, if_pos hidx, hback]
    · refine ⟨h.line, h.blen, hm, ?_⟩
      show c.cpos - 1 = ((m + 1 - 1 : Nat) : Int)
      rw [h.cpos]
      omega
    · rw [CommandLine.moveRight]
      dsimp only
      rw [if_pos (h.blen ▸ hb.lt), hread, Option.map_some, Int.sub_add_cancel]
  · -- only the start of the string is at its first byte
    obtain rfl : n = 0 := by
      by_contra hn
      obtain ⟨m, rfl⟩ := Nat.exists_eq_succ_of_ne_zero hn
      have hm : m < uStrlenSafe s := (charIndex_isSome s (m + 1)).mp (h.bpos ▸ rfl)
      obtain ⟨prev, hprev⟩ := Option.isSome_iff_exists.mp
        ((charIndex_isSome s m).mpr (Nat.le_of_lt hm))
      obtain ⟨front, g, rest, hb⟩ := exists_between hprev hm
      have hnext : some c.bpos = some (prev + g.length) := h.bpos.symm.trans hb.next
      have hpos := hb.pos
      rw [Option.some.injEq] at hnext
      omega
    exact ⟨c, by rw [CommandLine.moveLeft, if_neg hidx], h, nofun⟩

/-- A key of the cursor. -/
inductive Move where
  | left
  | right

def Move.run (c : Cmdline) : Move → Option Cmdline
  | left => CommandLine.moveLeft c
  | right => CommandLine.moveRight c

/-- The number of the boundary behind a move. -/
def Move.walk (s : Text) (n : Nat) : Move → Nat
  | left => n - 1
  | right => min (n + 1) (uStrlenSafe s)

def runMoves (c : Cmdline) (moves : List Move) : Option Cmdline := moves.foldlM Move.run c

theorem At.runMoves {c : Cmdline} {s : Text} {n : Nat} (h : At c s n) (moves : List Move) :
    ∃ c', CommandLine.runMoves c moves = some c' ∧ At c' s (moves.foldl (Move.walk s) n) := by
  induction moves generalizing c n with
  | nil => exact ⟨c, rfl, h⟩
  | cons move moves ih =>
    have hmove : ∃ c', Move.run c move = some c' ∧ At c' s (Move.walk s n move) := by
      cases move with
      | left =>
        obtain ⟨c', hleft, hat, -⟩ := h.moveLeft
        exact ⟨c', hleft, hat⟩
      | right =>
        obtain ⟨c', hright, hat, -⟩ := h.moveRight
        exact ⟨c', hright, hat⟩
    obtain ⟨c', hrun, hat⟩ := hmove
    obtain ⟨c'', hruns, hend⟩ := ih hat
    refine ⟨c'', ?_, hend⟩
    rw [CommandLine.runMoves, List.foldlM_cons, hrun]
    exact hruns

/-! ### Both ways -/

/-- From a boundary of a string that is not the first, back leads to the one before, from
where on leads there again; there are as many boundaries behind the first as characters are
counted; and moves of the command line walk over them, each undone by the other. -/
theorem boundaries_agree (s : Text) :
    (∀ n idx, charIndex s n = some idx → 0 < idx → ∃ m u, n = m + 1 ∧
      charIndex s m = some (uPrevCharPos s idx) ∧
      uGetChar s (uPrevCharPos s idx) = some (u, idx)) ∧
    (∀ n idx, charIndex s n = some idx → n < uStrlenSafe s → ∃ u next,
      uGetChar s idx = some (u, next) ∧ charIndex s (n + 1) = some next ∧
      uPrevCharPos s next = idx) ∧
    ((∀ n, (charIndex s n).isSome ↔ n ≤ uStrlenSafe s) ∧
      charIndex s (uStrlenSafe s) = some s.length) ∧
    ∀ c : Cmdline, Good c → cstr c.line = s → ∀ moves, ∃ c', ∃ n : Nat, runMoves c moves = some c' ∧
      c'.cpos = n ∧ charIndex s n = some c'.bpos ∧
      (n < uStrlenSafe s → ∃ r, moveRight c' = some r ∧ charIndex s (n + 1) = some r.bpos ∧
        moveLeft r = some c') ∧
      (0 < n → ∃ l, moveLeft c' = some l ∧ charIndex s (n - 1) = some l.bpos ∧
        moveRight l = some c') := by
  refine ⟨fun n idx hidx hpos => ?_, fun n idx hidx hn => ?_,
    ⟨charIndex_isSome s, charIndex_last s⟩, fun c hgood hs moves => ?_⟩
  · obtain ⟨m, front, g, rest, rfl, hm, rfl, hb⟩ := between_before hidx hpos
    obtain ⟨u, hread⟩ := hb.uGetChar
    have hback := hb.uPrevCharPos []
    rw [List.append_nil] at hback
    rw [hback]
    exact ⟨m, u, rfl, hm, hread⟩
  · obtain ⟨front, g, rest, hb⟩ := exists_between hidx hn
    obtain ⟨u, hread⟩ := hb.uGetChar
    have hback := hb.uPrevCharPos []
    rw [List.append_nil] at hback
    exact ⟨u, _, hread, hb.next, hback⟩
  · obtain ⟨n₀, hstart⟩ := hgood.at
    rw [hs] at hstart
    obtain ⟨c', hruns, hat⟩ := hstart.runMoves moves
    refine ⟨c', moves.foldl (Move.walk s) n₀, hruns, hat.cpos, hat.bpos, fun hn => ?_,
      fun hn => ?_⟩
    · obtain ⟨r, hright, hr, hundo⟩ := hat.moveRight
      have hbpos := hr.bpos
      rw [Nat.min_eq_left hn] at hbpos
      exact ⟨r, hright, hbpos, hundo hn⟩
    · obtain ⟨l, hleft, hl, hundo⟩ := hat.moveLeft
      exact ⟨l, hleft, hl.bpos, hundo hn⟩

end GracefulMusic.CommandLine
