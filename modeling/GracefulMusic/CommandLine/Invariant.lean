import GracefulMusic.CommandLine.Buffer

/-! The lengths and positions of the command line.

The line is a row of characters with the cursor between two of them. Moving the cursor
leaves the row alone; an edit takes characters out of it or puts one in, and the row is
split as before as long as the bytes that meet do not join. -/
namespace GracefulMusic.CommandLine

/-! ### Writing characters -/

theorem lenTab_tail (c : UInt8) : lenTab (c &&& 63 ||| 128) = 0 :=
  forall_byte (P := fun c => lenTab (c &&& 63 ||| 128) = 0) (by decide +kernel) c

theorem toUInt8_le {x : UInt32} {n : Nat} (hn : n < 256) (h : x.toNat ≤ n) :
    x.toUInt8 ≤ UInt8.ofNat n := by
  rw [UInt8.le_iff_toNat_le, UInt8.toNat_ofNat', UInt32.toNat_toUInt8]
  omega

theorem shift_le {u : Uchar} {k bound : Nat} (hk : k < 32) (h : u.toNat ≤ bound) :
    (u >>> UInt32.ofNat k).toNat ≤ bound >>> k := by
  rw [UInt32.toNat_shiftRight, UInt32.toNat_ofNat', Nat.mod_eq_of_lt (by omega : k < 2 ^ 32),
    Nat.mod_eq_of_lt hk, Nat.shiftRight_eq_div_pow, Nat.shiftRight_eq_div_pow]
  exact Nat.div_le_div_right h

/-- The first byte of a sequence asks for as many bytes as are written. -/
theorem lenTab_first2 {u : Uchar} (h : u ≤ 0x7ff) : lenTab (u >>> 6 ||| 0xc0).toUInt8 = 2 := by
  have hle := toUInt8_le (by decide) (shift_le (k := 6) (by decide) (UInt32.le_iff_toNat_le.mp h))
  rw [UInt32.toUInt8_or]
  exact forall_byte (P := fun c => c ≤ 31 → lenTab (c ||| 0xc0) = 2) (by decide +kernel) _ hle

theorem lenTab_first3 {u : Uchar} (h : u ≤ 0xffff) : lenTab (u >>> 12 ||| 0xe0).toUInt8 = 3 := by
  have hle := toUInt8_le (by decide) (shift_le (k := 12) (by decide) (UInt32.le_iff_toNat_le.mp h))
  rw [UInt32.toUInt8_or]
  exact forall_byte (P := fun c => c ≤ 15 → lenTab (c ||| 0xe0) = 3) (by decide +kernel) _ hle

theorem lenTab_first4 {u : Uchar} (h : u ≤ 0x10ffff) : lenTab (u >>> 18 ||| 0xf0).toUInt8 = 4 := by
  have hle := toUInt8_le (by decide) (shift_le (k := 18) (by decide) (UInt32.le_iff_toNat_le.mp h))
  rw [UInt32.toUInt8_or]
  exact forall_byte (P := fun c => c ≤ 4 → lenTab (c ||| 0xf0) = 4) (by decide +kernel) _ hle

/-- What is written is one character. -/
theorem uSetCharRaw_isChar (u : Uchar) : IsChar (uSetCharRaw u) [] := by
  have hsingle : ∀ c : UInt8, IsChar [c] [] := by
    intro c
    refine isChar_single.mpr fun ⟨hlong, hcont⟩ => ?_
    simp only [continues, List.length_nil, Bool.and_eq_true, decide_eq_true_eq] at hcont
    omega
  unfold uSetCharRaw
  split
  · exact hsingle _
  split
  · rename_i h
    exact isChar_multi (by rw [lenTab_first2 h]; decide) (by rw [lenTab_first2 h]; rfl)
      (by simp [lenTab_tail]) []
  split
  · rename_i h
    exact isChar_multi (by rw [lenTab_first3 h]; decide) (by rw [lenTab_first3 h]; rfl)
      (by simp [lenTab_tail]) []
  split
  · rename_i h
    exact isChar_multi (by rw [lenTab_first4 h]; decide) (by rw [lenTab_first4 h]; rfl)
      (by simp [lenTab_tail]) []
  · exact hsingle _

/-! ### Memory -/

theorem cstr_terminated {text : Text} (h : 0 ∉ text) (junk : Text) :
    cstr (text ++ 0 :: junk) = text := by
  rw [cstr, List.takeWhile_append_of_pos]
  · simp
  · intro c hc
    simp only [ne_eq, decide_not, Bool.not_eq_true', decide_eq_false_iff_not]
    intro heq
    subst heq
    exact h hc

theorem grow_spec (len fuel size : Nat) (hsize : 0 < size) (hfuel : len < size + fuel) :
    size ≤ grow len fuel size ∧ len < grow len fuel size := by
  induction fuel generalizing size with
  | zero => exact ⟨Nat.le_refl _, hfuel⟩
  | succ fuel ih =>
    rw [grow]
    split
    · obtain ⟨hle, hlt⟩ := ih (size * 2) (by omega) (by omega)
      exact ⟨by omega, hlt⟩
    · exact ⟨Nat.le_refl _, by omega⟩

/-- A stretch is taken out by moving the rest of the line over it. -/
theorem memmove_cut (a m b junk : Text) :
    ∃ junk', memmove (a ++ (m ++ (b ++ 0 :: junk))) a.length (a.length + m.length) (b.length + 1) =
        some (a ++ (b ++ 0 :: junk')) ∧
      (a ++ (b ++ 0 :: junk')).length = (a ++ (m ++ (b ++ 0 :: junk))).length := by
  refine ⟨(a ++ (m ++ (b ++ 0 :: junk))).drop (a.length + (b.length + 1)), ?_, ?_⟩
  · rw [memmove, if_pos (by simp only [List.length_append, List.length_cons]; omega), List.take_left,
      ← List.drop_drop, List.drop_left, List.drop_left]
    congr 2
    rw [show b ++ 0 :: junk = (b ++ [0]) ++ junk by simp,
      List.take_left' (by rw [List.length_append]; rfl)]
    simp
  · simp only [List.length_append, List.length_cons, List.length_drop]
    omega

/-- A gap is opened by moving the rest of the line behind it, and filled. -/
theorem memmove_write (a b junk data : Text) (h : data.length ≤ junk.length) :
    ∃ line junk', memmove (a ++ (b ++ 0 :: junk)) (a.length + data.length) a.length (b.length + 1) =
        some line ∧ write line a.length data = some (a ++ (data ++ (b ++ 0 :: junk'))) ∧
      (a ++ (data ++ (b ++ 0 :: junk'))).length = (a ++ (b ++ 0 :: junk)).length := by
  have htail : ((a ++ (b ++ 0 :: junk)).drop a.length).take (b.length + 1) = b ++ [0] := by
    rw [List.drop_left, show b ++ 0 :: junk = (b ++ [0]) ++ junk by simp,
      List.take_left' (by rw [List.length_append]; rfl)]
  have hlen : ((a ++ (b ++ 0 :: junk)).take (a.length + data.length)).length =
      a.length + data.length := by
    rw [List.length_take]
    simp only [List.length_append, List.length_cons]
    omega
  refine ⟨_, (a ++ (b ++ 0 :: junk)).drop (a.length + data.length + (b.length + 1)),
    if_pos (by simp only [List.length_append, List.length_cons]; omega), ?_, ?_⟩
  · rw [htail, write, if_pos (by simp only [List.length_append, hlen]; omega),
      List.drop_left' hlen, List.take_append_of_le_length (by omega), List.take_take,
      Nat.min_eq_left (by omega), List.take_left]
    simp
  · simp only [List.length_append, List.length_cons, List.length_drop]
    omega

/-! ### The row of characters -/

/-- The characters before and behind the cursor, as two rows. -/
structure Parts (c : Cmdline) (front back : List Text) : Prop where
  line : ∃ junk, c.line = front.flatten ++ (back.flatten ++ 0 :: junk)
  size : c.line.length = c.size
  initial : 128 ≤ c.size
  string : 0 ∉ (front ++ back).flatten
  before : Decoded front
  behind : Decoded back
  bpos : c.bpos = front.flatten.length
  cpos : c.cpos = front.length
  blen : c.blen = front.flatten.length + back.flatten.length
  clen : c.clen = front.length + back.length

/-- The two rows are one. -/
structure Shows (c : Cmdline) (front back : List Text) : Prop extends Parts c front back where
  decoded : Decoded (front ++ back)

namespace Parts
variable {c : Cmdline} {front back : List Text}

theorem take_bpos (h : Parts c front back) : c.line.take c.bpos = front.flatten := by
  obtain ⟨junk, hline⟩ := h.line
  rw [hline, h.bpos, List.take_left]

/-- The bytes from a position behind the cursor. -/
theorem from_behind (h : Parts c front back) {m b : List Text} (hback : back = m ++ b) :
    c.from (c.bpos + m.flatten.length) = b.flatten := by
  obtain ⟨junk, hline⟩ := h.line
  have htake : c.line.take c.blen = front.flatten ++ (m.flatten ++ b.flatten) := by
    rw [hline, h.blen, List.take_length_add_append, List.take_left, hback, List.flatten_append]
  rw [Cmdline.from, htake, h.bpos, ← List.drop_drop, List.drop_left, List.drop_left]

theorem from_cursor (h : Parts c front back) : c.from c.bpos = back.flatten :=
  h.from_behind (m := []) rfl

/-- Characters around the cursor are taken out. -/
theorem cut (h : Parts c front back) {f m n b : List Text} (hfront : front = f ++ m)
    (hback : back = n ++ b) :
    ∃ line, memmove c.line f.flatten.length (c.bpos + n.flatten.length) (b.flatten.length + 1) =
        some line ∧
      ∀ (blen : Nat) (clen : Int) (bpos : Nat) (cpos : Int),
        blen = f.flatten.length + b.flatten.length → clen = f.length + b.length →
        bpos = f.flatten.length → cpos = f.length →
        Parts ⟨line, c.size, blen, clen, bpos, cpos⟩ f b := by
  obtain ⟨junk, hline⟩ := h.line
  obtain ⟨junk', hmove, hlen⟩ :=
    memmove_cut f.flatten (m.flatten ++ n.flatten) b.flatten junk
  have hbytes : c.line = f.flatten ++ ((m.flatten ++ n.flatten) ++ (b.flatten ++ 0 :: junk)) := by
    rw [hline, hfront, hback]
    simp
  have hpos : c.bpos + n.flatten.length =
      f.flatten.length + (m.flatten ++ n.flatten).length := by
    rw [h.bpos, hfront]
    simp [Nat.add_assoc]
  have hbefore : Decoded (f ++ m) := hfront ▸ h.before
  have hbehind : Decoded (n ++ b) := hback ▸ h.behind
  refine ⟨_, by rw [hbytes, hpos, hmove], fun blen clen bpos cpos hblen hclen hbpos hcpos =>
    ⟨⟨junk', rfl⟩, ?_, h.initial, ?_, hbefore.of_append.1, hbehind.of_append.2, hbpos, hcpos,
      hblen, hclen⟩⟩
  · show (f.flatten ++ (b.flatten ++ 0 :: junk')).length = c.size
    rw [hlen, ← hbytes, h.size]
  · have := h.string
    rw [hfront, hback] at this
    simp only [List.flatten_append, List.mem_append, not_or] at this ⊢
    exact ⟨this.1.1, this.2.2⟩

/-- The buffer grows. -/
theorem grown (h : Parts c front back) {size : Nat} (hsize : c.size ≤ size) :
    Parts {c with size, line := xrenew c.line size} front back := by
  obtain ⟨junk, hline⟩ := h.line
  refine ⟨⟨junk ++ List.replicate (size - c.line.length) 0, ?_⟩, ?_,
    Nat.le_trans h.initial hsize, h.string, h.before, h.behind, h.bpos, h.cpos, h.blen, h.clen⟩
  · show xrenew c.line size = _
    rw [xrenew]
    nth_rewrite 1 [hline]
    simp
  · show (xrenew c.line size).length = size
    rw [xrenew, List.length_append, List.length_replicate, h.size]
    omega

/-- A character is put at the cursor where there is room for it. -/
theorem put (h : Parts c front back) {g : Text} (hg : IsChar g []) (hzero : 0 ∉ g)
    (hjoin : ¬ Joins front.flatten g) (hroom : c.blen + g.length < c.size) :
    ∃ moved line, memmove c.line (c.bpos + g.length) c.bpos (c.blen - c.bpos + 1) = some moved ∧
      write moved c.bpos g = some line ∧
      Parts ⟨line, c.size, c.blen + g.length, c.clen + 1, c.bpos + g.length, c.cpos + 1⟩
        (front ++ [g]) back := by
  obtain ⟨junk, hline⟩ := h.line
  have hbpos := h.bpos
  have hblen := h.blen
  have hclen := h.clen
  have hcpos := h.cpos
  have hsize := h.size
  rw [hline] at hsize
  simp only [List.length_append, List.length_cons] at hsize
  obtain ⟨moved, junk', hmove, hwrite, hlen⟩ :=
    memmove_write front.flatten back.flatten junk g (by omega)
  have hone : (front ++ [g]).flatten.length = front.flatten.length + g.length := by simp
  refine ⟨moved, _, ?_, hbpos ▸ hwrite, ⟨junk', ?_⟩, ?_, h.initial, ?_, ?_, h.behind, ?_, ?_, ?_, ?_⟩
  · rw [hline, hbpos, show c.blen - front.flatten.length + 1 = back.flatten.length + 1 by omega]
    exact hmove
  · simp
  · exact hlen.trans (hline ▸ h.size)
  · have := h.string
    simp only [List.flatten_append, List.mem_append, not_or, List.flatten_singleton] at this ⊢
    exact ⟨⟨this.1, hzero⟩, this.2⟩
  · exact h.before.append (show Decoded [g] from ⟨hg, trivial⟩) (by rwa [List.flatten_singleton])
  · show c.bpos + g.length = _
    omega
  · show c.cpos + 1 = _
    simp only [List.length_append, List.length_singleton]
    omega
  · show c.blen + g.length = _
    omega
  · show c.clen + 1 = _
    simp only [List.length_append, List.length_singleton]
    omega

theorem uGetChar_line {g : Text} {b : List Text} (h : Parts c front (g :: b)) :
    ∃ u, uGetChar c.line c.bpos = some (u, c.bpos + g.length) := by
  obtain ⟨junk, hline⟩ := h.line
  rw [hline, h.bpos, List.flatten_cons, List.append_assoc]
  exact uGetChar_char (h.behind.1.before_end junk) front.flatten

/-- Back over the character before the cursor. -/
theorem uPrevCharPos_line {f : List Text} {g : Text} (h : Parts c (f ++ [g]) back) :
    uPrevCharPos c.line c.bpos = f.flatten.length := by
  obtain ⟨junk, hline⟩ := h.line
  rw [hline, h.bpos]
  exact uPrevCharPos_char h.before _

theorem backspace (h : Parts c front back) :
    ∃ c', CommandLine.backspace c = some c' ∧ Parts c' front.dropLast back := by
  rcases List.eq_nil_or_concat front with rfl | ⟨f, g, rfl⟩
  · have hzero : c.bpos = 0 := h.bpos
    exact ⟨c, by rw [CommandLine.backspace, if_pos hzero], h⟩
  · rw [List.concat_eq_append] at h ⊢
    have hpos := List.length_pos_iff.mpr h.before.of_append.2.1.1
    have hlen : (f ++ [g]).flatten.length = f.flatten.length + g.length := by simp
    obtain ⟨line, hmove, hparts⟩ := h.cut (n := []) rfl rfl
    rw [List.flatten_nil, List.length_nil, Nat.add_zero] at hmove
    have hbpos := h.bpos
    have hblen := h.blen
    have hclen := h.clen
    have hcpos := h.cpos
    simp only [List.length_append, List.length_singleton] at hclen hcpos
    have hstep : CommandLine.backspace c = some {c with
        line
        bpos := c.bpos - (c.bpos - f.flatten.length)
        cpos := c.cpos - 1
        blen := c.blen - (c.bpos - f.flatten.length)
        clen := c.clen - 1} := by
      rw [CommandLine.backspace, if_neg (by omega), h.uPrevCharPos_line]
      simp only [Option.bind_eq_bind]
      rw [show c.blen - c.bpos + 1 = back.flatten.length + 1 by omega, hmove, Option.bind_some]
    rw [List.dropLast_concat]
    exact ⟨_, hstep, hparts _ _ _ _ (by omega) (by omega) (by omega) (by omega)⟩

theorem eq_nil_of_bpos (h : Parts c front back) (hzero : c.bpos = 0) : front = [] := by
  cases front with
  | nil => rfl
  | cons g front =>
    have hpos := List.length_pos_iff.mpr h.before.1.1
    have hbpos := h.bpos
    rw [List.flatten_cons, List.length_append] at hbpos
    omega

theorem backspaceLoop {fuel : Nat} (h : Parts c front back) (hfuel : c.bpos ≤ fuel) :
    ∃ c', CommandLine.backspaceLoop fuel c = some c' ∧ Parts c' [] back := by
  induction fuel generalizing c front with
  | zero =>
    obtain rfl := h.eq_nil_of_bpos (by omega)
    exact ⟨c, rfl, h⟩
  | succ fuel ih =>
    rw [CommandLine.backspaceLoop]
    split
    · rename_i hzero
      obtain rfl := h.eq_nil_of_bpos hzero
      exact ⟨c, rfl, h⟩
    · rename_i hbpos
      obtain ⟨t, ht, hparts⟩ := h.backspace
      have hlt : t.bpos < c.bpos := by
        rw [hparts.bpos, h.bpos]
        rcases List.eq_nil_or_concat front with rfl | ⟨f, g, rfl⟩
        · exact absurd h.bpos hbpos
        · rw [List.concat_eq_append] at h ⊢
          have hpos := List.length_pos_iff.mpr h.before.of_append.2.1.1
          rw [List.dropLast_concat, List.flatten_append, List.length_append,
            List.flatten_singleton]
          omega
      rw [ht, Option.bind_some]
      exact ih hparts (by omega)

end Parts

namespace Shows
variable {c : Cmdline} {front back : List Text}

theorem cstr_line (h : Shows c front back) : cstr c.line = (front ++ back).flatten := by
  obtain ⟨junk, hline⟩ := h.line
  rw [hline, ← List.append_assoc, ← List.flatten_append]
  exact cstr_terminated h.string junk

theorem good (h : Shows c front back) : Good c := by
  obtain ⟨junk, hline⟩ := h.line
  have hflat : (front ++ back).flatten.length = c.blen := by simp [h.blen]
  refine ⟨h.size, by rw [h.cstr_line, hflat], ?_,
    ⟨front.length, h.cpos, by rw [h.cstr_line, h.bpos, charIndex_flatten h.decoded]⟩,
    by rw [h.cstr_line, uStrlenSafe_flatten h.decoded, h.clen, List.length_append]; rfl⟩
  have hsize := h.size
  rw [hline] at hsize
  simp only [List.length_append, List.length_cons] at hsize
  have hblen := h.blen
  omega

theorem init : Shows cmdlineInit [] [] :=
  { line := ⟨List.replicate 127 0, rfl⟩, size := rfl, initial := Nat.le_refl _, string := by simp,
    before := trivial, behind := trivial, bpos := rfl, cpos := rfl, blen := rfl, clen := rfl,
    decoded := trivial }

/-- The cursor goes to another place in the same row. -/
theorem moved (h : Shows c front back) {front' back' : List Text}
    (hrow : front' ++ back' = front ++ back) :
    Shows {c with bpos := front'.flatten.length, cpos := front'.length} front' back' := by
  obtain ⟨junk, hline⟩ := h.line
  have hflat := congrArg List.flatten hrow
  have hbytes := congrArg List.length hflat
  have hchars := congrArg List.length hrow
  have hblen := h.blen
  have hclen := h.clen
  have hdecoded : Decoded (front' ++ back') := hrow ▸ h.decoded
  simp only [List.flatten_append, List.length_append] at hflat hbytes hchars
  refine ⟨⟨⟨junk, ?_⟩, h.size, h.initial, hrow ▸ h.string, hdecoded.of_append.1,
    hdecoded.of_append.2, rfl, rfl, ?_, ?_⟩, hdecoded⟩
  · show c.line = _
    rw [hline, ← List.append_assoc, ← List.append_assoc, hflat]
  · show c.blen = _
    omega
  · show c.clen = _
    omega

theorem backspace (h : Shows c front back)
    (hsafe : c.bpos ≠ 0 → c.Removable (uPrevCharPos c.line c.bpos) c.bpos) :
    ∃ c', CommandLine.backspace c = some c' ∧ Shows c' front.dropLast back := by
  obtain ⟨c', hstep, hparts⟩ := h.toParts.backspace
  refine ⟨c', hstep, hparts, ?_⟩
  rcases List.eq_nil_or_concat front with rfl | ⟨f, g, rfl⟩
  · exact h.decoded
  · rw [List.concat_eq_append] at h hparts ⊢
    rw [List.dropLast_concat] at hparts ⊢
    obtain ⟨junk, hline⟩ := h.line
    have hpos := List.length_pos_iff.mpr h.before.of_append.2.1.1
    have hbpos := h.bpos
    rw [List.flatten_append, List.length_append, List.flatten_singleton] at hbpos
    have hjoin := hsafe (by omega)
    rw [Cmdline.Removable, h.uPrevCharPos_line, h.from_cursor, hline, List.flatten_append,
      List.append_assoc, List.take_left] at hjoin
    exact hparts.before.append hparts.behind hjoin

theorem backspaceToBol (h : Shows c front back) :
    ∃ c', CommandLine.backspaceToBol c = some c' ∧ Shows c' [] back := by
  obtain ⟨c', hstep, hparts⟩ := h.toParts.backspaceLoop (Nat.le_refl _)
  exact ⟨c', hstep, hparts, hparts.behind⟩

theorem deleteCh (h : Shows c front back)
    (hsafe : c.bpos ≠ c.blen → ∀ ch next, uGetChar c.line c.bpos = some (ch, next) →
      c.bpos + uCharSize ch = next ∧ c.Removable c.bpos next) :
    ∃ c', CommandLine.deleteCh c = some c' ∧ Shows c' front back.tail := by
  have hbpos := h.bpos
  have hblen := h.blen
  have hclen := h.clen
  cases back with
  | nil =>
    have hend : c.bpos = c.blen := by rw [hbpos, hblen, List.flatten_nil, List.length_nil]; rfl
    exact ⟨c, by rw [CommandLine.deleteCh, if_pos hend], h⟩
  | cons g b =>
    obtain ⟨u, hread⟩ := h.uGetChar_line
    have hpos := List.length_pos_iff.mpr h.behind.1.1
    simp only [List.flatten_cons, List.length_append, List.length_cons] at hblen hclen
    have hend : c.bpos ≠ c.blen := by omega
    obtain ⟨hsize, hjoin⟩ := hsafe hend u _ hread
    have hbehind := h.from_behind (m := [g]) (b := b) rfl
    rw [List.flatten_singleton] at hbehind
    rw [Cmdline.Removable, h.take_bpos, hbehind] at hjoin
    obtain ⟨line, hmove, hparts⟩ := h.cut (m := []) (n := [g]) (List.append_nil _).symm rfl
    rw [List.flatten_singleton, ← hbpos, ← hsize] at hmove
    have hstep : CommandLine.deleteCh c = some
        {c with line, blen := c.blen - uCharSize u, clen := c.clen - 1} := by
      rw [CommandLine.deleteCh, if_neg hend, hread]
      simp only [Option.bind_eq_bind, Option.bind_some]
      rw [show c.blen - uCharSize u - c.bpos + 1 = b.flatten.length + 1 by omega, hmove,
        Option.bind_some]
    exact ⟨_, hstep, hparts _ _ _ _ (by omega) (by omega) hbpos h.cpos,
      h.before.append h.behind.2 hjoin⟩

theorem insertCh (h : Shows c front back) {ch : Uchar} (hfull : c.blen + uCharSize ch ≠ c.size)
    (hzero : 0 ∉ uSetCharRaw ch)
    (hleft : ¬ Joins (c.line.take c.bpos) (uSetCharRaw ch ++ c.from c.bpos))
    (hright : ¬ Joins (uSetCharRaw ch) (c.from c.bpos)) :
    ∃ c', CommandLine.insertCh c ch = some c' ∧ Shows c' (front ++ [uSetCharRaw ch]) back := by
  have hchar := uSetCharRaw_isChar ch
  have hlen := length_uSetCharRaw ch
  rw [h.take_bpos, h.from_cursor] at hleft
  rw [h.from_cursor] at hright
  have hsize := h.good.room
  have hinitial := h.initial
  -- the buffer is doubled where the line and the character are longer than it
  obtain ⟨c₁, hc₁, hparts, hroom⟩ : ∃ c₁ : Cmdline,
      (if c.blen + uCharSize ch > c.size then
        {c with size := c.size * 2, line := xrenew c.line (c.size * 2)} else c) = c₁ ∧
      Parts c₁ front back ∧ c₁.blen + (uSetCharRaw ch).length < c₁.size := by
    by_cases hgrow : c.blen + uCharSize ch > c.size
    · rw [if_pos hgrow]
      have := uCharSize_le ch
      exact ⟨_, rfl, h.grown (by omega), show c.blen + _ < c.size * 2 by omega⟩
    · rw [if_neg hgrow]
      exact ⟨c, rfl, h.toParts, by omega⟩
  obtain ⟨moved, line, hmove, hwrite, hput⟩ := hparts.put hchar hzero
    (fun hjoin => hleft (hjoin.append _)) hroom
  rw [hlen] at hmove
  have hstep : CommandLine.insertCh c ch = some {c₁ with
      line
      bpos := c₁.bpos + (uSetCharRaw ch).length
      cpos := c₁.cpos + 1
      blen := c₁.blen + (uSetCharRaw ch).length
      clen := c₁.clen + 1} := by
    rw [CommandLine.insertCh]
    simp only [Option.bind_eq_bind]
    rw [hc₁, hmove, Option.bind_some, hwrite, Option.bind_some, hlen]
  have hbehind : Decoded ([uSetCharRaw ch] ++ back) :=
    Decoded.append ⟨hchar, trivial⟩ h.behind (by rwa [List.flatten_singleton])
  refine ⟨_, hstep, hput, ?_⟩
  rw [List.append_assoc]
  exact h.before.append hbehind (by rwa [List.singleton_append, List.flatten_cons])

theorem setText (h : Shows c front back) {text : Text} (hzero : 0 ∉ text) :
    ∃ c' l, CommandLine.setText c text = some c' ∧ Shows c' l [] := by
  obtain ⟨l, hdecoded, rfl⟩ := exists_decoded text
  have hinitial := h.initial
  obtain ⟨c₁, hc₁, hsize, hle, hroom⟩ : ∃ c₁ : Cmdline,
      (if l.flatten.length ≥ c.size then
        {c with
          size := grow l.flatten.length l.flatten.length c.size
          line := xrenew c.line (grow l.flatten.length l.flatten.length c.size)}
        else c) = c₁ ∧
      c₁.line.length = c₁.size ∧ 128 ≤ c₁.size ∧ l.flatten.length < c₁.size := by
    by_cases hgrow : l.flatten.length ≥ c.size
    · rw [if_pos hgrow]
      obtain ⟨hle, hlt⟩ := grow_spec l.flatten.length l.flatten.length c.size (by omega)
        (show l.flatten.length < c.size + l.flatten.length by omega)
      exact ⟨_, rfl, (h.grown hle).size, Nat.le_trans hinitial hle, hlt⟩
    · rw [if_neg hgrow]
      exact ⟨c, rfl, h.size, hinitial, by omega⟩
  have hwrite : write c₁.line 0 (l.flatten ++ [0]) =
      some (l.flatten ++ 0 :: c₁.line.drop (l.flatten.length + 1)) := by
    rw [write, if_pos (by simp only [List.length_append, List.length_singleton]; omega)]
    simp
  have hcount : uStrlenSafe (cstr (l.flatten ++ 0 :: c₁.line.drop (l.flatten.length + 1))) =
      l.length := by
    rw [cstr_terminated hzero, uStrlenSafe_flatten hdecoded]
  have hstep : CommandLine.setText c l.flatten = some {c₁ with
      line := l.flatten ++ 0 :: c₁.line.drop (l.flatten.length + 1)
      cpos := l.length
      bpos := l.flatten.length
      clen := l.length
      blen := l.flatten.length} := by
    rw [CommandLine.setText]
    simp only [Option.bind_eq_bind]
    rw [hc₁, hwrite, Option.bind_some, hcount]
  refine ⟨_, l, hstep, ⟨⟨_, rfl⟩, ?_, hle, by simpa using hzero, hdecoded, trivial, rfl, rfl, rfl,
    (Int.add_zero _).symm⟩, by rwa [List.append_nil]⟩
  show (l.flatten ++ 0 :: c₁.line.drop (l.flatten.length + 1)).length = c₁.size
  simp only [List.length_append, List.length_cons, List.length_drop]
  omega

/-- The line is cut off at the cursor. -/
theorem ended (h : Shows c front back) :
    ∃ line, write c.line c.bpos [0] = some line ∧ cstr line = front.flatten ∧
      ∀ (blen : Nat) (clen : Int), blen = front.flatten.length → clen = front.length →
        Shows ⟨line, c.size, blen, clen, c.bpos, c.cpos⟩ front [] := by
  obtain ⟨junk, hline⟩ := h.line
  have hbpos := h.bpos
  have hstring := h.string
  rw [List.flatten_append, List.mem_append, not_or] at hstring
  have hlen := congrArg List.length hline
  simp only [List.length_append, List.length_cons] at hlen
  refine ⟨front.flatten ++ 0 :: c.line.drop (c.bpos + 1), ?_, cstr_terminated hstring.1 _,
    fun blen clen hblen hclen => ⟨⟨⟨_, rfl⟩, ?_, h.initial, by simpa using hstring.1, h.before,
      trivial, h.bpos, h.cpos, hblen, hclen.trans (Int.add_zero _).symm⟩,
      by rw [List.append_nil]; exact h.before⟩⟩
  · rw [write, if_pos (by rw [List.length_singleton]; omega), h.take_bpos]
    rfl
  · show (front.flatten ++ 0 :: c.line.drop (c.bpos + 1)).length = c.size
    rw [← h.size]
    simp only [List.length_append, List.length_cons, List.length_drop]
    omega

theorem clearEnd (h : Shows c front back) :
    ∃ c', CommandLine.clearEnd c = some c' ∧ Shows c' front [] := by
  obtain ⟨line, hwrite, hcstr, hshows⟩ := h.ended
  refine ⟨_, ?_, hshows front.flatten.length front.length rfl rfl⟩
  rw [CommandLine.clearEnd, hwrite]
  simp only [Option.bind_eq_bind, Option.bind_some]
  rw [hcstr, uStrlenSafe_flatten h.before]

theorem moveHome (h : Shows c front back) :
    ∃ c', CommandLine.moveHome c = some c' ∧ Shows c' [] (front ++ back) :=
  ⟨_, rfl, h.moved (List.nil_append (front ++ back))⟩

theorem moveEnd (h : Shows c front back) :
    ∃ c', CommandLine.moveEnd c = some c' ∧ Shows c' (front ++ back) [] := by
  have hmoved := h.moved (List.append_nil (front ++ back))
  rw [List.flatten_append, List.length_append, List.length_append, ← h.blen, Int.natCast_add,
    ← h.clen] at hmoved
  exact ⟨_, rfl, hmoved⟩

theorem clear (h : Shows c front back) : ∃ c', CommandLine.clear c = some c' ∧ Shows c' [] [] := by
  obtain ⟨c₁, hc₁, hhome⟩ := h.moveHome
  cases hc₁
  obtain ⟨line, hwrite, -, hshows⟩ := hhome.ended
  refine ⟨_, ?_, hshows 0 0 rfl rfl⟩
  rw [CommandLine.clear, show write c.line 0 [0] = some line from hwrite]
  rfl

theorem moveLeft (h : Shows c front back) :
    ∃ c' f b, CommandLine.moveLeft c = some c' ∧ Shows c' f b := by
  by_cases hpos : c.bpos > 0
  · rcases List.eq_nil_or_concat front with rfl | ⟨f, g, rfl⟩
    · exact absurd h.bpos (Nat.ne_of_gt hpos)
    · rw [List.concat_eq_append] at h
      have hmoved := h.moved (List.append_assoc f [g] back).symm
      rw [← h.uPrevCharPos_line] at hmoved
      have hcpos : (f.length : Int) = c.cpos - 1 := by
        have := h.cpos
        simp only [List.length_append, List.length_singleton] at this
        omega
      rw [hcpos] at hmoved
      exact ⟨_, _, _, by rw [CommandLine.moveLeft, if_pos hpos], hmoved⟩
  · exact ⟨c, _, _, by rw [CommandLine.moveLeft, if_neg hpos], h⟩

theorem moveRight (h : Shows c front back) :
    ∃ c' f b, CommandLine.moveRight c = some c' ∧ Shows c' f b := by
  by_cases hlt : c.bpos < c.blen
  · cases back with
    | nil =>
      have hblen := h.blen
      rw [List.flatten_nil, List.length_nil, ← h.bpos] at hblen
      omega
    | cons g b =>
      obtain ⟨u, hread⟩ := h.uGetChar_line
      have hmoved := h.moved (show (front ++ [g]) ++ b = front ++ g :: b by simp)
      have hbpos : (front ++ [g]).flatten.length = c.bpos + g.length := by simp [h.bpos]
      have hcpos : ((front ++ [g]).length : Int) = c.cpos + 1 := by simp [h.cpos]
      rw [hbpos, hcpos] at hmoved
      refine ⟨_, _, _, ?_, hmoved⟩
      rw [CommandLine.moveRight, if_pos hlt, hread]
      rfl
  · exact ⟨c, _, _, by rw [CommandLine.moveRight, if_neg hlt], h⟩

end Shows

/-! ### Words -/

theorem nextWordLoop_forth {str delim : Text} {fuel bpos next : Nat} {u : Uchar} {cdiff : Int}
    {skip : Bool} (hmore : str[bpos]? ≠ some 0) (hread : uGetChar str bpos = some (u, next)) :
    nextWordLoop str delim true (fuel + 1) bpos cdiff skip =
      if uStrchr delim u && !skip then some (bpos, cdiff)
      else nextWordLoop str delim true fuel next (cdiff + 1) (uStrchr delim u) := by
  rw [nextWordLoop, if_pos (by simpa using hmore)]
  simp only [if_true, hread, Option.bind_eq_bind, Option.bind_some]
  cases uStrchr delim u <;> cases skip <;> rfl

theorem nextWordLoop_back {str delim : Text} {fuel bpos start : Nat} {u : Uchar} {cdiff : Int}
    {skip : Bool} (hmore : bpos > 0) (hstart : uPrevCharPos str bpos = start)
    (hread : uGetChar str start = some (u, bpos)) :
    nextWordLoop str delim false (fuel + 1) bpos cdiff skip =
      if uStrchr delim u && !skip then some (bpos, cdiff)
      else nextWordLoop str delim false fuel start (cdiff - 1) (uStrchr delim u) := by
  rw [nextWordLoop, if_pos (by simpa using hmore)]
  simp only [Bool.false_eq_true, if_false, hstart, hread, Option.bind_eq_bind, Option.bind_some]
  cases uStrchr delim u <;> cases skip <;> rfl

/-- Forwards the position goes over some of the characters behind it. -/
theorem nextWordLoop_forward (delim : Text) {str : Text} {front back : List Text} {junk : Text}
    (hstr : str = front.flatten ++ (back.flatten ++ 0 :: junk)) (hstring : 0 ∉ back.flatten)
    (hback : Decoded back) {fuel : Nat} (hfuel : back.length < fuel) (cdiff : Int) (skip : Bool) :
    ∃ m b, back = m ++ b ∧ nextWordLoop str delim true fuel front.flatten.length cdiff skip =
      some (front.flatten.length + m.flatten.length, cdiff + m.length) := by
  obtain ⟨fuel, rfl⟩ : ∃ n, fuel = n + 1 := ⟨fuel - 1, by omega⟩
  induction back generalizing front fuel cdiff skip with
  | nil =>
    have hend : str[front.flatten.length]? = some 0 := by simp [hstr]
    refine ⟨[], [], rfl, ?_⟩
    rw [nextWordLoop, if_neg (by simpa using hend)]
    simp
  | cons g b ih =>
    obtain ⟨fuel, rfl⟩ : ∃ n, fuel = n + 1 := ⟨fuel - 1, by rw [List.length_cons] at hfuel; omega⟩
    obtain ⟨hg, hb⟩ := hback
    rw [List.flatten_cons, List.mem_append, not_or] at hstring
    rw [List.length_cons] at hfuel
    have hstr' : str = (front ++ [g]).flatten ++ (b.flatten ++ 0 :: junk) := by simp [hstr]
    have hnext : (front ++ [g]).flatten.length = front.flatten.length + g.length := by simp
    obtain ⟨u, hread⟩ := uGetChar_char (hg.before_end junk) front.flatten
    rw [← List.append_assoc g, ← List.flatten_cons, ← hstr] at hread
    have hmore : str[front.flatten.length]? ≠ some 0 := by
      obtain ⟨d, s, rfl⟩ := List.exists_cons_of_ne_nil hg.1
      rw [hstr, List.getElem?_append_right (Nat.le_refl _), Nat.sub_self]
      intro hd
      exact hstring.1 (Option.some.inj hd ▸ List.mem_cons_self)
    rw [nextWordLoop_forth hmore hread]
    split
    · exact ⟨[], g :: b, rfl, by simp⟩
    · obtain ⟨m, b', rfl, hloop⟩ := ih hstr' hstring.2 hb (cdiff + 1) (uStrchr delim u) fuel (by omega)
      refine ⟨g :: m, b', rfl, ?_⟩
      rw [← hnext, hloop, List.flatten_cons, List.length_append, List.length_cons, hnext]
      congr 2 <;> omega

/-- Backwards it goes over some of the characters before it. -/
theorem nextWordLoop_backward (delim : Text) {str : Text} {front back : List Text} {junk : Text}
    (hstr : str = front.flatten ++ (back.flatten ++ 0 :: junk)) (hrow : Decoded (front ++ back))
    {fuel : Nat} (hfuel : front.length < fuel) (cdiff : Int) (skip : Bool) :
    ∃ f m, front = f ++ m ∧ nextWordLoop str delim false fuel front.flatten.length cdiff skip =
      some (f.flatten.length, cdiff - m.length) := by
  obtain ⟨fuel, rfl⟩ : ∃ n, fuel = n + 1 := ⟨fuel - 1, by omega⟩
  induction front using List.reverseRecOn generalizing back fuel cdiff skip with
  | nil =>
    refine ⟨[], [], rfl, ?_⟩
    rw [nextWordLoop, if_neg (by simp)]
    simp
  | append_singleton front g ih =>
    rw [List.length_append, List.length_singleton] at hfuel
    obtain ⟨fuel, rfl⟩ : ∃ n, fuel = n + 1 := ⟨fuel - 1, by omega⟩
    have hstr' : str = front.flatten ++ ((g :: back).flatten ++ 0 :: junk) := by simp [hstr]
    have hrow' : Decoded (front ++ g :: back) := by simpa using hrow
    have hg : IsChar g back.flatten := hrow'.of_append.2.1
    have hlen : (front ++ [g]).flatten.length = front.flatten.length + g.length := by simp
    have hpos := List.length_pos_iff.mpr hg.1
    have hstart : uPrevCharPos str (front ++ [g]).flatten.length = front.flatten.length := by
      rw [hstr]
      exact uPrevCharPos_char hrow.of_append.1 _
    obtain ⟨u, hread⟩ := uGetChar_char (hg.before_end junk) front.flatten
    rw [← List.append_assoc g, ← List.flatten_cons, ← hstr', ← hlen] at hread
    rw [nextWordLoop_back (by omega) hstart hread]
    split
    · exact ⟨front ++ [g], [], (List.append_nil _).symm, by simp⟩
    · obtain ⟨f, m, rfl, hloop⟩ := ih hstr' hrow' (cdiff - 1) (uStrchr delim u) fuel (by omega)
      refine ⟨f, m ++ [g], List.append_assoc _ _ _, ?_⟩
      rw [hloop, List.length_append, List.length_singleton]
      congr 2
      omega

namespace Shows
variable {c : Cmdline} {front back : List Text}

theorem length_chars (h : Shows c front back) :
    front.length + back.length ≤ c.line.length := by
  have hfront := h.before.length_le
  have hback := h.behind.length_le
  have hblen := h.blen
  have hroom := h.good.room
  have hsize := h.size
  omega

theorem nextWord_forward (h : Shows c front back) (delim : Text) (cdiff : Int) :
    ∃ m b, back = m ++ b ∧ nextWord c.line c.bpos cdiff delim true =
      some (c.bpos + m.flatten.length, cdiff + m.length) := by
  obtain ⟨junk, hline⟩ := h.line
  have hstring := h.string
  rw [List.flatten_append, List.mem_append, not_or] at hstring
  have hfuel := h.length_chars
  rw [h.bpos]
  exact nextWordLoop_forward delim hline hstring.2 h.behind (by omega) cdiff true

theorem nextWord_backward (h : Shows c front back) (delim : Text) (cdiff : Int) :
    ∃ f m, front = f ++ m ∧ nextWord c.line c.bpos cdiff delim false =
      some (f.flatten.length, cdiff - m.length) := by
  obtain ⟨junk, hline⟩ := h.line
  have hfuel := h.length_chars
  rw [h.bpos]
  exact nextWordLoop_backward delim hline h.decoded (by omega) cdiff true

theorem forwardWord (h : Shows c front back) (delim : Text) :
    ∃ c' f b, CommandLine.forwardWord c delim = some c' ∧ Shows c' f b := by
  obtain ⟨m, b, hback, hnext⟩ := h.nextWord_forward delim c.cpos
  have hmoved := h.moved (show (front ++ m) ++ b = front ++ back by simp [hback])
  have hbpos : (front ++ m).flatten.length = c.bpos + m.flatten.length := by simp [h.bpos]
  have hcpos : ((front ++ m).length : Int) = c.cpos + m.length := by simp [h.cpos]
  rw [hbpos, hcpos] at hmoved
  exact ⟨_, _, _, by rw [CommandLine.forwardWord, hnext]; rfl, hmoved⟩

theorem backwardWord (h : Shows c front back) (delim : Text) :
    ∃ c' f b, CommandLine.backwardWord c delim = some c' ∧ Shows c' f b := by
  obtain ⟨f, m, hfront, hnext⟩ := h.nextWord_backward delim c.cpos
  have hmoved := h.moved (show f ++ (m ++ back) = front ++ back by simp [hfront])
  have hcpos : (f.length : Int) = c.cpos - m.length := by
    rw [h.cpos, hfront, List.length_append]
    omega
  rw [hcpos] at hmoved
  exact ⟨_, _, _, by rw [CommandLine.backwardWord, hnext]; rfl, hmoved⟩

theorem deleteWord (h : Shows c front back) (delim : Text)
    (hsafe : ∀ bpos cdiff, nextWord c.line c.bpos 0 delim true = some (bpos, cdiff) →
      c.Removable c.bpos bpos) :
    ∃ c' f b, CommandLine.deleteWord c delim = some c' ∧ Shows c' f b := by
  obtain ⟨m, b, hback, hnext⟩ := h.nextWord_forward delim 0
  have hjoin := hsafe _ _ hnext
  rw [Cmdline.Removable, h.take_bpos, h.from_behind hback] at hjoin
  obtain ⟨line, hmove, hparts⟩ := h.cut (m := []) (List.append_nil _).symm hback
  have hblen := h.blen
  have hclen := h.clen
  have hbpos := h.bpos
  rw [hback] at hblen hclen
  simp only [List.flatten_append, List.length_append] at hblen hclen
  have hcut := hparts (c.blen - m.flatten.length) (c.clen - m.length) c.bpos c.cpos (by omega)
    (by omega) hbpos h.cpos
  rw [← hbpos] at hmove
  refine ⟨_, _, _, ?_, hcut, hcut.before.append hcut.behind hjoin⟩
  rw [CommandLine.deleteWord, hnext]
  simp only [Option.bind_eq_bind, Option.bind_some]
  rw [show c.blen - (c.bpos + m.flatten.length) + 1 = b.flatten.length + 1 by omega, hmove,
    Option.bind_some, Nat.add_sub_cancel_left, Int.zero_add]

theorem backwardDeleteWord (h : Shows c front back) (delim : Text)
    (hsafe : ∀ bpos cdiff, nextWord c.line c.bpos 0 delim false = some (bpos, cdiff) →
      c.Removable bpos c.bpos) :
    ∃ c' f b, CommandLine.backwardDeleteWord c delim = some c' ∧ Shows c' f b := by
  obtain ⟨f, m, hfront, hnext⟩ := h.nextWord_backward delim 0
  have hjoin := hsafe _ _ hnext
  have htake : c.line.take f.flatten.length = f.flatten := by
    obtain ⟨junk, hline⟩ := h.line
    rw [hline, hfront, List.flatten_append, List.append_assoc, List.take_left]
  rw [Cmdline.Removable, htake, h.from_cursor] at hjoin
  obtain ⟨line, hmove, hparts⟩ := h.cut (n := []) hfront rfl
  rw [List.flatten_nil, List.length_nil, Nat.add_zero] at hmove
  have hblen := h.blen
  have hclen := h.clen
  have hbpos := h.bpos
  have hcpos := h.cpos
  rw [hfront] at hblen hclen hbpos hcpos
  simp only [List.flatten_append, List.length_append] at hblen hclen hbpos hcpos
  have hcut := hparts (c.blen + f.flatten.length - c.bpos) (c.clen + (0 - m.length))
    f.flatten.length (c.cpos + (0 - m.length)) (by omega) (by omega) rfl (by omega)
  refine ⟨_, _, _, ?_, hcut, hcut.before.append hcut.behind hjoin⟩
  rw [CommandLine.backwardDeleteWord, hnext]
  simp only [Option.bind_eq_bind, Option.bind_some]
  rw [show c.blen + f.flatten.length - c.bpos - f.flatten.length + 1 = back.flatten.length + 1 by
    omega, hmove, Option.bind_some]

/-- Every operation that is safe keeps a row of characters. -/
theorem step (h : Shows c front back) (op : Op) (hsafe : op.Safe c) :
    ∃ c' f b, CommandLine.step c op = some c' ∧ Shows c' f b := by
  cases op with
  | setText text =>
    obtain ⟨c', l, hstep, hshows⟩ := h.setText text.property
    exact ⟨c', l, [], hstep, hshows⟩
  | insertCh ch =>
    obtain ⟨c', hstep, hshows⟩ := h.insertCh hsafe.1 hsafe.2.1 hsafe.2.2.1 hsafe.2.2.2
    exact ⟨c', _, _, hstep, hshows⟩
  | backspace =>
    obtain ⟨c', hstep, hshows⟩ := h.backspace hsafe
    exact ⟨c', _, _, hstep, hshows⟩
  | deleteCh =>
    obtain ⟨c', hstep, hshows⟩ := h.deleteCh hsafe
    exact ⟨c', _, _, hstep, hshows⟩
  | backspaceToBol =>
    obtain ⟨c', hstep, hshows⟩ := h.backspaceToBol
    exact ⟨c', _, _, hstep, hshows⟩
  | clearEnd =>
    obtain ⟨c', hstep, hshows⟩ := h.clearEnd
    exact ⟨c', _, _, hstep, hshows⟩
  | clear =>
    obtain ⟨c', hstep, hshows⟩ := h.clear
    exact ⟨c', _, _, hstep, hshows⟩
  | moveLeft => exact h.moveLeft
  | moveRight => exact h.moveRight
  | moveHome =>
    obtain ⟨c', hstep, hshows⟩ := h.moveHome
    exact ⟨c', _, _, hstep, hshows⟩
  | moveEnd =>
    obtain ⟨c', hstep, hshows⟩ := h.moveEnd
    exact ⟨c', _, _, hstep, hshows⟩
  | forwardWord delim => exact h.forwardWord delim
  | backwardWord delim => exact h.backwardWord delim
  | deleteWord delim => exact h.deleteWord delim hsafe
  | backwardDeleteWord delim => exact h.backwardDeleteWord delim hsafe

end Shows

/-! ### Runs -/

/-- Along every run of safe operations no byte outside of the buffer is touched, and the
lengths and positions agree with the line in every state. -/
theorem cmdline_consistent (ops : List Op) (hsafe : Runs.Along step Op.Safe cmdlineInit ops) :
    Runs.Always step Good cmdlineInit ops := by
  have hstep : ∀ (c : Cmdline) (op : Op), (∃ front back, Shows c front back) → op.Safe c →
      ∃ t, step c op = some t ∧ ∃ front back, Shows t front back := by
    intro c op ⟨_, _, h⟩ hop
    obtain ⟨t, f, b, ht, hshows⟩ := h.step op hop
    exact ⟨t, ht, f, b, hshows⟩
  have hshows := Runs.always_of_along hstep ⟨[], [], Shows.init⟩ hsafe
  exact hshows.mono fun c ⟨_, _, h⟩ => h.good

theorem not_joins {a : Text} (h : ∀ c ∈ a, lenTab c ≤ 1) (b : Text) : ¬ Joins a b := by
  intro ⟨front, c, mid, hsplit, hlong, _⟩
  have := h c (hsplit ▸ List.mem_append_right _ List.mem_cons_self)
  omega

/-- A character is typed and taken back. -/
theorem cmdline_consistent_typed :
    Runs.Always step Good cmdlineInit [.insertCh 97, .backspace] := by
  apply cmdline_consistent
  have hbytes : uSetCharRaw 97 = [97] := rfl
  have hinsert : Op.Safe cmdlineInit (.insertCh 97) := by
    rw [Op.Safe, hbytes]
    exact ⟨by decide, by decide, not_joins (List.forall_mem_nil _) _, not_joins (by decide +kernel) _⟩
  apply And.intro hinsert
  intro c hc
  have hstep : step cmdlineInit (.insertCh 97) =
      some ⟨97 :: List.replicate 127 0, 128, 1, 1, 1, 1⟩ := by decide +kernel
  obtain rfl := Option.some.inj (hstep.symm.trans hc)
  exact ⟨fun _ => not_joins (List.forall_mem_nil _) _, fun _ _ => trivial⟩

/-- The terminator does not fit: a line of 127 bytes and one more character. -/
theorem full_line_overruns : ¬ Runs.Always step Good cmdlineInit
    [.setText ⟨List.replicate 127 97, by decide⟩, .insertCh 97] := by
  intro ⟨_, c, hset, _, t, hinsert, _⟩
  have hnone : ((setText cmdlineInit (List.replicate 127 97)).bind fun c =>
      insertCh c 97).isNone = true := by decide +kernel
  have hset : setText cmdlineInit (List.replicate 127 97) = some c := hset
  have hinsert : insertCh c 97 = some t := hinsert
  rw [hset, Option.bind_some, hinsert] at hnone
  cases hnone

end GracefulMusic.CommandLine
