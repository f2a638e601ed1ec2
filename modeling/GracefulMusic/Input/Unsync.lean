import GracefulMusic.Input.Id3

/-! Undoing the unsynchronisation of a tag (`unsync` in `id3.c`), as it is done in place.

`s` is where the buffer is read and `d` where it is written, which is never ahead. What is
written in the end is what `unsync` makes of the buffer as a string. -/
namespace GracefulMusic.Id3

/-- The buffer and the two indices. -/
structure Unsync where
  buf : Text
  s : Nat
  d : Nat
  deriving DecidableEq

/-- `buf[d++] = c`, with `n` bytes read. -/
def Unsync.write (u : Unsync) (c : UInt8) (n : Nat) : Unsync :=
  ⟨u.buf.set u.d c, u.s + n, u.d + 1⟩

/-- A round of the loop. -/
def Unsync.round (len : Nat) (u : Unsync) : Unsync :=
  if charAt u.buf u.s = 0xff ∧ charAt u.buf (u.s + 1) = 0x00 then
    let u := u.write 0xff 2
    if u.s + 2 < len ∧ charAt u.buf u.s = 0x00 then u.write 0x00 1 else u
  else u.write (charAt u.buf u.s) 1

/-- Each round reads at least a byte. -/
def Unsync.loop (len : Nat) : Nat → Unsync → Unsync
  | 0, u => u
  | fuel + 1, u => if u.s + 1 < len then Unsync.loop len fuel (u.round len) else u

/-- What is left in the buffer, and the new length. -/
def unsyncInPlace (buf : Text) : Text × Nat :=
  let u := Unsync.loop buf.length buf.length ⟨buf, 0, 0⟩
  let u := if u.s < buf.length then u.write (charAt u.buf u.s) 1 else u
  (u.buf, u.d)

example : unsyncInPlace [0xff, 0x00, 0x00, 0x41, 0xff, 0x00] =
    ([0xff, 0x00, 0x41, 0xff, 0xff, 0x00], 4) := by decide

/-! ### What is removed -/

/-- The bytes that are no zero behind a `0xff`; `before` is in front of the first. -/
def withoutStuffing (before : UInt8) (data : Text) : Text :=
  (((before :: data).zip data).filter fun (p, c) => !(p == 0xff && c == 0x00)).map (·.2)

@[simp] theorem withoutStuffing_nil (before : UInt8) : withoutStuffing before [] = [] := rfl

theorem withoutStuffing_cons (before c : UInt8) (data : Text) :
    withoutStuffing before (c :: data) =
      (if before = 0xff ∧ c = 0x00 then [] else [c]) ++ withoutStuffing c data := by
  unfold withoutStuffing
  rw [List.zip_cons_cons, List.filter_cons]
  by_cases h : before = 0xff ∧ c = 0x00
  · obtain ⟨rfl, rfl⟩ := h
    simp
  · have hkeep : (!(before == 0xff && c == 0x00)) = true := by
      simp only [Bool.not_eq_true', Bool.and_eq_false_imp, beq_iff_eq, beq_eq_false_iff_ne]
      intro hp hc
      exact h ⟨hp, hc⟩
    rw [if_neg h, if_pos hkeep]
    rfl

/-- Behind a byte that is kept, only a zero behind `0xff` is looked at. -/
theorem withoutStuffing_before {before : UInt8} {data : Text}
    (h : before ≠ 0xff ∨ data.head? ≠ some 0x00) :
    withoutStuffing before data = withoutStuffing 0x00 data := by
  cases data with
  | nil => rfl
  | cons c data =>
    have hzero : ¬((0x00 : UInt8) = 0xff ∧ c = 0x00) := fun h0 => absurd h0.1 (by decide)
    have hkeep : ¬(before = 0xff ∧ c = 0x00) := by
      intro hstuffed
      rcases h with hbefore | hhead
      · exact hbefore hstuffed.1
      · exact hhead (congrArg some hstuffed.2)
    rw [withoutStuffing_cons, withoutStuffing_cons, if_neg hkeep, if_neg hzero]

/-! ### The loop -/

/-- What is read is still as it was, and what was written and what is left to read make
the result. -/
structure Unsync.Valid (data : Text) (u : Unsync) : Prop where
  length : u.buf.length = data.length
  behind : u.d ≤ u.s
  inside : u.s ≤ data.length
  unread : u.buf.drop u.s = data.drop u.s
  result : u.buf.take u.d ++ withoutStuffing 0x00 (data.drop u.s) = withoutStuffing 0x00 data

theorem charAt_of_drop_eq {buf data : Text} {s i : Nat} (h : buf.drop s = data.drop s)
    (hi : s ≤ i) : charAt buf i = charAt data i := by
  have hat : (buf.drop s).getD (i - s) 0 = (data.drop s).getD (i - s) 0 := by rw [h]
  simp only [List.getD_eq_getElem?_getD, List.getElem?_drop] at hat
  rw [Nat.add_sub_cancel' hi] at hat
  simpa only [charAt, List.getD_eq_getElem?_getD] using hat

theorem drop_eq_charAt_cons {data : Text} {i : Nat} (h : i < data.length) :
    data.drop i = charAt data i :: data.drop (i + 1) := by
  rw [List.drop_eq_getElem_cons h, charAt, List.getD_eq_getElem?_getD, List.getElem?_eq_getElem h]
  rfl

/-- A byte is written, and the bytes that are read come to it alone. -/
theorem Unsync.Valid.write {data : Text} {u : Unsync} (h : u.Valid data) {c : UInt8} {n : Nat}
    (hn : 0 < n) (hs : u.s + n ≤ data.length)
    (hread : withoutStuffing 0x00 (data.drop u.s) =
      c :: withoutStuffing 0x00 (data.drop (u.s + n))) :
    (u.write c n).Valid data := by
  have hd : u.d < u.buf.length := by
    have := h.behind
    have := h.length
    omega
  refine ⟨?_, ?_, hs, ?_, ?_⟩
  · rw [Unsync.write, List.length_set]
    exact h.length
  · show u.d + 1 ≤ u.s + n
    have := h.behind
    omega
  · show (u.buf.set u.d c).drop (u.s + n) = data.drop (u.s + n)
    have hfar : ¬ u.s + n ≤ u.d := by
      have := h.behind
      omega
    rw [List.drop_set_of_lt (by omega), ← List.drop_drop, h.unread, List.drop_drop]
  · show (u.buf.set u.d c).take (u.d + 1) ++ withoutStuffing 0x00 (data.drop (u.s + n)) = _
    rw [List.take_add_one, List.take_set_of_le (Nat.le_refl _), List.getElem?_set_self hd,
      ← h.result, hread]
    simp

theorem Unsync.Valid.round {data : Text} {u : Unsync} (h : u.Valid data)
    (hs : u.s + 1 < data.length) : (u.round data.length).Valid data := by
  have hfirst : charAt u.buf u.s = charAt data u.s := charAt_of_drop_eq h.unread (Nat.le_refl _)
  have hsecond : charAt u.buf (u.s + 1) = charAt data (u.s + 1) :=
    charAt_of_drop_eq h.unread (Nat.le_succ _)
  have hdrop := drop_eq_charAt_cons (show u.s < data.length by omega)
  have hdrop' := drop_eq_charAt_cons hs
  have hzero : ∀ c : UInt8, ¬((0x00 : UInt8) = 0xff ∧ c = 0x00) :=
    fun c h0 => absurd h0.1 (by decide)
  unfold Unsync.round
  split
  · rename_i hstuffed
    rw [hfirst, hsecond] at hstuffed
    have hwritten : (u.write 0xff 2).Valid data := by
      apply h.write (by decide) (by omega)
      rw [hdrop, withoutStuffing_cons, if_neg (hzero _), hdrop', withoutStuffing_cons,
        if_pos hstuffed, hstuffed.1, hstuffed.2]
      rfl
    dsimp only
    split
    · rename_i hmore
      obtain ⟨hlt, hnext⟩ := hmore
      have hlt : (u.write 0xff 2).s < data.length := by omega
      rw [charAt_of_drop_eq hwritten.unread (Nat.le_refl _)] at hnext
      apply hwritten.write (by decide) hlt
      rw [drop_eq_charAt_cons hlt, withoutStuffing_cons, if_neg (hzero _), hnext]
      rfl
    · exact hwritten
  · rename_i hplain
    rw [hfirst, hsecond] at hplain
    apply h.write (by decide) (by omega)
    rw [hdrop, withoutStuffing_cons, if_neg (hzero _), hfirst]
    show _ :: _ = _
    congr 1
    apply withoutStuffing_before
    by_cases hff : charAt data u.s = 0xff
    · right
      rw [hdrop']
      intro hhead
      exact hplain ⟨hff, Option.some.inj hhead⟩
    · exact .inl hff

/-- With a round for each byte the loop comes to the last byte or behind it. -/
theorem Unsync.loop_valid {data : Text} {fuel : Nat} {u : Unsync} (h : u.Valid data)
    (hfuel : data.length ≤ u.s + fuel) :
    (Unsync.loop data.length fuel u).Valid data ∧
      data.length ≤ (Unsync.loop data.length fuel u).s + 1 := by
  induction fuel generalizing u with
  | zero => exact ⟨h, by show data.length ≤ u.s + 1; omega⟩
  | succ fuel ih =>
    rw [Unsync.loop]
    split
    · rename_i hs
      have hread : u.s + 1 ≤ (u.round data.length).s := by
        unfold Unsync.round Unsync.write
        dsimp only
        split
        · split
          · dsimp only
            omega
          · dsimp only
            omega
        · exact Nat.le_refl _
      exact ih (h.round hs) (by omega)
    · rename_i hs
      exact ⟨h, by omega⟩

/-- The last byte is copied too. -/
theorem unsyncInPlace_valid (data : Text) :
    ∃ u : Unsync, u.Valid data ∧ u.s = data.length ∧ unsyncInPlace data = (u.buf, u.d) := by
  have hstart : (⟨data, 0, 0⟩ : Unsync).Valid data :=
    ⟨rfl, Nat.le_refl 0, Nat.zero_le _, rfl, rfl⟩
  obtain ⟨hvalid, hend⟩ := Unsync.loop_valid hstart (show data.length ≤ 0 + data.length by omega)
  have hinside := hvalid.inside
  unfold unsyncInPlace
  dsimp only
  split
  · rename_i hs
    refine ⟨_, ?_, ?_, rfl⟩
    · apply hvalid.write (by decide) hs
      rw [drop_eq_charAt_cons hs, withoutStuffing_cons,
        if_neg fun h0 => absurd h0.1 (by decide), charAt_of_drop_eq hvalid.unread (Nat.le_refl _),
        List.drop_eq_nil_of_le hend]
      rfl
    · show _ + 1 = data.length
      omega
  · rename_i hs
    exact ⟨_, hvalid, by omega, rfl⟩

theorem unsyncInPlace_take (data : Text) :
    (unsyncInPlace data).1.take (unsyncInPlace data).2 = withoutStuffing 0x00 data := by
  obtain ⟨u, hvalid, hs, heq⟩ := unsyncInPlace_valid data
  rw [heq, ← hvalid.result, hs, List.drop_length, withoutStuffing_nil, List.append_nil]

theorem unsyncInPlace_le (data : Text) :
    (unsyncInPlace data).2 ≤ (unsyncInPlace data).1.length := by
  obtain ⟨u, hvalid, hs, heq⟩ := unsyncInPlace_valid data
  rw [heq, hvalid.length, ← hs]
  exact hvalid.behind

/-- The string that `unsync` makes comes to the same. -/
theorem unsyncLoop_eq {fuel : Nat} {data : Text} (hfuel : data.length ≤ fuel) :
    unsyncLoop fuel data = withoutStuffing 0x00 data := by
  have hzero : ∀ c : UInt8, ¬((0x00 : UInt8) = 0xff ∧ c = 0x00) :=
    fun c h0 => absurd h0.1 (by decide)
  induction fuel generalizing data with
  | zero =>
    obtain rfl := List.eq_nil_of_length_eq_zero (Nat.le_zero.mp hfuel)
    rfl
  | succ fuel ih =>
    rcases data with _ | ⟨a, _ | ⟨b, rest⟩⟩
    · rfl
    · rw [withoutStuffing_cons, if_neg (hzero a)]
      rfl
    simp only [List.length_cons] at hfuel
    rw [unsyncLoop, withoutStuffing_cons, if_neg (hzero a)]
    split
    · rename_i hstuffed
      obtain ⟨rfl, rfl⟩ := hstuffed
      have hskip : withoutStuffing 0xff (0x00 :: rest) = withoutStuffing 0x00 rest := by
        rw [withoutStuffing_cons, if_pos ⟨rfl, rfl⟩]
        rfl
      rw [hskip]
      split
      · rename_i hmore
        cases rest with
        | nil => exact absurd hmore.1 (by decide)
        | cons c rest =>
          simp only [List.length_cons] at hfuel
          obtain rfl : c = 0x00 := hmore.2
          rw [List.drop_one, List.tail_cons, ih (by omega), withoutStuffing_cons,
            if_neg (hzero 0x00)]
          rfl
      · rw [ih (by omega)]
        rfl
    · rename_i hplain
      have hbefore : withoutStuffing a (b :: rest) = withoutStuffing 0x00 (b :: rest) := by
        apply withoutStuffing_before
        by_cases hff : a = 0xff
        · right
          intro hb
          exact hplain ⟨hff, Option.some.inj hb⟩
        · exact .inl hff
      rw [ih (by simp only [List.length_cons]; omega), hbefore]
      rfl

theorem unsyncInPlace_eq_unsync (data : Text) :
    (unsyncInPlace data).1.take (unsyncInPlace data).2 = unsync data := by
  rw [unsyncInPlace_take, unsync, unsyncLoop_eq (Nat.le_refl _)]

/-! ### Unsynchronisation -/

/-- A zero goes behind each `0xff` that a decoder could take for a sync signal, or that
ends the data. -/
def unsynchronise : Text → Text
  | [] => []
  | [c] => if c = 0xff then [c, 0x00] else [c]
  | c :: next :: rest =>
    if c = 0xff ∧ (next = 0x00 ∨ 0xe0 ≤ next) then c :: 0x00 :: unsynchronise (next :: rest)
    else c :: unsynchronise (next :: rest)

theorem unsynchronise_head (next : UInt8) (rest : Text) :
    (unsynchronise (next :: rest)).head? = some next := by
  cases rest with
  | nil =>
    rw [unsynchronise]
    split <;> rfl
  | cons after rest =>
    rw [unsynchronise]
    split <;> rfl

theorem withoutStuffing_unsynchronise (data : Text) :
    withoutStuffing 0x00 (unsynchronise data) = data := by
  have hzero : ∀ c : UInt8, ¬((0x00 : UInt8) = 0xff ∧ c = 0x00) :=
    fun c h0 => absurd h0.1 (by decide)
  induction data with
  | nil => rfl
  | cons c data ih =>
    cases data with
    | nil =>
      rw [unsynchronise]
      split
      · rename_i hff
        rw [hff]
        rfl
      · rw [withoutStuffing_cons, if_neg (hzero c)]
        rfl
    | cons next rest =>
      rw [unsynchronise]
      split
      · rename_i hsync
        rw [withoutStuffing_cons, if_neg (hzero c), withoutStuffing_cons, if_pos ⟨hsync.1, rfl⟩, ih]
        rfl
      · rename_i hplain
        have hbefore : withoutStuffing c (unsynchronise (next :: rest)) =
            withoutStuffing 0x00 (unsynchronise (next :: rest)) := by
          apply withoutStuffing_before
          by_cases hff : c = 0xff
          · right
            rw [unsynchronise_head]
            intro hnext
            exact hplain ⟨hff, .inl (Option.some.inj hnext)⟩
          · exact .inl hff
        rw [withoutStuffing_cons, if_neg (hzero c), hbefore, ih]
        rfl

/-- `unsync` removes the zeros behind `0xff` and nothing else, and so gives back what was
unsynchronised. -/
theorem unsyncInPlace_spec :
    (∀ data, (unsyncInPlace data).1.take (unsyncInPlace data).2 = withoutStuffing 0x00 data) ∧
      (∀ data, (unsyncInPlace data).2 = (withoutStuffing 0x00 data).length) ∧
      ∀ data, (unsyncInPlace (unsynchronise data)).1.take
        (unsyncInPlace (unsynchronise data)).2 = data := by
  refine ⟨unsyncInPlace_take, fun data => ?_, fun data => ?_⟩
  · rw [← unsyncInPlace_take, List.length_take, Nat.min_eq_left (unsyncInPlace_le data)]
  · rw [unsyncInPlace_take, withoutStuffing_unsynchronise]

end GracefulMusic.Id3
