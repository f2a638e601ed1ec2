import GracefulMusic.Text
import GracefulMusic.Foundation.Bytes
import GracefulMusic.Input.ApeTag

/-! The items of an APE tag (`ape.c`).

Positions are counted with an `int`, and each byte that is read is looked up in the
buffer: a byte that is not there is an error here. So is a loop that does not end. -/
namespace GracefulMusic.Ape

inductive Fault where
  | outside
  | endless
  deriving DecidableEq

def byteAt (buf : Text) (pos : Int) : Except Fault UInt8 :=
  if pos < 0 then .error .outside
  else match buf[pos.toNat]? with
    | some c => .ok c
    | none => .error .outside

def readLe32 (buf : Text) (pos : Int) : Except Fault Nat := do
  let b0 ← byteAt buf pos
  let b1 ← byteAt buf (pos + 1)
  let b2 ← byteAt buf (pos + 2)
  let b3 ← byteAt buf (pos + 3)
  return Bytes.toNat .little [b0, b1, b2, b3]

/-- The bytes up to a NUL, of which there is one among the `n` bytes that are there, or up
to `n` bytes. -/
def bytesTo (buf : Text) (pos : Int) : Nat → Except Fault Text
  | 0 => .ok []
  | n + 1 => do
    let c ← byteAt buf pos
    if c = 0 then return []
    return c :: (← bytesTo buf (pos + 1) n)

/-- `xstrdup`, which reads its NUL too. -/
def xstrdup (buf : Text) (pos : Int) : Except Fault Text := do
  let s ← bytesTo buf pos (buf.length - pos.toNat)
  let _ ← byteAt buf (pos + s.length)
  return s

def xstrndup (buf : Text) (pos : Int) (n : Nat) : Except Fault Text := bytesTo buf pos n

def afIsUtf8 (flags : Nat) : Bool := flags &&& 6 = 0

/-- The key and the value, the bytes of the buffer they were copied from, and the position
behind them. -/
structure Item where
  key : Text
  val : Text
  keyPos : Int
  keyLen : Nat
  valPos : Int
  valLen : Nat
  stop : Int
  deriving DecidableEq

def dateKey (key : Text) : Text :=
  if strcasecmp key (ascii "record date") = 0 ∨ strcasecmp key (ascii "year") = 0 then ascii "date"
  else key

/-- Only the year of a date is kept. -/
def dateVal (key val : Text) : Text :=
  if strcasecmp key (ascii "date") = 0 ∧ val.length > 4 then val.take 4 else val

/-- The strings of an item that has a key at `pos`. -/
def copyItem (buf : Text) (pos : Int) (keyLen valLen : Nat) : Except Fault (Option Item) := do
  let key ← xstrdup buf pos
  let val ← xstrndup buf (toInt (pos + keyLen + 1)) valLen
  return some ⟨dateKey key, dateVal (dateKey key) val, pos, keyLen, toInt (pos + keyLen + 1),
    valLen,
    toInt (toInt (pos + keyLen + 1) + valLen)⟩

/-- The loop of `ape_parse_one`; `none` stands for -1. -/
def parseLoop (buf : Text) (size : Int) : Nat → Int → Except Fault (Option Item)
  | 0, _ => .error .endless
  | fuel + 1, pos =>
    if toInt (size - pos) > 8 then do
      let valLen ← readLe32 buf pos
      let flags ← readLe32 buf (toInt (pos + 4))
      let pos := toInt (toInt (pos + 4) + 4)
      let maxKeyLen := toInt (size - pos) - valLen - 1
      -- corrupt
      if maxKeyLen < 0 then return none
      else do
        let keyLen := (← bytesTo buf pos maxKeyLen.toNat).length
        -- corrupt
        if (← byteAt buf (pos + keyLen)) ≠ 0 then return none
        -- ignore binary data
        else if ¬ afIsUtf8 flags then parseLoop buf size fuel (toInt (pos + keyLen + 1 + valLen))
        else copyItem buf pos keyLen valLen
    else return none

/-- At most a round for each byte. -/
def apeParseOne (buf : Text) (size : Int) : Except Fault (Option Item) :=
  parseLoop buf size (size.toNat + 1) 0

/-- The buffer, the size that the header gives and the position. -/
structure ApeTag where
  buf : Text
  size : UInt32
  pos : Int

/-- The item in the coordinates of the whole tag. -/
def Item.shift (item : Item) (pos : Int) : Item :=
  { item with keyPos := pos + item.keyPos, valPos := pos + item.valPos, stop := pos + item.stop }

/-- An item, or `none` for `NULL`. The position and the size are compared without a sign. -/
def apeGetComment (ape : ApeTag) : Except Fault (Option Item × ApeTag) := do
  if ape.pos % 2 ^ 32 ≥ ape.size.toNat then return (none, ape)
  else
    match ← apeParseOne (ape.buf.drop ape.pos.toNat) (toInt (ape.size.toNat - ape.pos)) with
    | none => return (none, ape)
    | some item => return (some (item.shift ape.pos),
        { ape with pos := toInt (ape.pos + item.stop) })

/-- The calls up to the one that gives `NULL`. -/
def apeComments : Nat → ApeTag → Except Fault (List Item)
  | 0, _ => .error .endless
  | fuel + 1, ape => do
    match ← apeGetComment ape with
    | (none, _) => return []
    | (some item, ape) => return item :: (← apeComments fuel ape)

/-! ### Reading -/

theorem byteAt_ok {buf : Text} {pos : Int} (h0 : 0 ≤ pos) (h : pos < buf.length) :
    ∃ c, byteAt buf pos = .ok c ∧ buf[pos.toNat]? = some c := by
  have hlt : pos.toNat < buf.length := by omega
  refine ⟨buf[pos.toNat], ?_, List.getElem?_eq_getElem hlt⟩
  rw [byteAt, if_neg (by omega), List.getElem?_eq_getElem hlt]

theorem readLe32_ok {buf : Text} {pos : Int} (h0 : 0 ≤ pos) (h : pos + 4 ≤ buf.length) :
    ∃ n, readLe32 buf pos = .ok n := by
  obtain ⟨b0, h0', -⟩ := @byteAt_ok buf pos h0 (by omega)
  obtain ⟨b1, h1, -⟩ := @byteAt_ok buf (pos + 1) (by omega) (by omega)
  obtain ⟨b2, h2, -⟩ := @byteAt_ok buf (pos + 2) (by omega) (by omega)
  obtain ⟨b3, h3, -⟩ := @byteAt_ok buf (pos + 3) (by omega) (by omega)
  refine ⟨Bytes.toNat .little [b0, b1, b2, b3], ?_⟩
  rw [readLe32, h0', h1, h2, h3]
  rfl

/-- What is copied stands in the buffer, up to a NUL where fewer than `n` bytes are. -/
theorem bytesTo_ok {buf : Text} {pos : Int} {n : Nat} (h0 : 0 ≤ pos) (h : pos + n ≤ buf.length) :
    bytesTo buf pos n = .ok (((buf.drop pos.toNat).take n).takeWhile (· ≠ 0)) := by
  induction n generalizing pos with
  | zero => rfl
  | succ n ih =>
    obtain ⟨c, hc, hat⟩ := byteAt_ok h0 (show pos < buf.length by omega)
    have hdrop : buf.drop pos.toNat = c :: buf.drop (pos + 1).toNat := by
      obtain ⟨hlt, hget⟩ := List.getElem?_eq_some_iff.mp hat
      rw [List.drop_eq_getElem_cons hlt, hget, show (pos + 1).toNat = pos.toNat + 1 by omega]
    rw [bytesTo, hc, hdrop, List.take_succ_cons]
    show (if c = 0 then pure [] else _) = _
    by_cases hzero : c = 0
    · rw [if_pos hzero, List.takeWhile_cons_of_neg (by simpa using hzero)]
      rfl
    · rw [if_neg hzero, ih (by omega) (by omega), List.takeWhile_cons_of_pos (by simpa using hzero)]
      rfl

/-! ### One item -/

/-- So many bytes of the buffer. -/
def slice (buf : Text) (pos : Int) (n : Nat) : Text := (buf.drop pos.toNat).take n

/-- The key with its NUL and the value stand behind one another in the first `size` bytes,
behind `pos`, and the item ends with them. -/
structure Item.Inside (item : Item) (buf : Text) (pos size : Int) : Prop where
  start : pos + 8 ≤ item.keyPos
  valPos : item.valPos = item.keyPos + item.keyLen + 1
  stop : item.stop = item.valPos + item.valLen
  stop_le : item.stop ≤ size
  key : item.key = dateKey (slice buf item.keyPos item.keyLen)
  key_noNul : 0 ∉ slice buf item.keyPos item.keyLen
  key_nul : byteAt buf (item.keyPos + item.keyLen) = .ok 0
  val : item.val =
    dateVal item.key ((slice buf item.valPos item.valLen).takeWhile fun c => decide (c ≠ 0))

/-- The bytes of the key that is looked for in the first `n` bytes. -/
def keyBytes (buf : Text) (pos : Int) (n : Nat) : Text :=
  (slice buf pos n).takeWhile fun c => decide (c ≠ 0)

theorem length_keyBytes_le (buf : Text) (pos : Int) (n : Nat) :
    (keyBytes buf pos n).length ≤ n := by
  have htake : (keyBytes buf pos n).length ≤ (slice buf pos n).length :=
    (List.takeWhile_prefix _).length_le
  rw [slice, List.length_take] at htake
  omega

theorem slice_keyBytes (buf : Text) (pos : Int) (n : Nat) :
    slice buf pos (keyBytes buf pos n).length = keyBytes buf pos n := by
  have hprefix : keyBytes buf pos n <+: buf.drop pos.toNat :=
    (List.takeWhile_prefix _).trans (List.take_prefix _ _)
  exact (List.prefix_iff_eq_take.mp hprefix).symm

theorem takeWhile_take_of_nul {s : Text} {n : Nat}
    (h : s[((s.take n).takeWhile fun c => decide (c ≠ 0)).length]? = some 0) :
    (s.takeWhile fun c => decide (c ≠ 0)) = (s.take n).takeWhile fun c => decide (c ≠ 0) := by
  induction s generalizing n with
  | nil => cases h
  | cons c s ih =>
    cases n with
    | zero =>
      obtain rfl : c = 0 := Option.some.inj h
      rfl
    | succ n =>
      rw [List.take_succ_cons] at h ⊢
      by_cases hc : c = 0
      · subst hc
        rfl
      · have hcons : ∀ t : Text, ((c :: t).takeWhile fun c => decide (c ≠ 0)) =
            c :: t.takeWhile fun c => decide (c ≠ 0) :=
          fun t => List.takeWhile_cons_of_pos (by simpa using hc)
        rw [hcons, List.length_cons, List.getElem?_cons_succ] at h
        rw [hcons, hcons, ih h]

/-- The key is copied up to its NUL. -/
theorem xstrdup_ok {buf : Text} {pos : Int} {n : Nat} (h0 : 0 ≤ pos) (h : pos + n ≤ buf.length)
    (hnul : byteAt buf (pos + (keyBytes buf pos n).length) = .ok 0) :
    xstrdup buf pos = .ok (keyBytes buf pos n) := by
  have hall : bytesTo buf pos (buf.length - pos.toNat) =
      .ok ((buf.drop pos.toNat).takeWhile fun c => decide (c ≠ 0)) := by
    rw [bytesTo_ok h0 (by omega), List.take_of_length_le (by rw [List.length_drop])]
  have hat : (buf.drop pos.toNat)[(keyBytes buf pos n).length]? = some 0 := by
    rw [byteAt, if_neg (by omega)] at hnul
    rw [List.getElem?_drop,
      show pos.toNat + (keyBytes buf pos n).length =
        (pos + (keyBytes buf pos n).length).toNat by omega]
    split at hnul
    · rename_i c hc
      rw [hc, Except.ok.inj hnul]
    · cases hnul
  rw [xstrdup, hall, takeWhile_take_of_nul hat]
  show (byteAt buf (pos + (keyBytes buf pos n).length)).bind _ = _
  rw [hnul]
  rfl

theorem copyItem_ok {buf : Text} {pos size : Int} (hbuf : size ≤ buf.length) (hsize : size ≤ intMax)
    {n valLen : Nat} (h0 : 0 ≤ pos) (hn : pos + 8 + n + 1 + valLen ≤ size)
    (hnul : byteAt buf (pos + 8 + (keyBytes buf (pos + 8) n).length) = .ok 0) :
    ∃ item, copyItem buf (pos + 8) (keyBytes buf (pos + 8) n).length valLen = .ok (some item) ∧
      item.Inside buf pos size := by
  have hkey := length_keyBytes_le buf (pos + 8) n
  have hdup := xstrdup_ok (n := n) (show 0 ≤ pos + 8 by omega) (by omega) hnul
  have hslice := slice_keyBytes buf (pos + 8) n
  have hmem : 0 ∉ keyBytes buf (pos + 8) n := by
    intro hmem
    simpa using List.mem_takeWhile_imp hmem
  generalize hk : keyBytes buf (pos + 8) n = key at hkey hdup hslice hnul hmem ⊢
  have hvalPos : toInt (pos + 8 + key.length + 1) = pos + 8 + key.length + 1 :=
    toInt_of_le (by omega) (by omega)
  have hval : xstrndup buf (pos + 8 + key.length + 1) valLen = .ok
      ((slice buf (pos + 8 + key.length + 1) valLen).takeWhile fun c => decide (c ≠ 0)) :=
    bytesTo_ok (by omega) (by omega)
  have hstop : toInt (pos + 8 + key.length + 1 + valLen) = pos + 8 + key.length + 1 + valLen :=
    toInt_of_le (by omega) (by omega)
  refine ⟨⟨dateKey key, dateVal (dateKey key)
      ((slice buf (pos + 8 + key.length + 1) valLen).takeWhile fun c => decide (c ≠ 0)),
    pos + 8, key.length, pos + 8 + key.length + 1, valLen, pos + 8 + key.length + 1 + valLen⟩,
    ?_, ?_⟩
  · rw [copyItem, hdup, hvalPos, hval, hstop]
    rfl
  · refine ⟨Int.le_refl _, rfl, rfl, ?_, ?_, ?_, hnul, rfl⟩
    · show pos + 8 + key.length + 1 + valLen ≤ size
      omega
    · show dateKey key = dateKey (slice buf (pos + 8) key.length)
      rw [hslice]
    · show 0 ∉ slice buf (pos + 8) key.length
      rw [hslice]
      exact hmem

theorem Item.Inside.weaken {item : Item} {buf : Text} {pos pos' size : Int}
    (h : item.Inside buf pos' size) (hpos : pos ≤ pos') : item.Inside buf pos size :=
  { h with start := by have := h.start; omega }

/-- No byte outside is read, the loop ends, and an item lies inside. -/
theorem parseLoop_ok {buf : Text} {size : Int} (hbuf : size ≤ buf.length) (hsize : size ≤ intMax)
    {fuel : Nat} {pos : Int} (h0 : 0 ≤ pos) (hpos : pos ≤ size) (hfuel : size - pos < fuel) :
    ∃ r, parseLoop buf size fuel pos = .ok r ∧
      ∀ item, r = some item → item.Inside buf pos size := by
  induction fuel generalizing pos with
  | zero => exact absurd hfuel (by omega)
  | succ fuel ih =>
    have hfits : ∀ n : Int, 0 ≤ n → n ≤ size → toInt n = n :=
      fun n hlow hhigh => toInt_of_le hlow (by omega)
    have hcorrupt : ∃ r : Option Item, (pure none : Except Fault (Option Item)) = .ok r ∧
        ∀ item, r = some item → item.Inside buf pos size :=
      ⟨none, rfl, fun item h => by cases h⟩
    rw [parseLoop, hfits (size - pos) (by omega) (by omega)]
    split
    · rename_i hlong
      obtain ⟨valLen, hvalLen⟩ := readLe32_ok h0 (show pos + 4 ≤ buf.length by omega)
      obtain ⟨flags, hflags⟩ := @readLe32_ok buf (pos + 4) (by omega) (by omega)
      rw [hfits (pos + 4) (by omega) (by omega), hvalLen, hflags]
      dsimp only [bind, Except.bind]
      rw [show pos + 4 + 4 = pos + 8 by omega, hfits (pos + 8) (by omega) (by omega),
        hfits (size - (pos + 8)) (by omega) (by omega)]
      split
      · exact hcorrupt
      rename_i hroom
      obtain ⟨n, hn⟩ : ∃ n : Nat, size - (pos + 8) - valLen - 1 = n :=
        Int.eq_ofNat_of_zero_le (Int.not_lt.mp hroom)
      have hkey : bytesTo buf (pos + 8) n = .ok (keyBytes buf (pos + 8) n) :=
        bytesTo_ok (by omega) (by omega)
      have hlen := length_keyBytes_le buf (pos + 8) n
      obtain ⟨c, hc, -⟩ := @byteAt_ok buf (pos + 8 + (keyBytes buf (pos + 8) n).length)
        (by omega) (by omega)
      rw [hn, Int.toNat_natCast, hkey]
      dsimp only
      rw [hc]
      dsimp only
      split
      · exact hcorrupt
      rename_i hzero
      split
      · rw [hfits _ (by omega) (by omega)]
        obtain ⟨r, hr, hinside⟩ := @ih (pos + 8 + (keyBytes buf (pos + 8) n).length + 1 + valLen)
          (by omega) (by omega) (by omega)
        exact ⟨r, hr, fun item hitem => (hinside item hitem).weaken (by omega)⟩
      · have hnul : c = 0 := not_not.mp hzero
        rw [hnul] at hc
        obtain ⟨item, hitem, hinside⟩ := @copyItem_ok buf pos size hbuf hsize n valLen h0
          (by omega) hc
        refine ⟨some item, hitem, fun item' heq => ?_⟩
        exact Option.some.inj heq ▸ hinside
    · exact hcorrupt

theorem apeParseOne_ok {buf : Text} {size : Int} (hlow : -2 ^ 31 ≤ size) (hsize : size ≤ intMax)
    (hbuf : size ≤ buf.length) :
    ∃ r, apeParseOne buf size = .ok r ∧ ∀ item, r = some item → item.Inside buf 0 size := by
  by_cases h0 : 0 ≤ size
  · exact parseLoop_ok hbuf hsize (Int.le_refl 0) h0 (by omega)
  · have hsame : toInt (size - 0) = size := by
      rw [Int.sub_zero]
      have hmax : intMax = 2 ^ 31 - 1 := rfl
      exact Int.bmod_eq_of_le (by omega) (by omega)
    refine ⟨none, ?_, fun item h => by cases h⟩
    rw [apeParseOne, parseLoop, hsame, if_neg (by omega)]
    rfl

/-! ### All items -/

theorem byteAt_drop {buf : Text} {pos i : Int} (hpos : 0 ≤ pos) (hi : 0 ≤ i) :
    byteAt (buf.drop pos.toNat) i = byteAt buf (pos + i) := by
  rw [byteAt, byteAt, if_neg (by omega), if_neg (by omega), List.getElem?_drop,
    show pos.toNat + i.toNat = (pos + i).toNat by omega]

theorem slice_drop {buf : Text} {pos i : Int} (hpos : 0 ≤ pos) (hi : 0 ≤ i) (n : Nat) :
    slice (buf.drop pos.toNat) i n = slice buf (pos + i) n := by
  rw [slice, slice, List.drop_drop, show pos.toNat + i.toNat = (pos + i).toNat by omega]

/-- With the buffer from `pos` on, an item is where it is said to be in the whole. -/
theorem Item.Inside.shift {item : Item} {buf : Text} {pos size : Int} (hpos : 0 ≤ pos)
    (h : item.Inside (buf.drop pos.toNat) 0 (size - pos)) :
    (item.shift pos).Inside buf pos size := by
  have hstart := h.start
  have hvalPos := h.valPos
  refine ⟨?_, ?_, ?_, ?_, ?_, ?_, ?_, ?_⟩
  · show pos + 8 ≤ pos + item.keyPos
    omega
  · show pos + item.valPos = pos + item.keyPos + item.keyLen + 1
    omega
  · show pos + item.stop = pos + item.valPos + item.valLen
    have := h.stop
    omega
  · show pos + item.stop ≤ size
    have := h.stop_le
    omega
  · show item.key = dateKey (slice buf (pos + item.keyPos) item.keyLen)
    rw [← slice_drop hpos (by omega)]
    exact h.key
  · show 0 ∉ slice buf (pos + item.keyPos) item.keyLen
    rw [← slice_drop hpos (by omega)]
    exact h.key_noNul
  · show byteAt buf (pos + item.keyPos + item.keyLen) = .ok 0
    rw [Int.add_assoc, ← byteAt_drop hpos (by omega)]
    exact h.key_nul
  · show item.val = dateVal item.key
      ((slice buf (pos + item.valPos) item.valLen).takeWhile fun c => decide (c ≠ 0))
    rw [← slice_drop hpos (by omega)]
    exact h.val

/-- A call gives an item behind the position and moves it there, or nothing. -/
theorem apeGetComment_ok {ape : ApeTag} (hbuf : ape.size.toNat ≤ ape.buf.length)
    (hsize : (ape.size.toNat : Int) ≤ intMax) (h0 : 0 ≤ ape.pos) (hpos : ape.pos ≤ ape.size.toNat) :
    apeGetComment ape = .ok (none, ape) ∨ ∃ item : Item,
      apeGetComment ape = .ok (some item, { ape with pos := item.stop }) ∧
        item.Inside ape.buf ape.pos ape.size.toNat := by
  have hmax : intMax = 2 ^ 31 - 1 := rfl
  have hmod : ape.pos % 2 ^ 32 = ape.pos := Int.emod_eq_of_lt h0 (by omega)
  rw [apeGetComment, hmod]
  split
  · exact .inl rfl
  · rename_i hlt
    have hleft : toInt (ape.size.toNat - ape.pos) = ape.size.toNat - ape.pos :=
      toInt_of_le (by omega) (by omega)
    obtain ⟨r, hr, hinside⟩ := @apeParseOne_ok (ape.buf.drop ape.pos.toNat)
      (ape.size.toNat - ape.pos) (by omega) (by omega) (by rw [List.length_drop]; omega)
    rw [hleft, hr]
    cases r with
    | none => exact .inl rfl
    | some item =>
      have hshift := (hinside item rfl).shift h0
      have hstop : toInt (ape.pos + item.stop) = (item.shift ape.pos).stop := by
        have hstart := hshift.start
        have hvalPos := hshift.valPos
        have hstop := hshift.stop
        have hle := hshift.stop_le
        exact toInt_of_le (by show 0 ≤ (item.shift ape.pos).stop; omega)
          (by show (item.shift ape.pos).stop ≤ intMax; omega)
      right
      refine ⟨item.shift ape.pos, ?_, hshift⟩
      dsimp only [bind, Except.bind]
      rw [hstop]
      rfl

theorem apeComments_ok {ape : ApeTag} {fuel : Nat} (hbuf : ape.size.toNat ≤ ape.buf.length)
    (hsize : (ape.size.toNat : Int) ≤ intMax) (h0 : 0 ≤ ape.pos) (hpos : ape.pos ≤ ape.size.toNat)
    (hfuel : ape.size.toNat - ape.pos < fuel) :
    ∃ items, apeComments fuel ape = .ok items ∧
      (∀ item ∈ items, item.Inside ape.buf ape.pos ape.size.toNat) ∧
        items.Pairwise fun a b => a.stop + 8 ≤ b.keyPos := by
  induction fuel generalizing ape with
  | zero => exact absurd hfuel (by omega)
  | succ fuel ih =>
    rw [apeComments]
    rcases apeGetComment_ok hbuf hsize h0 hpos with hnone | hsome
    · rw [hnone]
      exact ⟨[], rfl, fun item h => absurd h List.not_mem_nil, .nil⟩
    · obtain ⟨item, hcall, hinside⟩ := hsome
      have hstart := hinside.start
      have hvalPos := hinside.valPos
      have hstop := hinside.stop
      obtain ⟨items, hitems, hall, hdisjoint⟩ := @ih { ape with pos := item.stop } hbuf hsize
        (by show 0 ≤ item.stop; omega) hinside.stop_le
        (by show (ape.size.toNat : Int) - item.stop < fuel; omega)
      rw [hcall]
      dsimp only [bind, Except.bind]
      rw [hitems]
      refine ⟨item :: items, rfl, fun i hi => ?_, ?_⟩
      · rcases List.mem_cons.mp hi with rfl | hi
        · exact hinside
        · exact (hall i hi).weaken (by show ape.pos ≤ item.stop; omega)
      · exact List.pairwise_cons.mpr ⟨fun i hi => (hall i hi).start, hdisjoint⟩

/-- A tag whose size is none of an `int` has no items. -/
theorem apeGetComment_large {ape : ApeTag} (hsize : intMax < ape.size.toNat) (hpos : ape.pos = 0) :
    apeGetComment ape = .ok (none, ape) := by
  have hmax : intMax = 2 ^ 31 - 1 := rfl
  have hlt := ape.size.toNat_lt
  have hmod : ape.pos % 2 ^ 32 = 0 := by rw [hpos]; rfl
  have hneg : toInt (ape.size.toNat - ape.pos) = ape.size.toNat - 2 ^ 32 := by
    rw [hpos, Int.sub_zero, toInt, Int.bmod_def]
    have : (ape.size.toNat : Int) % (2 ^ 32 : Nat) = ape.size.toNat :=
      Int.emod_eq_of_lt (by omega) (by omega)
    rw [this, if_neg (by omega)]
    rfl
  obtain ⟨r, hr, hinside⟩ := @apeParseOne_ok (ape.buf.drop ape.pos.toNat)
    (ape.size.toNat - 2 ^ 32) (by omega) (by omega) (by omega)
  rw [apeGetComment, hmod, if_neg (by omega), hneg, hr]
  cases r with
  | none => rfl
  | some item =>
    have hitem := hinside item rfl
    have hstart := hitem.start
    have hvalPos := hitem.valPos
    have hstop := hitem.stop
    have hle := hitem.stop_le
    omega

/-- `ape_parse_one` stays inside the buffer, and the calls of `ape_get_comment` come to an
end behind items that do not overlap. -/
theorem ape_items :
    (∀ (buf : Text) (size : Int), -2 ^ 31 ≤ size → size ≤ intMax → size ≤ buf.length →
      ∃ r, apeParseOne buf size = .ok r ∧
        ∀ item, r = some item → item.Inside buf 0 size ∧ 0 < item.stop ∧ item.stop ≤ size) ∧
    ∀ (buf : Text) (size : UInt32), size.toNat ≤ buf.length →
      ∃ items, apeComments (size.toNat + 1) ⟨buf, size, 0⟩ = .ok items ∧
        (∀ item ∈ items, item.Inside buf 0 size.toNat) ∧
          items.Pairwise fun a b => a.stop + 8 ≤ b.keyPos := by
  constructor
  · intro buf size hlow hsize hbuf
    obtain ⟨r, hr, hinside⟩ := apeParseOne_ok hlow hsize hbuf
    refine ⟨r, hr, fun item hitem => ?_⟩
    have hitem := hinside item hitem
    have hstart := hitem.start
    have hvalPos := hitem.valPos
    have hstop := hitem.stop
    exact ⟨hitem, by omega, hitem.stop_le⟩
  · intro buf size hbuf
    by_cases hsize : (size.toNat : Int) ≤ intMax
    · exact @apeComments_ok ⟨buf, size, 0⟩ (size.toNat + 1) hbuf hsize (Int.le_refl 0) (by simp)
        (by show (size.toNat : Int) - 0 < (size.toNat + 1 : Nat); omega)
    · refine ⟨[], ?_, fun item h => absurd h List.not_mem_nil, .nil⟩
      rw [apeComments, @apeGetComment_large ⟨buf, size, 0⟩ (by show intMax < size.toNat; omega) rfl]
      rfl

/-- A tag with one item. -/
def yearTag : Text := [4, 0, 0, 0, 0, 0, 0, 0] ++ ascii "Year" ++ [0] ++ ascii "1999"

example : apeComments 18 ⟨yearTag, 17, 0⟩ =
    .ok [⟨ascii "date", ascii "1999", 8, 4, 13, 4, 17⟩] := by decide +kernel

theorem ape_items_year : (∃ r, apeParseOne yearTag 17 = .ok r ∧ ∀ item, r = some item →
    item.stop ≤ 17) ∧
    ∃ items, apeComments 18 ⟨yearTag, 17, 0⟩ = .ok items ∧ ∀ item ∈ items, item.stop ≤ 17 := by
  obtain ⟨r, hr, hone⟩ := ape_items.1 yearTag 17 (by decide) (by decide) (by decide)
  obtain ⟨items, hitems, hinside, -⟩ := ape_items.2 yearTag 17 (by decide)
  exact ⟨⟨r, hr, fun item hitem => (hone item hitem).2.2⟩, items, hitems,
    fun item hitem => (hinside item hitem).stop_le⟩

end GracefulMusic.Ape
