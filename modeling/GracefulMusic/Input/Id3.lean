import GracefulMusic.Uchar.Chars

/-! Reading ID3v2 tags (`id3.c`).

The memory is checked: a frame that is handed over without a byte of payload in the
buffer is an error here, and so is a decoder that reads past the payload it was given.
What a conversion with `iconv` gives is a parameter. What the tag makes of the decoded
strings is left out, and so are the decoders of `RVA2` and `UFID` frames, which are not
text. -/
namespace GracefulMusic.Id3

/-- A byte as a `char`. -/
def charAt (buf : Text) (i : Nat) : UInt8 := buf.getD i 0

def u32Unsync (buf : Text) : Option Nat :=
  (buf.take 4).foldlM (fun (u : Nat) (b : UInt8) =>
    if b ≥ 0x80 then none else some (u <<< 7 ||| b.toNat)) 0

/-- `get_u32` and `get_u24`, for 4 bytes and 3. -/
def getUnsigned (buf : Text) (count : Nat) : UInt32 :=
  (buf.take count).foldl (fun u b => u <<< 8 ||| b.toUInt32) 0

/-- The size is of 28 bits. -/
structure V2Header where
  verMajor : UInt8
  verMinor : UInt8
  flags : UInt8
  size : Nat
  size_lt : size < 2 ^ 28

theorem foldlM_unsync_lt {buf : Text} {u n k : Nat} (hu : u < 2 ^ k)
    (h : buf.foldlM (fun (u : Nat) (b : UInt8) =>
      if b ≥ 0x80 then none else some (u <<< 7 ||| b.toNat)) u = some n) :
    n < 2 ^ (k + 7 * buf.length) := by
  induction buf generalizing u k with
  | nil =>
    obtain rfl := Option.some.inj h
    exact hu
  | cons b buf ih =>
    rw [List.foldlM_cons] at h
    by_cases hb : b ≥ 0x80
    · rw [if_pos hb] at h
      cases h
    · rw [if_neg hb, Option.bind_eq_bind, Option.bind_some] at h
      have hlow : b.toNat < 2 ^ (k + 7) := by
        have h128 : b.toNat < 2 ^ 7 := UInt8.lt_iff_toNat_lt.mp (by simpa using hb)
        exact lt_of_lt_of_le h128 (Nat.pow_le_pow_right (by decide) (by omega))
      have hhigh : u <<< 7 < 2 ^ (k + 7) := by
        rw [Nat.shiftLeft_eq, Nat.pow_add]
        exact Nat.mul_lt_mul_of_pos_right hu (by decide)
      have := ih (Nat.or_lt_two_pow hhigh hlow) h
      rwa [List.length_cons, show k + 7 * (buf.length + 1) = k + 7 + 7 * buf.length by omega]

theorem u32Unsync_lt {buf : Text} {n : Nat} (h : u32Unsync buf = some n) : n < 2 ^ 28 := by
  refine lt_of_lt_of_le (foldlM_unsync_lt (show 0 < 2 ^ 0 by decide) h) ?_
  refine Nat.pow_le_pow_right (by decide) ?_
  rw [List.length_take]
  omega

/-- The header is the first ten bytes of the file. -/
def v2HeaderParse (buf : Text) : Option V2Header :=
  if buf.take 3 ≠ ascii "ID3" then none
  else if charAt buf 3 = 0xff ∨ charAt buf 4 = 0xff then none
  else
    match h : u32Unsync (buf.drop 6) with
    | none => none
    | some size => some ⟨charAt buf 3, charAt buf 4, charAt buf 5, size, u32Unsync_lt h⟩

structure V2FrameHeader where
  id : Text
  size : UInt32
  flags : UInt16
  deriving DecidableEq

def headerUnsync : UInt8 := 0x80 -- 1 << 7
def headerExtended : UInt8 := 0x40 -- 1 << 6
def frameUnsync : UInt16 := 2 -- 1 << 1
def frameLenIndicator : UInt16 := 1 -- 1 << 0

def isFrameIdChar (c : UInt8) : Bool := (ch 'A' ≤ c && c ≤ ch 'Z') || (ch '0' ≤ c && c ≤ ch '9')

def v220FrameHeaderParse (buf : Text) : Option V2FrameHeader :=
  if (buf.take 3).all isFrameIdChar then
    let size := getUnsigned (buf.drop 3) 3
    if size = 0 then none else some ⟨buf.take 3 ++ [0], size, 0⟩
  else none

/-- The id and the flags of a 2.3 or a 2.4 header; the size is passed. -/
def v230FrameHeader (buf : Text) (size : Option UInt32) : Option V2FrameHeader :=
  if (buf.take 3).all isFrameIdChar && (isFrameIdChar (charAt buf 3) || charAt buf 3 == 0) then
    match size with
    | none => none
    | some size =>
      let flags := ((charAt buf 8).toUInt16 <<< 8) ||| (charAt buf 9).toInt8.toInt16.toUInt16
      if size = 0 then none else some ⟨buf.take 4, size, flags⟩
  else none

def v230FrameHeaderParse (buf : Text) : Option V2FrameHeader :=
  v230FrameHeader buf (some (getUnsigned (buf.drop 4) 4))

/-- The same as 2.3, but the size is sync safe. -/
def v240FrameHeaderParse (buf : Text) : Option V2FrameHeader :=
  v230FrameHeader buf ((u32Unsync (buf.drop 4)).map UInt32.ofNat)

/-- 2.2, 2.3, and 2.4 for everything else. -/
def frameHeaderParse (verMajor : UInt8) (buf : Text) : Option V2FrameHeader :=
  if verMajor = 2 then v220FrameHeaderParse buf
  else if verMajor = 3 then v230FrameHeaderParse buf
  else v240FrameHeaderParse buf

def frameHeaderSize (verMajor : UInt8) : Nat := if verMajor = 2 then 6 else 10

/-! ### Text -/

/-- Up to the first NUL. -/
def untilNull (buf : Text) : Text := buf.takeWhile (· ≠ 0)

def hexTab (n : UInt32) : UInt8 := if n < 10 then ch '0' + n.toUInt8 else ch 'a' + n.toUInt8 - 10

/-- The bytes `u_set_char` writes for a character that is not NUL. -/
def uSetChar (u : Uchar) : Text :=
  if u ≤ 0x1f then [ch '<', hexTab ((u >>> 4) &&& 0xf), hexTab (u &&& 0xf), ch '>']
  else uSetCharRaw u

def utf16IsSpecial (u : Uchar) : Bool :=
  (0xd800 ≤ u && u ≤ 0xdbff) || (0xdc00 ≤ u && u ≤ 0xdfff) || u == 0xfeff

/-- The loop of `utf16_to_utf8`. A unit of 16 bits is always unicode. -/
def utf16Loop (littleEndian : Bool) : Text → Text
  | a :: b :: rest =>
    let u : Uchar := if littleEndian then a.toUInt32 + (b.toUInt32 <<< 8)
      else b.toUInt32 + (a.toUInt32 <<< 8)
    if u = 0 then []
    else if utf16IsSpecial u then utf16Loop littleEndian rest
    else uSetChar u ++ utf16Loop littleEndian rest
  | _ => []

def utf16ToUtf8 (buf : Text) : Option Text :=
  if buf.length < 2 then none
  else some (utf16Loop (charAt buf 0 == 0xff && charAt buf 1 == 0xfe) buf)

/-- The first error a run meets: a frame without payload in the buffer, or a byte read after
the payload. -/
inductive Fault where
  | noPayload
  | pastPayload
  deriving DecidableEq

section
variable (utf8Encode : Text → Option Text)

def decodeStr (buf : Text) (encoding : Int) : Option Text :=
  if encoding = 0 then utf8Encode (untilNull buf)
  else if encoding = 3 then
    if uIsValid (untilNull buf) then some (untilNull buf) else utf8Encode (untilNull buf)
  else if encoding = 1 ∨ encoding = 2 then utf16ToUtf8 buf
  else none

/-- The search for a NUL of two bytes. -/
def skipWide : Text → Nat
  | a :: b :: rest => if a = 0 ∧ b = 0 then 2 else skipWide rest + 2
  | rest => rest.length

/-- `strlen` reads up to the NUL. -/
def id3Skiplen (buf : Text) (encoding : Int) : Except Fault Nat :=
  if encoding = 0 ∨ encoding = 3 then
    if 0 ∈ buf then .ok ((untilNull buf).length + 1) else .error .pastPayload
  else .ok (skipWide buf)

def qlPrefix : Text := ascii "QuodLibet::"

/-- The descriptions `decode_txxx` knows. -/
def txxxKeys : List Text :=
  [ascii "replaygain_track_gain", ascii "replaygain_track_peak", ascii "replaygain_album_gain",
    ascii "replaygain_album_peak", ascii "album artist", ascii "albumartist",
    ascii "albumartistsort", ascii "albumsort", ascii "compilation"]

/-- The strings that are decoded. -/
def decodeTxxx (buf : Text) (encoding : Int) : Except Fault (List Text) :=
  match decodeStr utf8Encode buf encoding with
  | none => .ok []
  | some out => do
    -- skip braindead QuodLibet TXXX frame prefix
    let key := if qlPrefix.isPrefixOf out then out.drop qlPrefix.length else out
    let size ← id3Skiplen buf encoding
    if txxxKeys.all fun k => strcasecmp key k ≠ 0 then .ok [out]
    else if buf.length ≤ size then .ok [out]
    else .ok (out :: (decodeStr utf8Encode (buf.drop size) encoding).toList)

def validDescription (out : Text) : Bool := out == [] || out == ascii "description"

def decodeComment (buf : Text) (encoding : Int) : Except Fault (List Text) :=
  if buf.length ≤ 3 then .ok []
  else
    -- skip language
    let buf := buf.drop 3
    match decodeStr utf8Encode buf encoding with
    | none => .ok []
    | some out =>
      if !validDescription out then .ok [out]
      else do
        let slen ← id3Skiplen buf encoding
        if slen ≥ buf.length then .ok [out]
        else .ok (out :: (decodeStr utf8Encode (buf.drop slen) encoding).toList)

/-- The ids of `frame_tab`, whose frames `decode_normal` decodes; a name of three characters
ends in a NUL. -/
def frameTab : List Text :=
  ["TDRC", "TDRL", "TDOR", "TSOP", "TSOA", "TPE1", "TALB", "TIT2", "TYER", "TCON", "TPOS", "TRCK",
    "TPE2", "TSO2", "XSOP", "XSOA", "TCMP", "TORY", "TCOM", "TPE3", "TEXT", "TPE4", "TPUB", "TIT3",
    "TMED", "TBPM"].map ascii ++
  ["TP1", "TP2", "TAL", "TT2", "TYE", "TCO", "TPA", "TRK", "TSP", "TS2", "TSA", "TCP", "TBP"].map
    fun name => ascii name ++ [0]

/-- A frame with a payload; `RVA2` and `UFID` frames go to their decoders. -/
def v2AddFrame (id : Text) : Text → Except Fault (List Text)
  | [] => .error .noPayload
  | first :: buf =>
    if id = ascii "RVA2" ∨ id = ascii "UFID" then .ok []
    else
      let encoding := first.toInt8.toInt
      if encoding > 3 then .ok []
      else if id ∈ frameTab then .ok (decodeStr utf8Encode buf encoding).toList
      else if id = ascii "TXXX" then decodeTxxx utf8Encode buf encoding
      else if id.take 3 = ascii "COM" then decodeComment utf8Encode buf encoding
      else .ok []

/-! ### The frame loop -/

/-- One round of `unsync` on each location that is copied. -/
def unsyncLoop : Nat → Text → Text
  | 0, buf => buf
  | fuel + 1, a :: b :: rest =>
    if a = 0xff ∧ b = 0x00 then
      -- 0xff 0x00 -> 0xff
      if 2 < rest.length ∧ charAt rest 0 = 0x00 then 0xff :: 0x00 :: unsyncLoop fuel (rest.drop 1)
      else 0xff :: unsyncLoop fuel rest
    else a :: unsyncLoop fuel (b :: rest)
  | _, buf => buf

def unsync (buf : Text) : Text := unsyncLoop buf.length buf

/-- A frame that was handed over: where its payload starts, and the payload. -/
structure Handed where
  start : Nat
  payload : Text
  decoded : List Text
  deriving DecidableEq

/-- The payload of `size` bytes at `start`, restored in place and handed over. -/
def handPayload (header : V2Header) (fh : V2FrameHeader) (buf : Text) (start : Nat)
    (size : UInt32) :
    Except Fault Handed :=
  let restored := fh.flags &&& frameUnsync ≠ 0 ∨ header.flags &&& headerUnsync ≠ 0
  -- a length that is negative as an int is unsynchronised to 0
  if restored ∧ 2 ^ 31 ≤ size.toNat then .error .noPayload
  else if start + size.toNat > buf.length then .error .noPayload
  else do
    let content := (buf.drop start).take size.toNat
    let payload := if restored then unsync content else content
    let decoded ← v2AddFrame utf8Encode fh.id payload
    .ok ⟨start, payload, decoded⟩

/-- The frame whose content is at `start`; its data-length indicator is skipped. -/
def handOver (header : V2Header) (fh : V2FrameHeader) (buf : Text) (start : Nat) :
    Except Fault Handed :=
  if fh.flags &&& frameLenIndicator ≠ 0 then
    handPayload utf8Encode header fh buf (start + 4) (fh.size - 4)
  else handPayload utf8Encode header fh buf start fh.size

/-- `none` is a loop that has not ended. -/
def frameLoop (header : V2Header) (buf : Text) : Nat → Nat → Option (Except Fault (List Handed))
  | 0, _ => none
  | fuel + 1, i =>
    if i + frameHeaderSize header.verMajor < buf.length then
      match frameHeaderParse header.verMajor (buf.drop i) with
      | none => some (.ok [])
      | some fh =>
        let i := i + frameHeaderSize header.verMajor
        if fh.size.toNat > buf.length - i then some (.ok []) -- frame too big
        else
          match handOver utf8Encode header fh buf i with
          | .error fault => some (.error fault)
          | .ok handed =>
            -- the indicator and the rest of the frame
            (frameLoop header buf fuel (i + fh.size.toNat)).map (·.map (handed :: ·))
    else some (.ok [])

/-- Where the first frame is; `beyond` is what lies behind the buffer, and `none` is a
corrupted extended header. -/
def frameStart (header : V2Header) (buf beyond : Text) : Option Nat :=
  if header.flags &&& headerExtended ≠ 0 then
    match u32Unsync (buf ++ beyond) with
    | none => none
    | some size => if size > buf.length then none else some size
  else some 0

/-- `v2_read` on a tag whose body could be read: what it returns, and the frames it hands
over. -/
def v2Read (header : V2Header) (buf beyond : Text) : Option (Except Fault (Int × List Handed)) :=
  match frameStart header buf beyond with
  | none => some (.ok (-2, []))
  | some start => (frameLoop utf8Encode header buf (buf.length + 1) start).map (·.map ((0, ·)))

/-! ### What a tag has to be -/

/-- The frames of a body: headers with all their content behind them. -/
def tagFrames (verMajor : UInt8) : Nat → Text → List (V2FrameHeader × Text)
  | 0, _ => []
  | fuel + 1, rest =>
    if frameHeaderSize verMajor < rest.length then
      match frameHeaderParse verMajor rest with
      | none => []
      | some fh =>
        let content := rest.drop (frameHeaderSize verMajor)
        if content.length < fh.size.toNat then []
        else
          (fh, content.take fh.size.toNat) ::
            tagFrames verMajor fuel (content.drop fh.size.toNat)
    else []

def frames (header : V2Header) (buf beyond : Text) : List (V2FrameHeader × Text) :=
  match frameStart header buf beyond with
  | none => []
  | some start => tagFrames header.verMajor (buf.length + 1) (buf.drop start)

/-- A description in a one-byte encoding that is looked past ends in the payload. -/
def Terminated (id payload : Text) : Prop :=
  ∀ first text, payload = first :: text → (first = 0 ∨ first = 3) →
    (id = ascii "TXXX" → (decodeStr utf8Encode text first.toInt8.toInt).isSome → 0 ∈ text) ∧
    (id.take 3 = ascii "COM" → 3 < text.length →
      (decodeStr utf8Encode (text.drop 3) first.toInt8.toInt).any validDescription →
        0 ∈ text.drop 3)

/-- More than the data-length indicator, and a description that ends. -/
def Readable (header : V2Header) (f : V2FrameHeader × Text) : Prop :=
  let content := if f.1.flags &&& frameLenIndicator ≠ 0 then f.2.drop 4 else f.2
  let payload :=
    if f.1.flags &&& frameUnsync ≠ 0 ∨ header.flags &&& headerUnsync ≠ 0 then unsync content
    else content
  content ≠ [] ∧ Terminated utf8Encode f.1.id payload

/-! ### One frame -/

theorem unsyncLoop_length (fuel : Nat) (buf : Text) :
    (unsyncLoop fuel buf).length ≤ buf.length ∧ (buf ≠ [] → unsyncLoop fuel buf ≠ []) := by
  induction fuel generalizing buf with
  | zero => exact ⟨le_refl _, id⟩
  | succ fuel ih =>
    cases buf with
    | nil => exact ⟨le_refl _, id⟩
    | cons a buf =>
      cases buf with
      | nil => exact ⟨le_refl _, id⟩
      | cons b rest =>
        rw [unsyncLoop]
        split
        · split
          · have := (ih (rest.drop 1)).1
            rw [List.length_drop] at this
            simp only [List.length_cons, ne_eq, reduceCtorEq, not_false_eq_true, implies_true,
              and_true]
            omega
          · have := (ih rest).1
            simp only [List.length_cons, ne_eq, reduceCtorEq, not_false_eq_true, implies_true,
              and_true]
            omega
        · have := (ih (b :: rest)).1
          rw [List.length_cons] at this
          simp only [List.length_cons, ne_eq, reduceCtorEq, not_false_eq_true, implies_true,
            and_true]
          omega

theorem unsync_length (buf : Text) : (unsync buf).length ≤ buf.length := (unsyncLoop_length _ _).1

theorem unsync_eq_nil {buf : Text} : unsync buf = [] ↔ buf = [] := by
  refine ⟨fun h => ?_, fun h => by rw [h]; rfl⟩
  by_contra hne
  exact (unsyncLoop_length _ _).2 hne h

theorem toInt8_cases (first : UInt8) :
    (first.toInt8.toInt = 0 ∨ first.toInt8.toInt = 3) ↔ (first = 0 ∨ first = 3) :=
  forall_byte (P := fun c => (c.toInt8.toInt = 0 ∨ c.toInt8.toInt = 3) ↔ (c = 0 ∨ c = 3))
    (by decide +kernel) first

theorem id3Skiplen_ok (buf : Text) (encoding : Int) :
    (∃ size, id3Skiplen buf encoding = .ok size) ↔ ((encoding = 0 ∨ encoding = 3) → 0 ∈ buf) := by
  rw [id3Skiplen]
  by_cases hnarrow : encoding = 0 ∨ encoding = 3
  · rw [if_pos hnarrow]
    by_cases hnull : (0 : UInt8) ∈ buf
    · rw [if_pos hnull]
      exact iff_of_true ⟨_, rfl⟩ fun _ => hnull
    · rw [if_neg hnull]
      refine iff_of_false (fun ⟨_, h⟩ => by cases h) fun h => hnull (h hnarrow)
  · rw [if_neg hnarrow]
    exact iff_of_true ⟨_, rfl⟩ fun h => absurd h hnarrow

/-- A decoder goes on after `id3_skiplen` whatever that returns. -/
theorem bind_ok {α β : Type} {x : Except Fault α} {f : α → Except Fault β}
    (hf : ∀ a, ∃ b, f a = .ok b) :
    (∃ b, (x >>= f) = .ok b) ↔ ∃ a, x = .ok a := by
  cases x with
  | error e => exact iff_of_false (fun ⟨_, h⟩ => by cases h) fun ⟨_, h⟩ => by cases h
  | ok a => exact iff_of_true (hf a) ⟨a, rfl⟩

theorem decodeTxxx_ok (buf : Text) (encoding : Int) :
    (∃ out, decodeTxxx utf8Encode buf encoding = .ok out) ↔
      ((decodeStr utf8Encode buf encoding).isSome → (encoding = 0 ∨ encoding = 3) → 0 ∈ buf) := by
  rw [decodeTxxx]
  cases hdecode : decodeStr utf8Encode buf encoding with
  | none => exact iff_of_true ⟨_, rfl⟩ fun h => by cases h
  | some out =>
    dsimp only
    rw [bind_ok, id3Skiplen_ok]
    · exact ⟨fun h _ => h, fun h => h rfl⟩
    · intro size
      split_ifs <;> exact ⟨_, rfl⟩

theorem decodeComment_ok (buf : Text) (encoding : Int) :
    (∃ out, decodeComment utf8Encode buf encoding = .ok out) ↔
      (3 < buf.length → (decodeStr utf8Encode (buf.drop 3) encoding).any validDescription →
        (encoding = 0 ∨ encoding = 3) → 0 ∈ buf.drop 3) := by
  rw [decodeComment]
  by_cases hshort : buf.length ≤ 3
  · rw [if_pos hshort]
    exact iff_of_true ⟨_, rfl⟩ fun h => absurd h (by omega)
  rw [if_neg hshort]
  dsimp only
  have hlong : 3 < buf.length := by omega
  cases hdecode : decodeStr utf8Encode (buf.drop 3) encoding with
  | none => exact iff_of_true ⟨_, rfl⟩ fun _ h => by cases h
  | some out =>
    dsimp only
    by_cases hvalid : validDescription out = true
    · rw [hvalid, if_neg (by decide), bind_ok, id3Skiplen_ok]
      · exact ⟨fun h _ _ => h, fun h => h hlong hvalid⟩
      · intro slen
        split
        · exact ⟨_, rfl⟩
        · exact ⟨_, rfl⟩
    · rw [if_pos (by simpa using hvalid)]
      exact iff_of_true ⟨_, rfl⟩ fun _ h => absurd h hvalid

theorem frameTab_ids : ∀ id ∈ frameTab, id ≠ ascii "TXXX" ∧ id.take 3 ≠ ascii "COM" := by
  decide +kernel

theorem v2AddFrame_ok (id payload : Text) :
    (∃ out, v2AddFrame utf8Encode id payload = .ok out) ↔
      payload ≠ [] ∧ Terminated utf8Encode id payload := by
  cases payload with
  | nil => exact iff_of_false (fun ⟨_, h⟩ => by cases h) fun h => h.1 rfl
  | cons first text =>
    have hterminated : Terminated utf8Encode id (first :: text) ↔
        ((first = 0 ∨ first = 3) →
          (id = ascii "TXXX" → (decodeStr utf8Encode text first.toInt8.toInt).isSome → 0 ∈ text) ∧
          (id.take 3 = ascii "COM" → 3 < text.length →
            (decodeStr utf8Encode (text.drop 3) first.toInt8.toInt).any validDescription →
              0 ∈ text.drop 3)) := by
      refine ⟨fun h => h first text rfl, fun h first' text' heq => ?_⟩
      obtain ⟨rfl, rfl⟩ := List.cons.inj heq
      exact h
    rw [hterminated, v2AddFrame]
    have hne : first :: text ≠ [] := List.cons_ne_nil _ _
    have hother : (id ≠ ascii "TXXX" ∧ id.take 3 ≠ ascii "COM") → ((first = 0 ∨ first = 3) →
        (id = ascii "TXXX" → (decodeStr utf8Encode text first.toInt8.toInt).isSome → 0 ∈ text) ∧
        (id.take 3 = ascii "COM" → 3 < text.length →
          (decodeStr utf8Encode (text.drop 3) first.toInt8.toInt).any validDescription →
            0 ∈ text.drop 3)) :=
      fun hid _ => ⟨fun h => absurd h hid.1, fun h => absurd h hid.2⟩
    by_cases hbinary : id = ascii "RVA2" ∨ id = ascii "UFID"
    · rw [if_pos hbinary]
      refine iff_of_true ⟨_, rfl⟩ ⟨hne, hother ?_⟩
      obtain rfl | rfl := hbinary <;> decide
    rw [if_neg hbinary]
    dsimp only
    by_cases hlarge : first.toInt8.toInt > 3
    · rw [if_pos hlarge]
      refine iff_of_true ⟨_, rfl⟩ ⟨hne, fun hfirst => ?_⟩
      have := (toInt8_cases first).mpr hfirst
      omega
    rw [if_neg hlarge]
    by_cases htab : id ∈ frameTab
    · rw [if_pos htab]
      exact iff_of_true ⟨_, rfl⟩ ⟨hne, hother (frameTab_ids id htab)⟩
    rw [if_neg htab]
    by_cases htxxx : id = ascii "TXXX"
    · rw [if_pos htxxx, decodeTxxx_ok, toInt8_cases]
      have hcom : id.take 3 ≠ ascii "COM" := by
        rw [htxxx]
        decide
      exact ⟨fun h => ⟨hne, fun hfirst => ⟨fun _ hsome => h hsome hfirst, fun h => absurd h hcom⟩⟩,
        fun h hsome hfirst => (h.2 hfirst).1 htxxx hsome⟩
    rw [if_neg htxxx]
    by_cases hcom : id.take 3 = ascii "COM"
    · rw [if_pos hcom, decodeComment_ok, toInt8_cases]
      exact ⟨fun h => ⟨hne, fun hfirst =>
          ⟨fun h => absurd h htxxx, fun _ hlen hvalid => h hlen hvalid hfirst⟩⟩,
        fun h hlen hvalid hfirst => (h.2 hfirst).2 hcom hlen hvalid⟩
    · rw [if_neg hcom]
      exact iff_of_true ⟨_, rfl⟩ ⟨hne, hother ⟨htxxx, hcom⟩⟩

theorem handPayload_outside (header : V2Header) (fh : V2FrameHeader) (buf : Text) (start : Nat)
    (size : UInt32) (h : buf.length < start + size.toNat) :
    handPayload utf8Encode header fh buf start size = .error .noPayload := by
  rw [handPayload]
  dsimp only
  rw [if_pos h]
  split <;> rfl

/-- A payload that is handed over has a byte, and lies in the buffer. -/
theorem handPayload_ok (header : V2Header) (fh : V2FrameHeader) (buf : Text) (start : Nat)
    (size : UInt32) (hinside : start + size.toNat ≤ buf.length) (hsize : buf.length < 2 ^ 28) :
    (∃ h, handPayload utf8Encode header fh buf start size = .ok h) ↔
      (buf.drop start).take size.toNat ≠ [] ∧ Terminated utf8Encode fh.id
        (if fh.flags &&& frameUnsync ≠ 0 ∨ header.flags &&& headerUnsync ≠ 0 then
          unsync ((buf.drop start).take size.toNat) else (buf.drop start).take size.toNat) := by
  rw [handPayload]
  dsimp only
  rw [if_neg fun h => by have := h.2; omega, if_neg (by omega), bind_ok fun _ => ⟨_, rfl⟩,
    v2AddFrame_ok]
  split
  · rw [ne_eq, unsync_eq_nil]
  · rfl

theorem handOver_ok (header : V2Header) (fh : V2FrameHeader) (buf : Text) (start : Nat)
    (hfits : fh.size.toNat ≤ buf.length - start) (hstart : start ≤ buf.length)
    (hsize : buf.length < 2 ^ 28) :
    (∃ h, handOver utf8Encode header fh buf start = .ok h) ↔
      Readable utf8Encode header (fh, (buf.drop start).take fh.size.toNat) := by
  rw [handOver, Readable]
  by_cases hskipped : fh.flags &&& frameLenIndicator ≠ 0
  · simp only [if_pos hskipped]
    have hsub : (fh.size - 4).toNat = (2 ^ 32 - 4 + fh.size.toNat) % 2 ^ 32 := by
      rw [UInt32.toNat_sub]
      rfl
    by_cases hshort : fh.size.toNat < 4
    · -- the size wraps around
      have hempty : ((buf.drop start).take fh.size.toNat).drop 4 = [] :=
        List.drop_eq_nil_of_le (by rw [List.length_take]; omega)
      rw [hempty, handPayload_outside _ _ _ _ _ _ (by omega)]
      exact iff_of_false (fun ⟨_, h⟩ => by cases h) fun h => h.1 rfl
    · have hsize' : (fh.size - 4).toNat = fh.size.toNat - 4 := by omega
      have hpayload : (buf.drop (start + 4)).take (fh.size.toNat - 4) =
          ((buf.drop start).take fh.size.toNat).drop 4 := by
        rw [List.drop_take, List.drop_drop]
      rw [handPayload_ok _ _ _ _ _ _ (by omega) hsize, hsize', hpayload]
  · simp only [if_neg hskipped]
    exact handPayload_ok _ _ _ _ _ _ (by omega) hsize

/-- What a frame that was handed over is. -/
def Handed.Inside (buf : Text) (h : Handed) : Prop :=
  h.payload ≠ [] ∧ h.start + h.payload.length ≤ buf.length

theorem handPayload_inside {header : V2Header} {fh : V2FrameHeader} {buf : Text} {start : Nat}
    {size : UInt32} {h : Handed} (hok : handPayload utf8Encode header fh buf start size = .ok h) :
    h.Inside buf := by
  rw [handPayload] at hok
  dsimp only at hok
  split at hok
  · cases hok
  split at hok
  · cases hok
  next hinside =>
  have hlen : ((buf.drop start).take size.toNat).length ≤ size.toNat := List.length_take_le _ _
  have hunsync := unsync_length ((buf.drop start).take size.toNat)
  generalize hpayload : (if fh.flags &&& frameUnsync ≠ 0 ∨ header.flags &&& headerUnsync ≠ 0 then
    unsync ((buf.drop start).take size.toNat)
    else (buf.drop start).take size.toNat) = payload at hok
  have hle : payload.length ≤ size.toNat := by
    rw [← hpayload]
    split <;> omega
  cases hadd : v2AddFrame utf8Encode fh.id payload with
  | error e =>
    rw [hadd] at hok
    cases hok
  | ok decoded =>
    rw [hadd] at hok
    obtain rfl := Except.ok.inj hok
    refine ⟨((v2AddFrame_ok utf8Encode fh.id payload).mp ⟨decoded, hadd⟩).1, ?_⟩
    show start + payload.length ≤ buf.length
    omega

theorem handOver_inside {header : V2Header} {fh : V2FrameHeader} {buf : Text} {start : Nat}
    {h : Handed}
    (hok : handOver utf8Encode header fh buf start = .ok h) : h.Inside buf := by
  rw [handOver] at hok
  split at hok
  · exact handPayload_inside utf8Encode hok
  · exact handPayload_inside utf8Encode hok

/-! ### The loop -/

/-- What is said of the loop: it ends, it ends well exactly if these frames can be read, and
then every frame it handed over lies in the buffer. -/
def Ends (header : V2Header) (buf : Text) (frames : List (V2FrameHeader × Text))
    (r : Option (Except Fault (List Handed))) : Prop :=
  ∃ outcome, r = some outcome ∧
    ((∃ handed, outcome = .ok handed) ↔ ∀ f ∈ frames, Readable utf8Encode header f) ∧
    ∀ handed, outcome = .ok handed → ∀ h ∈ handed, h.Inside buf

theorem ends_nothing (header : V2Header) (buf : Text) :
    Ends utf8Encode header buf [] (some (.ok [])) := by
  refine ⟨_, rfl, iff_of_true ⟨_, rfl⟩ fun f hf => (by cases hf), fun handed heq => ?_⟩
  obtain rfl := Except.ok.inj heq
  exact fun h hh => by cases hh

theorem frameHeaderSize_pos (verMajor : UInt8) : 0 < frameHeaderSize verMajor := by
  rw [frameHeaderSize]
  split <;> decide

theorem frameLoop_spec (header : V2Header) (buf : Text) (hsize : buf.length < 2 ^ 28) (fuel i : Nat)
    (hfuel : buf.length < fuel + i) (hi : i ≤ buf.length) :
    Ends utf8Encode header buf (tagFrames header.verMajor fuel (buf.drop i))
      (frameLoop utf8Encode header buf fuel i) := by
  have hheader := frameHeaderSize_pos header.verMajor
  induction fuel generalizing i with
  | zero => omega
  | succ fuel ih =>
    rw [frameLoop, tagFrames, List.length_drop]
    by_cases hroom : i + frameHeaderSize header.verMajor < buf.length
    · rw [if_pos hroom, if_pos (by omega)]
      cases hparse : frameHeaderParse header.verMajor (buf.drop i) with
      | none => exact ends_nothing utf8Encode header buf
      | some fh =>
        dsimp only
        rw [List.drop_drop, List.length_drop]
        by_cases hbig : fh.size.toNat > buf.length - (i + frameHeaderSize header.verMajor)
        · rw [if_pos hbig, if_pos hbig]
          exact ends_nothing utf8Encode header buf
        rw [if_neg hbig, if_neg hbig, List.drop_drop]
        have hover := handOver_ok utf8Encode header fh buf (i + frameHeaderSize header.verMajor)
          (by omega) (by omega) hsize
        cases hhanded : handOver utf8Encode header fh buf (i + frameHeaderSize header.verMajor) with
        | error fault =>
          refine ⟨_, rfl, iff_of_false (fun ⟨_, h⟩ => (by cases h)) fun hall => ?_,
            fun _ h => (by cases h)⟩
          obtain ⟨h, hok⟩ := hover.mpr (hall _ List.mem_cons_self)
          rw [hhanded] at hok
          cases hok
        | ok handed =>
          have hreadable := hover.mp ⟨handed, hhanded⟩
          obtain ⟨outcome, hrest, hiff, hinside⟩ :=
            ih (i + frameHeaderSize header.verMajor + fh.size.toNat) (by omega) (by omega)
          dsimp only
          rw [hrest, Option.map_some]
          refine ⟨_, rfl, ?_, ?_⟩
          · rw [List.forall_mem_cons, ← hiff]
            cases outcome with
            | error fault =>
              exact iff_of_false (fun ⟨_, h⟩ => (by cases h)) fun ⟨_, _, h⟩ => (by cases h)
            | ok rest => exact iff_of_true ⟨_, rfl⟩ ⟨hreadable, _, rfl⟩
          · intro all hall
            cases outcome with
            | error fault => cases hall
            | ok rest =>
              obtain rfl := Except.ok.inj hall
              intro h hh
              obtain rfl | hh := List.mem_cons.mp hh
              · exact handOver_inside utf8Encode hhanded
              · exact hinside rest rfl h hh
    · rw [if_neg hroom, if_neg (by omega)]
      exact ends_nothing utf8Encode header buf

theorem frameStart_le {header : V2Header} {buf beyond : Text} {start : Nat}
    (h : frameStart header buf beyond = some start) : start ≤ buf.length := by
  rw [frameStart] at h
  split at h
  · split at h
    · cases h
    · split at h
      · cases h
      · obtain rfl := Option.some.inj h
        omega
  · obtain rfl := Option.some.inj h
    exact Nat.zero_le _

/-- For every header and every body of the size it announces: the loop ends, and every frame
is handed over with a payload in the buffer that its decoder stays within, exactly if every
frame has more than its data-length indicator and every description that is looked past ends
in its frame. -/
theorem v2_read_inside (header : V2Header) (buf beyond : Text) (hbody : buf.length = header.size) :
    ∃ outcome, v2Read utf8Encode header buf beyond = some outcome ∧
      ((∃ rc handed, outcome = .ok (rc, handed) ∧ ∀ h ∈ handed, h.Inside buf) ↔
        ∀ f ∈ frames header buf beyond, Readable utf8Encode header f) := by
  have hsize : buf.length < 2 ^ 28 := hbody ▸ header.size_lt
  rw [v2Read, frames]
  cases hstart : frameStart header buf beyond with
  | none =>
    exact ⟨_, rfl, iff_of_true ⟨-2, [], rfl, fun h hh => (by cases hh)⟩ fun f hf => (by cases hf)⟩
  | some start =>
    obtain ⟨outcome, houtcome, hiff, hinside⟩ := frameLoop_spec utf8Encode header buf hsize
      (buf.length + 1) start (by omega) (frameStart_le hstart)
    dsimp only
    rw [houtcome, Option.map_some, ← hiff]
    refine ⟨_, rfl, ?_⟩
    cases outcome with
    | error fault =>
      exact iff_of_false (fun ⟨_, _, h, _⟩ => (by cases h)) fun ⟨_, h⟩ => (by cases h)
    | ok handed => exact iff_of_true ⟨0, handed, rfl, hinside handed rfl⟩ ⟨handed, rfl⟩

end

/-- A 2.4 frame that is nothing but its data-length indicator. -/
def indicatorOnly : Text := ascii "TIT2" ++ [0, 0, 0, 4, 0, 1, 0, 0, 0, 3, 0]

/-- A 2.4 frame whose description does not end. -/
def openDescription : Text := ascii "TXXX" ++ [0, 0, 0, 3, 0, 0, 0] ++ ascii "ab"

theorem v2_read_outside :
    (¬ ∃ r, v2Read some ⟨4, 0, 0, 15, by decide⟩ indicatorOnly [] = some (.ok r)) ∧
      ¬ ∃ r, v2Read some ⟨4, 0, 0, 13, by decide⟩ openDescription [] = some (.ok r) := by
  have hindicator : (v2Read some ⟨4, 0, 0, 15, by decide⟩ indicatorOnly []).map Except.toOption =
      some none := by
    decide +kernel
  have hopen : (v2Read some ⟨4, 0, 0, 13, by decide⟩ openDescription []).map Except.toOption =
      some none := by
    decide +kernel
  refine ⟨fun ⟨r, hr⟩ => ?_, fun ⟨r, hr⟩ => ?_⟩
  · rw [hr] at hindicator
    cases hindicator
  · rw [hr] at hopen
    cases hopen

/-- A description that ends, and a value. -/
def closedDescription : Text := ascii "TXXX" ++ [0, 0, 0, 5, 0, 0, 0, 97, 0, 98, 99, 0]

theorem v2_read_inside_closed :
    ∃ rc handed, v2Read some ⟨4, 0, 0x80, 16, by decide⟩ closedDescription [] =
      some (.ok (rc, handed)) ∧
      ∀ h ∈ handed, h.Inside closedDescription := by
  obtain ⟨outcome, houtcome, hiff⟩ :=
    v2_read_inside some ⟨4, 0, 0x80, 16, by decide⟩ closedDescription [] rfl
  have hframes : frames ⟨4, 0, 0x80, 16, by decide⟩ closedDescription [] =
      [(⟨ascii "TXXX", 5, 0⟩, [0, 97, 0, 98, 99])] := by
    decide +kernel
  obtain ⟨rc, handed, rfl, hinside⟩ := hiff.mpr fun f hf => by
    rw [hframes, List.mem_singleton] at hf
    subst hf
    refine ⟨by decide, fun first text heq _ => ?_⟩
    obtain ⟨rfl, rfl⟩ := List.cons.inj (show [0, 97, 0, 98, 99] = first :: text from heq)
    exact ⟨fun _ _ => by decide, fun h => absurd h (by decide)⟩
  exact ⟨rc, handed, houtcome, hinside⟩

end GracefulMusic.Id3
