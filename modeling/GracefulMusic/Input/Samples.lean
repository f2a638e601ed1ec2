import GracefulMusic.Text

/-! Sample formats (`sf.h`), and the format of the playback buffer (`player.c`).

`WORDS_BIGENDIAN` is taken to be defined on big-endian machines, which is what it stands
for; the machine is a parameter. -/
namespace GracefulMusic.Samples

inductive Endian where
  | little | big
  deriving DecidableEq

abbrev SampleFormat := UInt32

def sfBigendianMask : UInt32 := 0x00000001
def sfSignedMask : UInt32 := 0x00000002
def sfBitsMask : UInt32 := 0x00000038
def sfRateMask : UInt32 := 0x00ffffc0
def sfChannelsMask : UInt32 := 0xff000000

def sfGetBigendian (sf : SampleFormat) : Nat := ((sf &&& sfBigendianMask) >>> 0).toNat
def sfGetSigned (sf : SampleFormat) : Nat := ((sf &&& sfSignedMask) >>> 1).toNat
def sfGetBits (sf : SampleFormat) : Nat := ((sf &&& sfBitsMask) >>> 0).toNat
def sfGetChannels (sf : SampleFormat) : Nat := ((sf &&& sfChannelsMask) >>> 24).toNat

def sfBigendian (val : UInt32) : UInt32 := (val <<< 0) &&& sfBigendianMask
def sfSigned (val : UInt32) : UInt32 := (val <<< 1) &&& sfSignedMask
def sfBits (val : UInt32) : UInt32 := (val <<< 0) &&& sfBitsMask
def sfChannels (val : UInt32) : UInt32 := (val <<< 24) &&& sfChannelsMask

def sfHostEndian : Endian → UInt32
  | .big => sfBigendian 1
  | .little => sfBigendian 0

def sfGetSampleSize (sf : SampleFormat) : Nat := sfGetBits sf >>> 3
def sfGetFrameSize (sf : SampleFormat) : Nat := sfGetSampleSize sf * sfGetChannels sf

/-- `buffer_sf` for what `ip_get_sf` says: `ip_read` converts samples to this format. -/
def setBufferSf (host : Endian) (sf : SampleFormat) : SampleFormat :=
  if sfGetChannels sf ≤ 2 ∧ sfGetBits sf ≤ 16 then
    ((sf &&& sfRateMask) ||| (sfChannels 2 ||| sfBits 16 ||| sfSigned 1)) ||| sfHostEndian host
  else sf

theorem sfGetBigendian_lt (sf : SampleFormat) : sfGetBigendian sf < 2 := by
  have h : (sf &&& sfBigendianMask).toNat ≤ 1 := by
    rw [UInt32.toNat_and]
    exact Nat.and_le_right
  rw [sfGetBigendian, UInt32.toNat_shiftRight]
  exact lt_of_le_of_lt (Nat.shiftRight_le _ _) (by omega)

theorem sfGetSigned_lt (sf : SampleFormat) : sfGetSigned sf < 2 := by
  have h : (sf &&& sfSignedMask).toNat ≤ 2 := by
    rw [UInt32.toNat_and]
    exact Nat.and_le_right
  rw [sfGetSigned, UInt32.toNat_shiftRight]
  show _ >>> 1 < 2
  rw [Nat.shiftRight_eq_div_pow]
  omega

/-- The rate does not reach into a field outside its mask. -/
theorem rate_or_and (sf fields mask : UInt32) (h : sfRateMask &&& mask = 0) :
    ((sf &&& sfRateMask) ||| fields) &&& mask = fields &&& mask := by
  have hrate : sf &&& sfRateMask &&& mask = 0 := by rw [UInt32.and_assoc, h, UInt32.and_zero]
  have hsplit : ((sf &&& sfRateMask) ||| fields) &&& mask =
      (sf &&& sfRateMask &&& mask) ||| (fields &&& mask) :=
    UInt32.toBitVec_inj.mp BitVec.and_or_distrib_right
  rw [hsplit, hrate, UInt32.zero_or]

/-- The fields of the format `ip_read` converts to. -/
theorem setBufferSf_fields (host : Endian) {sf : SampleFormat} (h : sfGetChannels sf ≤ 2 ∧
    sfGetBits sf ≤ 16) :
    sfGetChannels (setBufferSf host sf) = 2 ∧ sfGetBits (setBufferSf host sf) = 16 ∧
      sfGetSigned (setBufferSf host sf) = 1 ∧
      sfGetBigendian (setBufferSf host sf) = if host = .big then 1 else 0 := by
  have hfields : setBufferSf host sf = (sf &&& sfRateMask) |||
      ((sfChannels 2 ||| sfBits 16 ||| sfSigned 1) ||| sfHostEndian host) := by
    rw [setBufferSf, if_pos h, UInt32.or_assoc]
  rw [hfields, sfGetChannels, sfGetBits, sfGetSigned, sfGetBigendian,
    rate_or_and _ _ _ (by decide), rate_or_and _ _ _ (by decide), rate_or_and _ _ _ (by decide),
    rate_or_and _ _ _ (by decide)]
  cases host <;> decide

end GracefulMusic.Samples

/-! Conversions to 16-bit stereo (`pcm.c`).

An `int16_t` lies in memory in the machine's byte order. A function that stores into
`dst` returns what it stores; one that works in place returns the buffer. -/
namespace GracefulMusic.Samples

/-- The bytes of a 16-bit word. -/
def bytes16 (order : Endian) (x : UInt16) : Text :=
  let low := UInt8.ofNat (x.toNat % 256)
  let high := UInt8.ofNat (x.toNat / 256)
  match order with
  | .little => [low, high]
  | .big => [high, low]

def word16 (order : Endian) (a b : UInt8) : UInt16 :=
  match order with
  | .little => UInt16.ofNat (a.toNat + 256 * b.toNat)
  | .big => UInt16.ofNat (256 * a.toNat + b.toNat)

/-- The `int16_t`s of a buffer. -/
def load16 (host : Endian) : Text → List Int16
  | a :: b :: rest => (word16 host a b).toInt16 :: load16 host rest
  | _ => []

def store16 (host : Endian) (d : List Int16) : Text := d.flatMap fun x => bytes16 host x.toUInt16

def swapUint16 (x : UInt16) : UInt16 := UInt16.ofNat (x.toNat % 256 * 256 + x.toNat / 256)

section
variable (host : Endian)

def convertU8OneChToS16TwoCh (src : Text) (count : Nat) : Text :=
  store16 host ((src.take count).flatMap fun s =>
    let sample := Int16.ofInt (s.toNat * 256)
    let sample := Int16.ofInt (sample.toInt - 32768)
    [sample, sample])

def convertS8OneChToS16TwoCh (src : Text) (count : Nat) : Text :=
  store16 host ((src.take count).flatMap fun s =>
    let sample := Int16.ofInt (s.toInt8.toInt * 256)
    [sample, sample])

/-- `s` is a pointer to `int8_t` here too. -/
def convertU8TwoChToS16TwoCh (src : Text) (count : Nat) : Text :=
  store16 host ((src.take count).map fun s =>
    let sample := Int16.ofInt (s.toInt8.toInt * 256)
    Int16.ofInt (sample.toInt - 32768))

def convertS8TwoChToS16TwoCh (src : Text) (count : Nat) : Text :=
  store16 host ((src.take count).map fun s => Int16.ofInt (s.toInt8.toInt * 256))

/-- The first `count` words changed in place. -/
def inPlace (f : Int16 → Int16) (buf : Text) (count : Nat) : Text :=
  store16 host (((load16 host buf).take count).map f) ++ buf.drop (2 * count)

def convertU16LeToS16Le : Text → Nat → Text :=
  inPlace host fun b =>
    let sample : Int := b.toUInt16.toNat
    Int16.ofInt (sample - 32768)

def convertU16BeToS16Le : Text → Nat → Text :=
  inPlace host fun b =>
    let u := swapUint16 b.toUInt16
    Int16.ofInt (u.toNat - 32768)

def swapS16ByteOrder : Text → Nat → Text := inPlace host fun b => (swapUint16 b.toUInt16).toInt16

def convert16OneChTo16TwoCh (src : Text) (count : Nat) : Text :=
  store16 host (((load16 host src).take count).flatMap fun s => [s, s])

/-- The index is `((bits >> 2) & 4) | (is_signed << 1) | (channels - 1)`. -/
def pcmConv : List (Option (Text → Nat → Text)) :=
  [some (convertU8OneChToS16TwoCh host), some (convertU8TwoChToS16TwoCh host),
    some (convertS8OneChToS16TwoCh host), some (convertS8TwoChToS16TwoCh host),
    some (convert16OneChTo16TwoCh host), none, some (convert16OneChTo16TwoCh host), none]

/-- The index is `((bits >> 2) & 4) | (is_signed << 1) | bigendian`. -/
def pcmConvInPlace : List (Option (Text → Nat → Text)) :=
  [none, none, none, none, some (convertU16LeToS16Le host), some (convertU16BeToS16Le host)] ++
    match host with
    | .big => [some (swapS16ByteOrder host), none]
    | .little => [none, some (swapS16ByteOrder host)]

end

end GracefulMusic.Samples

/-! Reading samples (`ip_setup` and `ip_read` of `input.c`).

The plugin's `Read` is a parameter, and so is what `select` says. -/
namespace GracefulMusic.Samples

/-- What these functions use of an `InputPlugin`. -/
structure InputPlugin where
  sf : SampleFormat
  eof : Bool
  pcmConvertScale : Nat
  pcmConvert : Option (Text → Nat → Text)
  pcmConvertInPlace : Option (Text → Nat → Text)

/-- The set up of a plugin that has just been opened with a format. A format has at least
one channel. -/
def ipSetup (host : Endian) (sf : SampleFormat) : InputPlugin :=
  let bits := sfGetBits sf
  let isSigned := sfGetSigned sf
  let channels := sfGetChannels sf
  if bits ≤ 16 ∧ channels ≤ 2 then
    let mask := ((bits >>> 2) &&& 4) ||| (isSigned <<< 1)
    { sf, eof := false
      pcmConvert := ((pcmConv host)[mask ||| (channels - 1)]?).join
      pcmConvertInPlace := ((pcmConvInPlace host)[mask ||| sfGetBigendian sf]?).join
      pcmConvertScale := (3 - channels) * (3 - bits / 8) }
  else {sf, eof := false, pcmConvertScale := 1, pcmConvert := none, pcmConvertInPlace := none}

/-- `again` says that `errno` is `EAGAIN` or `EINTR`. -/
inductive Select where
  | failed (again : Bool)
  | timeout
  | ready

/-- What the plugin's `Read` returns: the bytes it put into the buffer, or nothing and a
code. -/
inductive Answer where
  | data (bytes : Text)
  | stopped (rc : Int) (h : rc ≤ 0) (again : Bool)

/-- The `BUG_ON`s. -/
inductive Bug where
  | count
  | partialFrame
  deriving DecidableEq

/-- What `ip_read` returns, and what it stored; `again` says that `errno` is `EAGAIN`. -/
structure Read where
  rc : Int
  again : Bool
  stored : Text
  ip : InputPlugin

/-- `sizeof(tmp)`. -/
def tmpSize : Nat := 8 * 1024

/-- The count the plugin is asked for. -/
def InputPlugin.askedCount (ip : InputPlugin) (count : Nat) : Nat :=
  if ip.pcmConvertScale > 1 then
    let count := count / ip.pcmConvertScale
    if count > tmpSize then tmpSize else count
  else count

/-- What is stored for the bytes the plugin put into `buf`, which is the temporary buffer for
16-bit mono and 8-bit; `tmp` is what that holds otherwise. -/
def InputPlugin.convert (ip : InputPlugin) (tmp buf : Text) : Text :=
  let samples := buf.length / sfGetSampleSize ip.sf
  let buf := (ip.pcmConvertInPlace.map fun f => f buf samples).getD buf
  let tmp := if ip.pcmConvertScale > 1 then buf else tmp
  let stored := if ip.pcmConvertScale > 1 then [] else buf
  (ip.pcmConvert.map fun f => f tmp samples).getD stored

/-- `tmp` is what its memory holds before. -/
def ipRead (ip : InputPlugin) (tmp : Text) (count : Nat) (select : Select) (read : Nat → Answer) :
    Except Bug Read :=
  if count = 0 then .error .count
  else
    match select with
    | .failed again => .ok ⟨-1, again, [], ip⟩
    | .timeout => .ok ⟨-1, true, [], ip⟩
    | .ready =>
      match read (ip.askedCount count) with
      | .stopped rc _ again =>
        if rc = -1 ∧ again then .ok ⟨-1, true, [], ip⟩ else .ok ⟨rc, again, [],
          {ip with eof := true}⟩
      | .data [] => .ok ⟨0, false, [], {ip with eof := true}⟩
      | .data (byte :: bytes) =>
        let buf := byte :: bytes
        if buf.length % sfGetFrameSize ip.sf ≠ 0 then .error .partialFrame
        else .ok ⟨(buf.length * ip.pcmConvertScale : Nat), false, ip.convert tmp buf, ip⟩

end GracefulMusic.Samples
