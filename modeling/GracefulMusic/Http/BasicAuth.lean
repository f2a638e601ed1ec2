import GracefulMusic.Foundation.Base64
import GracefulMusic.Foundation.Blocks
import GracefulMusic.Text

/-! Basic authentication (`http.c`, `input.c`).

`base64_encode` fills a buffer of the right size. `key_value_add_basic_auth` puts both the
credentials and the header value into one of 256 bytes, and `snprintf` cuts what is longer. -/
namespace GracefulMusic.Http
open Memory

/-! ### The encoder -/

/-- `t` -/
def table : Text := ascii "ABCDEFGHIJKLMNOPQRSTUVWXYZabcdefghijklmnopqrstuvwxyz0123456789+/"

/-- `buf` and `d`. -/
structure Out where
  buf : Block UInt8
  d : Nat

/-- `buf[d++] = c`, undefined behind the end of `buf`. -/
def Out.put (o : Out) (c : UInt8) : Option Out := (o.buf.write o.d c).map fun buf => ⟨buf, o.d + 1⟩

/-- `buf[d++] = t[i]` -/
def Out.putDigit (o : Out) (i : Nat) : Option Out := table[i]?.bind o.put

/-- Whole groups, and the rest of the string. -/
def encodeGroups : Nat → Text → Out → Option (Text × Out)
  | 0, str, o => some (str, o)
  | i + 1, b0 :: b1 :: b2 :: str, o => do
    let o ← o.putDigit (b0.toNat >>> 2)
    let o ← o.putDigit ((b0.toNat <<< 4 ||| b1.toNat >>> 4) &&& 0x3f)
    let o ← o.putDigit ((b1.toNat <<< 2 ||| b2.toNat >>> 6) &&& 0x3f)
    let o ← o.putDigit (b2.toNat &&& 0x3f)
    encodeGroups i str o
  | _ + 1, _, _ => none

def encodeRest (str : Text) (o : Out) : Option Out :=
  match str with
  | [b0, b1] => do
    let o ← o.putDigit (b0.toNat >>> 2)
    let o ← o.putDigit ((b0.toNat <<< 4 ||| b1.toNat >>> 4) &&& 0x3f)
    let o ← o.putDigit ((b1.toNat <<< 2) &&& 0x3f)
    o.put (ch '=')
  | [b0] => do
    let o ← o.putDigit (b0.toNat >>> 2)
    let o ← o.putDigit ((b0.toNat <<< 4) &&& 0x3f)
    let o ← o.put (ch '=')
    o.put (ch '=')
  | _ => some o

/-- The bytes up to the terminator. -/
def cString : Block UInt8 → Option Text
  | some c :: buf => if c = 0 then some [] else (cString buf).map (c :: ·)
  | _ => none

def base64Encode (str : Text) : Option Text := do
  let bufLen := (str.length + 2) / 3 * 4 + 1
  let (rest, o) ← encodeGroups (str.length / 3) str ⟨.malloc bufLen, 0⟩
  let o ← encodeRest rest o
  let o ← o.put 0
  cString o.buf

/-! ### The header -/

def snprintf (size : Nat) (s : Text) : Text := s.take (size - 1)

/-- The value of the header. -/
def keyValueAddBasicAuth (user pass : Text) : Option Text := do
  let buf := snprintf 256 (user ++ ch ':' :: pass)
  let encoded ← base64Encode buf
  some (snprintf 256 (ascii "Basic " ++ encoded))

/-! ### What the encoder writes -/

/-- `buf` holds `text` up to `d`, with room for `bufLen`. -/
structure Filled (bufLen : Nat) (text : Text) (o : Out) : Prop where
  starts : o.buf.Starts text
  pos : o.d = text.length
  size : o.buf.length = bufLen

variable {bufLen : Nat} {text : Text} {o : Out}

theorem Filled.put (h : Filled bufLen text o) (hroom : text.length < bufLen) (c : UInt8) :
    ∃ o', o.put c = some o' ∧ Filled bufLen (text ++ [c]) o' := by
  obtain ⟨buf, hwrite, hstarts, hlength⟩ := h.starts.write (h.size ▸ hroom) c
  refine ⟨⟨buf, o.d + 1⟩, ?_, hstarts, ?_, hlength.trans h.size⟩
  · rw [Out.put, h.pos, hwrite, Option.map_some]
  · rw [h.pos, List.length_append, List.length_singleton]

theorem table_digit {i : Nat} (hi : i < 64) : table[i]? = some (Base64.digit i) := by
  have hall : ∀ i : Fin 64, table[i.val]? = some (Base64.digit i) := by decide +kernel
  exact hall ⟨i, hi⟩

/-- Bytes put one after the other. -/
def Out.putAll (o : Out) (cs : Text) : Option Out := cs.foldlM Out.put o

theorem Filled.putAll (h : Filled bufLen text o) {cs : Text}
    (hroom : text.length + cs.length ≤ bufLen) :
    ∃ o', o.putAll cs = some o' ∧ Filled bufLen (text ++ cs) o' := by
  induction cs generalizing text o with
  | nil => exact ⟨o, rfl, by simpa using h⟩
  | cons c cs ih =>
    simp only [List.length_cons] at hroom
    obtain ⟨o₁, hput, h₁⟩ := h.put (by omega) c
    obtain ⟨o', hall, h'⟩ := ih h₁ (by simp; omega)
    exact ⟨o', by simp [Out.putAll, hput] at hall ⊢; exact hall, by simpa using h'⟩

/-! ### Six bits -/

theorem and_63 (n : Nat) : n &&& 0x3f = n % 64 := Nat.and_two_pow_sub_one_eq_mod n 6

theorem shift_or {m n i : Nat} (h : n < 2 ^ i) : m <<< i ||| n = m * 2 ^ i + n := by
  rw [← Nat.shiftLeft_add_eq_or_of_lt h, Nat.shiftLeft_eq]

/-- The digits of three bytes. -/
theorem sixBits (b0 b1 b2 : UInt8) :
    b0.toNat >>> 2 = Base64.group b0 b1 b2 / 2 ^ 18 % 64 ∧
    (b0.toNat <<< 4 ||| b1.toNat >>> 4) &&& 0x3f = Base64.group b0 b1 b2 / 2 ^ 12 % 64 ∧
    (b1.toNat <<< 2 ||| b2.toNat >>> 6) &&& 0x3f = Base64.group b0 b1 b2 / 2 ^ 6 % 64 ∧
    b2.toNat &&& 0x3f = Base64.group b0 b1 b2 / 2 ^ 0 % 64 := by
  have h0 := b0.toNat_lt
  have h1 := b1.toNat_lt
  have h2 := b2.toNat_lt
  have hmiddle : b1.toNat >>> 4 < 2 ^ 4 := by
    rw [Nat.shiftRight_eq_div_pow]
    omega
  have hright : b2.toNat >>> 6 < 2 ^ 2 := by
    rw [Nat.shiftRight_eq_div_pow]
    omega
  rw [shift_or hmiddle, shift_or hright]
  simp only [and_63, Nat.shiftRight_eq_div_pow, Base64.group]
  refine ⟨?_, ?_, ?_, ?_⟩
  all_goals omega

theorem putDigit_eq {i n j : Nat} (h : i = n / 2 ^ (6 * j) % 64) (o : Out) :
    o.putDigit i = o.put (Base64.digitAt n j) := by
  have hi : i < 64 := h ▸ Nat.mod_lt _ (by decide)
  rw [Out.putDigit, table_digit hi, Option.bind_some, Base64.digitAt, h]

theorem encodeGroups_cons (i : Nat) (b0 b1 b2 : UInt8) (str : Text) (o : Out) :
    encodeGroups (i + 1) (b0 :: b1 :: b2 :: str) o =
      (o.putAll [Base64.digitAt (Base64.group b0 b1 b2) 3, Base64.digitAt (Base64.group b0 b1 b2) 2,
        Base64.digitAt (Base64.group b0 b1 b2) 1, Base64.digitAt (Base64.group b0 b1 b2) 0]).bind
        (encodeGroups i str) := by
  obtain ⟨h3, h2, h1, h0⟩ := sixBits b0 b1 b2
  simp [encodeGroups, Out.putAll, putDigit_eq (j := 3) h3, putDigit_eq (j := 2) h2,
    putDigit_eq (j := 1) h1, putDigit_eq (j := 0) h0, Option.bind_assoc]

theorem encodeRest_eq {str : Text} (h : str.length < 3) (o : Out) :
    encodeRest str o = o.putAll (Base64.encode str) := by
  match str, h with
  | [], _ => rfl
  | [b0], _ =>
    obtain ⟨h3, h2, -⟩ := sixBits b0 0 0
    rw [UInt8.toNat_zero, Nat.zero_shiftRight, Nat.or_zero] at h2
    simp [encodeRest, Out.putAll, Base64.encode, putDigit_eq (j := 3) h3, putDigit_eq (j := 2) h2]
    rfl
  | [b0, b1], _ =>
    obtain ⟨h3, h2, h1, -⟩ := sixBits b0 b1 0
    rw [UInt8.toNat_zero, Nat.zero_shiftRight, Nat.or_zero] at h1
    simp [encodeRest, Out.putAll, Base64.encode, putDigit_eq (j := 3) h3, putDigit_eq (j := 2) h2,
      putDigit_eq (j := 1) h1]
    rfl

/-- Group by group and then the rest, the loop writes the encoding. -/
theorem encode_spec {str : Text} (h : Filled bufLen text o)
    (hroom : text.length + (Base64.encode str).length ≤ bufLen) :
    ∃ rest o₁ o', encodeGroups (str.length / 3) str o = some (rest, o₁) ∧
      encodeRest rest o₁ = some o' ∧ Filled bufLen (text ++ Base64.encode str) o' := by
  induction str using Base64.encode.induct generalizing text o with
  | case1 | case2 _ | case3 _ _ =>
    obtain ⟨o', hput, h'⟩ := h.putAll hroom
    exact ⟨_, o, o', by simp [encodeGroups], (encodeRest_eq (by simp) o).trans hput, h'⟩
  | case4 b0 b1 b2 str ih =>
    rw [Base64.encode, List.length_cons, List.length_cons, List.length_cons, List.length_cons] at hroom
    have hfour : text.length + [Base64.digitAt (Base64.group b0 b1 b2) 3,
        Base64.digitAt (Base64.group b0 b1 b2) 2, Base64.digitAt (Base64.group b0 b1 b2) 1,
        Base64.digitAt (Base64.group b0 b1 b2) 0].length ≤ bufLen := by
      simp
      omega
    obtain ⟨o₁, hput, h₁⟩ := h.putAll hfour
    obtain ⟨rest, o₂, o', hgroups, hrest, h'⟩ := ih h₁ (by simp; omega)
    have hlength : (b0 :: b1 :: b2 :: str).length / 3 = str.length / 3 + 1 := by
      simp only [List.length_cons]
      omega
    refine ⟨rest, o₂, o', ?_, hrest, ?_⟩
    · rw [hlength, encodeGroups_cons, hput, Option.bind_some, hgroups]
    · simpa [Base64.encode] using h'

theorem cString_starts {buf : Block UInt8} (h : buf.Starts (text ++ [0])) (hzero : 0 ∉ text) :
    cString buf = some text := by
  obtain ⟨spare, rfl⟩ := h
  induction text with
  | nil => rfl
  | cons c text ih =>
    simp only [List.mem_cons, not_or] at hzero
    rw [List.cons_append, List.map_cons, List.cons_append, cString, if_neg (Ne.symm hzero.1),
      ih hzero.2, Option.map_some]

/-- The encoding, whatever the string, and no write is outside of the buffer. -/
theorem base64Encode_eq (str : Text) : base64Encode str = some (Base64.encode str) := by
  have hlength := Base64.length_encode str
  have hempty : Filled ((str.length + 2) / 3 * 4 + 1) [] ⟨.malloc _, 0⟩ :=
    ⟨Block.starts_nil, rfl, List.length_replicate⟩
  have hroom : ([] : Text).length + (Base64.encode str).length ≤ (str.length + 2) / 3 * 4 + 1 := by
    simp
    omega
  obtain ⟨rest, o₁, o₂, hgroups, hrest, h₂⟩ := encode_spec hempty hroom
  obtain ⟨o', hput, h'⟩ := h₂.put (by simp; omega) 0
  have hstring := cString_starts h'.starts (Base64.zero_notMem_encode str)
  simp only [base64Encode, hgroups, hrest, hput, Option.bind_eq_bind, Option.bind_some, hstring,
    List.nil_append]

/-! ### What the header carries -/

/-- The credentials that are to be encoded. -/
def credentials (user pass : Text) : Text := user ++ ch ':' :: pass

/-- What is behind the scheme, decoded. -/
def decodedCredentials (value : Text) : Option Text :=
  if ascii "Basic " <+: value then Base64.decode (value.drop 6) else none

theorem keyValueAddBasicAuth_eq (user pass : Text) : keyValueAddBasicAuth user pass =
    some ((ascii "Basic " ++ Base64.encode ((credentials user pass).take 255)).take 255) := by
  simp [keyValueAddBasicAuth, base64Encode_eq, snprintf, credentials]

/-- 186 bytes are 248 digits, and with the scheme 254 bytes. -/
theorem take_scheme_iff (text : Text) :
    (ascii "Basic " ++ Base64.encode (text.take 255)).take 255 =
      ascii "Basic " ++ Base64.encode text ↔ text.length ≤ 186 := by
  have hscheme : (ascii "Basic ").length = 6 := rfl
  constructor
  · intro h
    have hlength := congrArg List.length h
    have hcut := List.length_take_le 255 (ascii "Basic " ++ Base64.encode (text.take 255))
    rw [h, List.length_append, Base64.length_encode, hscheme] at hcut
    omega
  · intro h
    have hall : text.take 255 = text := List.take_of_length_le (by omega)
    rw [hall, List.take_of_length_le]
    rw [List.length_append, Base64.length_encode, hscheme]
    omega

theorem decodedCredentials_scheme (text : Text) :
    decodedCredentials (ascii "Basic " ++ text) = Base64.decode text := by
  rw [decodedCredentials, if_pos (List.prefix_append _ _)]
  rfl

/-- What is longer is cut in the middle of a group. -/
theorem decode_cut {text : Text} (hlong : 186 < text.length) :
    decodedCredentials ((ascii "Basic " ++ Base64.encode (text.take 255)).take 255) = none := by
  have hcut : (ascii "Basic " ++ Base64.encode (text.take 255)).take 255 =
      ascii "Basic " ++ (Base64.encode (text.take 255)).take 249 := by
    rw [List.take_append]
    rfl
  rw [hcut, decodedCredentials_scheme, Option.eq_none_iff_forall_not_mem]
  intro bytes hdecoded
  have hgroups := Base64.length_of_decode hdecoded
  rw [List.length_take, Base64.length_encode, List.length_take] at hgroups
  omega

/-- The header carries the credentials, and a server decodes them from it, if and only if they
have at most 186 bytes with the colon. -/
theorem basicAuth_iff (user pass : Text) :
    (keyValueAddBasicAuth user pass =
        some (ascii "Basic " ++ Base64.encode (credentials user pass)) ↔
      user.length + 1 + pass.length ≤ 186) ∧
    ((keyValueAddBasicAuth user pass).bind decodedCredentials = some (credentials user pass) ↔
      user.length + 1 + pass.length ≤ 186) := by
  have hlength : (credentials user pass).length = user.length + 1 + pass.length := by
    simp [credentials]
    omega
  have hvalue := keyValueAddBasicAuth_eq user pass
  have hencoded := take_scheme_iff (credentials user pass)
  rw [hlength] at hencoded
  rw [hvalue, Option.some.injEq, Option.bind_some]
  refine ⟨hencoded, fun h => ?_, fun h => ?_⟩
  · by_contra hlong
    rw [decode_cut (by omega)] at h
    cases h
  · rw [hencoded.mpr h, decodedCredentials_scheme, Base64.decode_encode]

/-- A password of 200 letters does not arrive. -/
theorem basicAuth_cut :
    keyValueAddBasicAuth (ascii "user") (List.replicate 200 (ch 'p')) ≠
        some (ascii "Basic " ++
          Base64.encode (credentials (ascii "user") (List.replicate 200 (ch 'p')))) ∧
      (keyValueAddBasicAuth (ascii "user") (List.replicate 200 (ch 'p'))).bind
        decodedCredentials = none := by
  have hlength : (credentials (ascii "user") (List.replicate 200 (ch 'p'))).length = 205 := by
    rw [credentials, List.length_append, List.length_cons, List.length_replicate]
    rfl
  rw [keyValueAddBasicAuth_eq, Option.bind_some, ne_eq, Option.some.injEq]
  exact ⟨fun h => absurd ((take_scheme_iff _).mp h) (by omega), decode_cut (by omega)⟩

example : keyValueAddBasicAuth (ascii "Aladdin") (ascii "open sesame") =
    some (ascii "Basic QWxhZGRpbjpvcGVuIHNlc2FtZQ==") := by
  rw [keyValueAddBasicAuth_eq]
  decide +kernel

end GracefulMusic.Http
