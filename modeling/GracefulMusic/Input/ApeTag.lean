import GracefulMusic.Text
import Mathlib.Data.Nat.Find

/-! The search for an APE tag (`find_ape_tag_slow` in `ape.c`).

The file comes in pieces of any size up to that of the buffer, and a `read` that was
interrupted is tried again. A position that does not fit in an `int` is no result. After a
byte that does not match the search starts over at the next byte. -/
namespace GracefulMusic.Ape

def preamble : Text := ascii "APETAGEX"

def preambleSize : Nat := 8

/-- What `read` gives. -/
inductive ReadResult where
  | got (chunk : Text)
  | again

/-- The reads give the file in pieces. -/
inductive Delivers : List ReadResult → Text → Prop where
  | eof : Delivers [] []
  | again {reads : List ReadResult} {data : Text} :
      Delivers reads data → Delivers (.again :: reads) data
  | got {reads : List ReadResult} {chunk data : Text} : chunk ≠ [] → chunk.length ≤ 4096 →
      Delivers reads data → Delivers (.got chunk :: reads) (chunk ++ data)

/-- Either the last byte of the preamble was read, or so many bytes match. -/
inductive Scan where
  | header (i : Nat)
  | going (matched : Nat)
  deriving DecidableEq

/-- The loop over a piece from its byte `i` on. -/
def scanChunk (matched i : Nat) : Text → Scan
  | [] => .going matched
  | c :: rest =>
    if c ≠ preamble.getD matched 0 then scanChunk 0 (i + 1) rest
    else if matched + 1 = preambleSize then .header i
    else scanChunk (matched + 1) (i + 1) rest

def findLoop (matched : Nat) (pos : Int) : List ReadResult → Option Int
  | [] => some (-1)
  | .again :: reads => findLoop matched pos reads
  | .got chunk :: reads =>
    match scanChunk matched 0 chunk with
    | .header i => if pos + i + 1 ≤ intMax then some (pos + i + 1 - preambleSize) else none
    | .going matched =>
      if pos + chunk.length ≤ intMax then findLoop matched (pos + chunk.length) reads else none

/-- The position of the header or -1. -/
def findApeTagSlow (reads : List ReadResult) : Option Int := findLoop 0 0 reads

example : findApeTagSlow [.got (ascii "xAPE"), .again, .got (ascii "TAGEXy")] = some 1 := by decide

/-! ### The pieces make no difference -/

def Scan.shift (k : Nat) : Scan → Scan
  | .header i => .header (i + k)
  | .going matched => .going matched

theorem scanChunk_shift (data : Text) (matched i k : Nat) :
    scanChunk matched (i + k) data = (scanChunk matched i data).shift k := by
  induction data generalizing matched i with
  | nil => rfl
  | cons c rest ih =>
    rw [scanChunk, scanChunk]
    split
    · rw [show i + k + 1 = i + 1 + k by omega, ih]
    split
    · rfl
    · rw [show i + k + 1 = i + 1 + k by omega, ih]

theorem scanChunk_append (chunk data : Text) (matched i : Nat) :
    scanChunk matched i (chunk ++ data) =
      match scanChunk matched i chunk with
      | .header j => .header j
      | .going matched => scanChunk matched (i + chunk.length) data := by
  induction chunk generalizing matched i with
  | nil => rfl
  | cons c chunk ih =>
    rw [List.cons_append, scanChunk, scanChunk, List.length_cons]
    split
    · rw [ih, show i + (chunk.length + 1) = i + 1 + chunk.length by omega]
    split
    · rfl
    · rw [ih, show i + (chunk.length + 1) = i + 1 + chunk.length by omega]

/-- What comes of a scan of the whole file. -/
def Scan.position (pos : Int) (length : Nat) : Scan → Option Int
  | .header i => if pos + i + 1 ≤ intMax then some (pos + i + 1 - preambleSize) else none
  | .going _ => if pos + length ≤ intMax then some (-1) else none

theorem findLoop_eq {reads : List ReadResult} {data : Text} (h : Delivers reads data)
    (matched : Nat) {pos : Int} (hpos : pos ≤ intMax) :
    findLoop matched pos reads = (scanChunk matched 0 data).position pos data.length := by
  induction h generalizing matched pos with
  | eof =>
    rw [findLoop, scanChunk, Scan.position, if_pos (by simpa using hpos)]
  | again _ ih => exact ih matched hpos
  | @got reads chunk data hne hsize hreads ih =>
    rw [findLoop, scanChunk_append]
    cases hscan : scanChunk matched 0 chunk with
    | header i => rfl
    | going matched =>
      dsimp only
      rw [Nat.zero_add, List.length_append]
      have hshift := scanChunk_shift data matched 0 chunk.length
      rw [Nat.zero_add] at hshift
      rw [hshift]
      by_cases hfits : pos + chunk.length ≤ intMax
      · rw [if_pos hfits, ih matched hfits]
        cases scanChunk matched 0 data with
        | header i =>
          simp only [Scan.shift, Scan.position]
          rw [show pos + (i + chunk.length : Nat) = pos + chunk.length + i by omega]
        | going matched =>
          simp only [Scan.shift, Scan.position]
          rw [show pos + (chunk.length + data.length : Nat) =
            pos + chunk.length + data.length by omega]
      · rw [if_neg hfits]
        cases scanChunk matched 0 data with
        | header i =>
          simp only [Scan.shift, Scan.position]
          rw [if_neg (by omega)]
        | going matched =>
          simp only [Scan.shift, Scan.position]
          rw [if_neg (by omega)]

/-! ### What is found -/

/-- Starts of the preamble, each with a byte that does not go on with it. -/
inductive Attempts : Text → Prop where
  | nil : Attempts []
  | attempt {n : Nat} {c : UInt8} {rest : Text} : n < preambleSize → c ≠ preamble.getD n 0 →
      Attempts rest → Attempts (preamble.take n ++ c :: rest)

theorem take_succ_preamble {n : Nat} (h : n < preambleSize) :
    preamble.take (n + 1) = preamble.take n ++ [preamble.getD n 0] := by
  have hlen : n < preamble.length := h
  rw [List.take_add_one, List.getElem?_eq_getElem hlen, List.getD_eq_getElem?_getD,
    List.getElem?_eq_getElem hlen]
  rfl

/-- A match goes on where the last attempt ended. -/
theorem attempts_of_header {data : Text} {matched i j : Nat} (hmatched : matched < preambleSize)
    (h : scanChunk matched i data = .header j) :
    ∃ failed rest, Attempts failed ∧ preamble.take matched ++ data = failed ++ (preamble ++ rest) ∧
      j + matched + 1 = i + failed.length + preambleSize := by
  induction data generalizing matched i with
  | nil => cases h
  | cons c data ih =>
    rw [scanChunk] at h
    split at h
    · rename_i hc
      obtain ⟨failed, rest, hfailed, hdata, hj⟩ := ih (show 0 < preambleSize by decide) h
      rw [List.take_zero, List.nil_append] at hdata
      refine ⟨preamble.take matched ++ c :: failed, rest, .attempt hmatched hc hfailed, ?_, ?_⟩
      · rw [hdata, List.append_assoc]
        rfl
      · have hlen : (preamble.take matched).length = matched := by
          rw [List.length_take]
          exact Nat.min_eq_left (Nat.le_of_lt hmatched)
        rw [List.length_append, List.length_cons, hlen]
        omega
    · rename_i hc
      have hc : c = preamble.getD matched 0 := not_not.mp hc
      have hnext : preamble.take matched ++ c :: data = preamble.take (matched + 1) ++ data := by
        rw [take_succ_preamble hmatched, hc]
        simp
      split at h
      · rename_i hlast
        obtain rfl := Scan.header.inj h
        refine ⟨[], data, .nil, ?_, ?_⟩
        · rw [hnext, hlast]
          rfl
        · rw [List.length_nil]
          omega
      · obtain ⟨failed, rest, hfailed, hdata, hj⟩ := ih (by omega) h
        exact ⟨failed, rest, hfailed, hnext.trans hdata, by omega⟩

theorem scanChunk_take {n : Nat} (hn : n < preambleSize) (i : Nat) (data : Text) :
    scanChunk 0 i (preamble.take n ++ data) = scanChunk n (i + n) data := by
  induction n generalizing data with
  | zero => rfl
  | succ n ih =>
    rw [take_succ_preamble (by omega), List.append_assoc, ih (by omega), List.singleton_append,
      scanChunk, if_neg (not_not.mpr rfl), if_neg (by omega)]
    rfl

theorem scanChunk_attempts {failed : Text} (h : Attempts failed) (i : Nat) (rest : Text) :
    scanChunk 0 i (failed ++ (preamble ++ rest)) = .header (i + failed.length + 7) := by
  induction h generalizing i with
  | nil =>
    have hlast : preamble ++ rest = preamble.take 7 ++ (preamble.getD 7 0 :: rest) := rfl
    rw [List.nil_append, hlast, scanChunk_take (by decide), scanChunk, if_neg (not_not.mpr rfl),
      if_pos (show 7 + 1 = preambleSize from rfl)]
    rfl
  | @attempt n c failed hn hc hfailed ih =>
    rw [List.append_assoc, List.cons_append, scanChunk_take hn, scanChunk, if_pos hc, ih,
      List.length_append, List.length_cons, List.length_take,
      Nat.min_eq_left (show n ≤ preamble.length from Nat.le_of_lt hn)]
    congr 1
    omega

/-! ### The first tag -/

def Occurs (data : Text) (p : Nat) : Prop := preamble <+: data.drop p

/-- The position of the first preamble. -/
def IsFirst (data : Text) (p : Nat) : Prop := Occurs data p ∧ ∀ q < p, ¬ Occurs data q

theorem IsFirst.unique {data : Text} {p q : Nat} (hp : IsFirst data p) (hq : IsFirst data q) :
    p = q := by
  rcases Nat.lt_trichotomy p q with h | h | h
  · exact absurd hp.1 (hq.2 p h)
  · exact h
  · exact absurd hq.1 (hp.2 q h)

theorem exists_isFirst {data : Text} {p : Nat} (h : Occurs data p) : ∃ q, IsFirst data q := by
  classical
  have hex : ∃ q, Occurs data q := ⟨p, h⟩
  exact ⟨Nat.find hex, Nat.find_spec hex, fun q hq => Nat.find_min hex hq⟩

/-- A result is the position of the first preamble, and -1 where there is none. -/
def Finds (data : Text) (result : Option Int) : Prop :=
  (∀ p : Nat, result = some (p : Int) ↔ IsFirst data p) ∧
    (result = some (-1) ↔ ∀ p, ¬ Occurs data p)

/-- The attempts that fail end in front of the first preamble, and the positions fit in an
`int`. -/
def Findable (data : Text) : Prop :=
  (∃ p : Nat, IsFirst data p ∧ Attempts (data.take p) ∧ (p : Int) + preambleSize ≤ intMax) ∨
    (∀ p, ¬ Occurs data p) ∧ (data.length : Int) ≤ intMax

theorem findApeTagSlow_eq {reads : List ReadResult} {data : Text} (h : Delivers reads data) :
    findApeTagSlow reads = (scanChunk 0 0 data).position 0 data.length :=
  findLoop_eq h 0 (by decide)

theorem occurs_length (failed rest : Text) :
    Occurs (failed ++ (preamble ++ rest)) failed.length := by
  rw [Occurs, List.drop_left]
  exact List.prefix_append preamble rest

/-- A header that is found is a preamble behind attempts that failed. -/
theorem position_eq_some {data : Text} {p : Nat} :
    (scanChunk 0 0 data).position 0 data.length = some (p : Int) ↔
      Occurs data p ∧ Attempts (data.take p) ∧ (p : Int) + preambleSize ≤ intMax := by
  constructor
  · intro h
    cases hscan : scanChunk 0 0 data with
    | going matched =>
      rw [hscan, Scan.position] at h
      split at h
      · have := Option.some.inj h
        omega
      · cases h
    | header i =>
      obtain ⟨failed, rest, hfailed, hdata, hi⟩ := attempts_of_header (by decide) hscan
      rw [List.take_zero, List.nil_append] at hdata
      rw [hscan, Scan.position] at h
      split at h
      · rename_i hfits
        have hp := Option.some.inj h
        have hlen : failed.length = p := by omega
        subst hlen
        rw [hdata]
        refine ⟨occurs_length failed rest, ?_, by omega⟩
        rw [List.take_left]
        exact hfailed
      · cases h
  · intro h
    obtain ⟨⟨rest, hrest⟩, hfailed, hfits⟩ := h
    have hlen : (data.take p).length = p := by
      have := congrArg List.length hrest
      rw [List.length_append, List.length_drop] at this
      have h8 : preamble.length = 8 := rfl
      rw [List.length_take]
      omega
    have hscan := scanChunk_attempts hfailed 0 rest
    rw [hrest, List.take_append_drop, hlen, Nat.zero_add] at hscan
    have h8 : preambleSize = 8 := rfl
    rw [hscan, Scan.position, if_pos (by omega)]
    congr 1
    omega

theorem position_not_occurs {data : Text} (h : ∀ p, ¬ Occurs data p) :
    (scanChunk 0 0 data).position 0 data.length =
      if (data.length : Int) ≤ intMax then some (-1) else none := by
  cases hscan : scanChunk 0 0 data with
  | going matched => rw [Scan.position, Int.zero_add]
  | header i =>
    obtain ⟨failed, rest, -, hdata, -⟩ := attempts_of_header (by decide) hscan
    rw [List.take_zero, List.nil_append] at hdata
    exact absurd (hdata ▸ occurs_length failed rest) (h failed.length)

/-- `find_ape_tag_slow` finds the first tag exactly where no failed attempt runs into it. -/
theorem findApeTagSlow_finds_iff {reads : List ReadResult} {data : Text} (h : Delivers reads data) :
    Finds data (findApeTagSlow reads) ↔ Findable data := by
  rw [findApeTagSlow_eq h]
  constructor
  · intro hfinds
    by_cases hoccurs : ∀ p, ¬ Occurs data p
    · right
      have hnone := hfinds.2.mpr hoccurs
      rw [position_not_occurs hoccurs] at hnone
      split at hnone
      · rename_i hfits
        exact ⟨hoccurs, hfits⟩
      · cases hnone
    · left
      obtain ⟨p, hp⟩ := not_forall.mp hoccurs
      obtain ⟨q, hq⟩ := exists_isFirst (not_not.mp hp)
      have hfound := position_eq_some.mp ((hfinds.1 q).mpr hq)
      exact ⟨q, hq, hfound.2⟩
  · intro hfindable
    rcases hfindable with hfound | hnone
    · obtain ⟨p, hp, hattempts⟩ := hfound
      have hresult := position_eq_some.mpr ⟨hp.1, hattempts⟩
      rw [hresult]
      refine ⟨fun q => ⟨fun hq => ?_, fun hq => ?_⟩, fun hneg => ?_, fun hoccurs => ?_⟩
      · have hpq : p = q := by exact_mod_cast Option.some.inj hq
        exact hpq ▸ hp
      · rw [hp.unique hq]
      · have := Option.some.inj hneg
        omega
      · exact absurd hp.1 (hoccurs p)
    · obtain ⟨hoccurs, hfits⟩ := hnone
      rw [position_not_occurs hoccurs, if_pos hfits]
      refine ⟨fun q => ⟨fun hq => ?_, fun hq => ?_⟩, fun _ => hoccurs, fun _ => rfl⟩
      · have := Option.some.inj hq
        omega
      · exact absurd hq.1 (hoccurs q)

theorem findApeTagSlow_finds : Finds (ascii "xAPETAGEX")
    (findApeTagSlow [.got (ascii "xAPET"), .again, .got (ascii "AGEX")]) := by
  have hdelivers : Delivers [.got (ascii "xAPET"), .again, .got (ascii "AGEX")]
      (ascii "xAPET" ++ (ascii "AGEX" ++ [])) :=
    .got (by decide) (by decide) (.again (.got (by decide) (by decide) .eof))
  refine (findApeTagSlow_finds_iff hdelivers).mpr (.inl ⟨1, ?_, ?_, by decide⟩)
  · refine ⟨⟨[], rfl⟩, fun q hq => ?_⟩
    obtain rfl : q = 0 := by omega
    unfold Occurs
    decide
  · exact @Attempts.attempt 0 (ch 'x') [] (by decide) (by decide) .nil

/-- A byte that does not match is not looked at again as the first of a preamble. -/
theorem findApeTagSlow_misses : Delivers [.got (ascii "AAPETAGEX")] (ascii "AAPETAGEX") ∧
    findApeTagSlow [.got (ascii "AAPETAGEX")] = some (-1) ∧ IsFirst (ascii "AAPETAGEX") 1 ∧
      ¬ Finds (ascii "AAPETAGEX") (findApeTagSlow [.got (ascii "AAPETAGEX")]) := by
  have hresult : findApeTagSlow [.got (ascii "AAPETAGEX")] = some (-1) := by decide
  have hoccurs : Occurs (ascii "AAPETAGEX") 1 := ⟨[], rfl⟩
  refine ⟨@Delivers.got [] (ascii "AAPETAGEX") [] (by decide) (by decide) .eof, hresult,
    ⟨hoccurs, fun q hq => ?_⟩, fun hfinds => ?_⟩
  · obtain rfl : q = 0 := by omega
    unfold Occurs
    decide
  · exact hfinds.2.mp hresult 1 hoccurs

end GracefulMusic.Ape
