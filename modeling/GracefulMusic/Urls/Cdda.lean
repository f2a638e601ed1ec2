import GracefulMusic.Playlist.Files
import GracefulMusic.Urls.Strings

/-! URLs of audio discs (`discid.c`, `add_cdda`).

A disc is named by its hash or by the path of a device or an image, so the id itself may
hold slashes and dashes. The last track is -1 where there is none. -/
namespace GracefulMusic.Cdda
open GracefulMusic.Pl (isCddaUrl)

/-- What `parse_cdda_url` sets; `endTrack` is `none` where the caller passes no pointer. -/
structure Range where
  discId : Option Text
  startTrack : Int
  endTrack : Option Int
deriving DecidableEq

def parseTrack (track : Text) (old : Int) : Int :=
  if (strToInt track).2 then toInt (strToInt track).1 else old

/-- What stands behind the disc id: a track, or two with a dash in between. -/
def parseTracks (url : Text) (r : Range) : Range :=
  match url.dropWhile (· ≠ ch '-') with
  | _ :: last =>
    { r with
      startTrack := parseTrack (url.takeWhile (· ≠ ch '-')) r.startTrack
      endTrack := r.endTrack.map fun _ => parseTrack last intMax }
  | [] => { r with startTrack := parseTrack url r.startTrack }

def parseCddaUrl (url : Text) (r : Range) : Option Range :=
  if isCddaUrl url then
    match splitSlash (url.drop 7) with
    | some (discId, tracks) => some (parseTracks tracks { r with discId := some discId })
    | none => some (parseTracks (url.drop 7) r)
  else none

/-- What `gen_cdda_url` prints into its buffer of 256 bytes. -/
def cddaUrl (discId : Text) (startTrack endTrack : Int) : Text :=
  ascii "cdda://" ++ discId ++ slash :: printInt startTrack ++
    if endTrack ≠ -1 then ch '-' :: printInt endTrack else []

def genCddaUrl (discId : Text) (startTrack endTrack : Int) : Text :=
  (cddaUrl discId startTrack endTrack).take 255

/-- What `add_cdda` calls `add_file` with, as long as its loop takes no more than the given
rounds. -/
def addCdda (rounds : Nat) (url : Text) : Option (List Text) :=
  let r := (parseCddaUrl url ⟨none, 1, some (-1)⟩).getD ⟨none, 1, some (-1)⟩
  let endTrack := r.endTrack.getD (-1)
  if endTrack ≠ -1 then
    (countUp endTrack rounds r.startTrack).map fun numbers =>
      numbers.map fun i => genCddaUrl (r.discId.getD (ascii "(null)")) i (-1)
  else some [url]

/-! ### The round trip -/

/-- Whatever the first track was before, and with no last track before. -/
def GivesBack (discId : Text) (startTrack endTrack : Int) : Prop :=
  ∀ old, parseCddaUrl (genCddaUrl discId startTrack endTrack) ⟨none, old, some (-1)⟩ =
    some ⟨some discId, startTrack, some endTrack⟩

/-- The tracks of a range. -/
def tracks (startTrack endTrack : Int) : List Int :=
  if endTrack = -1 then [startTrack] else interval startTrack endTrack

/-- The names that are added denote these tracks, as the input plugin reads them. -/
def AddsTracks (discId : Text) (startTrack endTrack : Int) : Prop :=
  ∃ rounds names, addCdda rounds (genCddaUrl discId startTrack endTrack) = some names ∧
    names.map (parseCddaUrl · ⟨none, -1, none⟩) =
      (tracks startTrack endTrack).map fun i => some ⟨some discId, i, none⟩

/-! ### Reading -/

theorem isCddaUrl_append (t : Text) : isCddaUrl (ascii "cdda://" ++ t) = true :=
  List.isPrefixOf_iff_prefix.mpr (List.prefix_append _ _)

theorem parseCddaUrl_append (discId : Text) {t : Text} (ht : slash ∉ t) (r : Range) :
    parseCddaUrl (ascii "cdda://" ++ discId ++ slash :: t) r =
      some (parseTracks t { r with discId := some discId }) := by
  have hdrop : (ascii "cdda://" ++ (discId ++ slash :: t)).drop 7 = discId ++ slash :: t :=
    List.drop_left' (by decide)
  rw [List.append_assoc, parseCddaUrl, if_pos (isCddaUrl_append _), hdrop,
    splitSlash_append discId ht]

theorem parseTrack_nil (old : Int) : parseTrack [] old = old := rfl

theorem parseTracks_single {t : Text} (ht : ∀ c ∈ t, isDigit c = true) (r : Range) :
    parseTracks t r = { r with startTrack := parseTrack t r.startTrack } := by
  have hdrop : t.dropWhile (· ≠ ch '-') = [] :=
    List.dropWhile_eq_nil_iff.mpr fun c hc => by simpa using (digit_facts (ht c hc)).2.1
  rw [parseTracks, hdrop]

theorem parseTracks_dash {t : Text} (ht : ∀ c ∈ t, isDigit c = true) (last : Text) (r : Range) :
    parseTracks (t ++ ch '-' :: last) r =
      { r with
        startTrack := parseTrack t r.startTrack
        endTrack := r.endTrack.map fun _ => parseTrack last intMax } := by
  have hall : ∀ c ∈ t, decide (c ≠ ch '-') = true :=
    fun c hc => by simpa using (digit_facts (ht c hc)).2.1
  have htake : (t ++ ch '-' :: last).takeWhile (· ≠ ch '-') = t := by
    rw [List.takeWhile_append_of_pos hall]
    simp
  have hdrop : (t ++ ch '-' :: last).dropWhile (· ≠ ch '-') = ch '-' :: last := by
    rw [List.dropWhile_append_of_pos hall]
    simp
  rw [parseTracks, hdrop, htake]

/-! ### Printing -/

/-- The tracks behind the disc id, as printed. -/
def printTracks (startTrack endTrack : Int) : Text :=
  printInt startTrack ++ if endTrack ≠ -1 then ch '-' :: printInt endTrack else []

theorem cddaUrl_eq (discId : Text) (startTrack endTrack : Int) :
    cddaUrl discId startTrack endTrack =
      ascii "cdda://" ++ discId ++ slash :: printTracks startTrack endTrack := by
  rw [cddaUrl, printTracks, List.append_assoc _ (slash :: _), List.cons_append]

theorem parseTrack_decimal {x : Int} (hpos : 0 ≤ x) (hmax : x ≤ intMax) (old : Int) :
    parseTrack (decimal x.natAbs) old = x := by
  rw [parseTrack, strToInt_decimal hpos hmax, if_pos rfl, toInt_of_le hpos hmax]

/-- Ranges as the callers have them: the tracks are positive and fit an `int`. -/
structure Proper (startTrack endTrack : Int) : Prop where
  start : 1 ≤ startTrack
  last : endTrack = -1 ∨ startTrack ≤ endTrack
  startFits : startTrack ≤ intMax
  lastFits : endTrack ≤ intMax

theorem slash_printTracks {s e : Int} (h : Proper s e) : slash ∉ printTracks s e := by
  have hdecimal (n : Nat) : slash ∉ decimal n := slash_not_mem fun _ => decimal_digits
  have hstart := h.start
  rw [printTracks, printInt_pos (by omega), List.mem_append]
  intro hmem
  obtain hmem | hmem := hmem
  · exact hdecimal _ hmem
  · split at hmem
    · obtain hlast | hlast := h.last
      · contradiction
      · rw [printInt_pos (by omega), List.mem_cons] at hmem
        obtain hmem | hmem := hmem
        · exact absurd hmem (by decide)
        · exact hdecimal _ hmem
    · cases hmem

theorem parse_cddaUrl {s e : Int} (h : Proper s e) (discId : Text) (old : Int)
    (endTrack : Option Int) (hend : endTrack = some (-1) ∨ endTrack = none ∧ e = -1) :
    parseCddaUrl (cddaUrl discId s e) ⟨none, old, endTrack⟩ =
      some ⟨some discId, s, endTrack.map fun _ => e⟩ := by
  have hstart := h.start
  have hdigits : ∀ c ∈ decimal s.natAbs, isDigit c = true := fun _ => decimal_digits
  rw [cddaUrl_eq, parseCddaUrl_append discId (slash_printTracks h), printTracks,
    printInt_pos (by omega)]
  by_cases he : e = -1
  · rw [if_neg (by simpa using he), List.append_nil, parseTracks_single hdigits]
    dsimp only
    rw [parseTrack_decimal (by omega) h.startFits]
    obtain hend | hend := hend
    · rw [hend, he]
      rfl
    · rw [hend.1]
      rfl
  · obtain hlast | hlast := h.last
    · contradiction
    rw [if_pos he, printInt_pos (by omega), parseTracks_dash hdigits]
    dsimp only
    rw [parseTrack_decimal (by omega) h.startFits, parseTrack_decimal (by omega) h.lastFits]

theorem genCddaUrl_fits {discId : Text} {s e : Int} (h : (cddaUrl discId s e).length ≤ 255) :
    genCddaUrl discId s e = cddaUrl discId s e := List.take_of_length_le h

theorem cddaUrl_length (discId : Text) (s e : Int) :
    (cddaUrl discId s e).length = 8 + discId.length + (printTracks s e).length := by
  have hscheme : (ascii "cdda://").length = 7 := by decide
  rw [cddaUrl_eq, List.length_append, List.length_append, List.length_cons, hscheme]
  omega

theorem printTracks_mono {s e i : Int} (h : Proper s e) (hi : s ≤ i) (hie : i ≤ e) :
    (printTracks i (-1)).length ≤ (printTracks s e).length := by
  have hstart := h.start
  have hmono : (decimal i.natAbs).length ≤ (decimal e.natAbs).length :=
    decimal_length_mono (by omega)
  rw [printTracks, printTracks, if_neg (by decide), if_pos (by omega), printInt_pos (by omega),
    printInt_pos (by omega), printInt_pos (by omega), List.append_nil, List.length_append,
    List.length_cons]
  omega

/-! ### URLs that are cut -/

/-- The number that is left of one whose end is cut off is another one. -/
theorem parseTrack_take {x : Int} (hpos : 1 ≤ x) (hmax : x ≤ intMax) {k : Nat}
    (hk : k < (decimal x.natAbs).length) {old : Int}
    (h : parseTrack ((decimal x.natAbs).take k) old = x) : x = old := by
  by_cases hnil : (decimal x.natAbs).take k = []
  · rw [hnil, parseTrack_nil] at h
    exact h.symm
  · obtain ⟨y, hy, hread⟩ := strToInt_take hmax hk hpos hnil
    rw [parseTrack, hread, if_pos rfl, toInt_of_le (Int.natCast_nonneg y) (by omega)] at h
    omega

theorem parseTracks_take {s e : Int} (hproper : Proper s e) {k : Nat}
    (hk : k < (printTracks s e).length) {discId : Option Text}
    (h : ∀ old, parseTracks ((printTracks s e).take k) ⟨discId, old, some (-1)⟩ =
      ⟨discId, s, some e⟩) : e = intMax := by
  have hstart := hproper.start
  have hdigits : ∀ c ∈ (decimal s.natAbs).take k, isDigit c = true :=
    fun c hc => decimal_digits (List.mem_of_mem_take hc)
  rw [printTracks, printInt_pos (by omega)] at h hk
  by_cases he : e = -1
  · rw [if_neg (by simpa using he), List.append_nil] at h hk
    have hold := congrArg Range.startTrack (h 0)
    rw [parseTracks_single hdigits] at hold
    have hzero : s = 0 := parseTrack_take hstart hproper.startFits hk hold
    omega
  · obtain hlast | hlast := hproper.last
    · contradiction
    rw [if_pos he, printInt_pos (by omega)] at h hk
    have hend := congrArg Range.endTrack (h 0)
    by_cases hfirst : k ≤ (decimal s.natAbs).length
    · rw [List.take_append_of_le_length hfirst, parseTracks_single hdigits] at hend
      exact absurd (Option.some.inj hend).symm he
    · obtain ⟨j, hj⟩ : ∃ j, k = (decimal s.natAbs).length + (j + 1) :=
        ⟨k - (decimal s.natAbs).length - 1, by omega⟩
      rw [hj, List.take_length_add_append, List.take_succ_cons,
        parseTracks_dash fun _ => decimal_digits] at hend
      rw [hj, List.length_append, List.length_cons] at hk
      exact parseTrack_take (by omega) hproper.lastFits (by omega) (Option.some.inj hend)

/-- An id is shorter than what it is read from. -/
theorem parseCddaUrl_discId {t discId : Text} {old s : Int} {endTrack endTrack' : Option Int}
    (h : parseCddaUrl (ascii "cdda://" ++ t) ⟨none, old, endTrack⟩ =
      some ⟨some discId, s, endTrack'⟩) : discId.length < t.length := by
  have hkeeps (url : Text) (r : Range) : (parseTracks url r).discId = r.discId := by
    unfold parseTracks
    split <;> rfl
  have hdrop : (ascii "cdda://" ++ t).drop 7 = t := List.drop_left' (by decide)
  rw [parseCddaUrl, if_pos (isCddaUrl_append t), hdrop] at h
  cases hsplit : splitSlash t with
  | none =>
    rw [hsplit] at h
    have hid := congrArg Range.discId (Option.some.inj h)
    rw [hkeeps] at hid
    cases hid
  | some pair =>
    obtain ⟨front, behind⟩ := pair
    rw [hsplit] at h
    have hid := congrArg Range.discId (Option.some.inj h)
    rw [hkeeps] at hid
    have hfront : front = discId := Option.some.inj hid
    rw [← hfront]
    exact splitSlash_length hsplit

/-- A URL that does not fit is read back only where the cut leaves a dash at its end. -/
theorem fits_of_givesBack {discId : Text} {s e : Int} (hproper : Proper s e)
    (h : GivesBack discId s e) (he : e ≠ intMax) : (cddaUrl discId s e).length ≤ 255 := by
  by_contra hlong
  rw [cddaUrl_length] at hlong
  have hscheme : (ascii "cdda://").length = 7 := by decide
  by_cases hhead : 8 + discId.length ≤ 255
  · -- the cut is behind the disc id
    obtain ⟨k, hk⟩ : ∃ k, 255 = (ascii "cdda://" ++ discId).length + (k + 1) :=
      ⟨247 - discId.length, by rw [List.length_append, hscheme]; omega⟩
    have hkTracks : k < (printTracks s e).length := by
      rw [List.length_append, hscheme] at hk
      omega
    have hcut : genCddaUrl discId s e =
        ascii "cdda://" ++ discId ++ slash :: (printTracks s e).take k := by
      rw [genCddaUrl, cddaUrl_eq, hk, List.take_length_add_append, List.take_succ_cons]
    have htracks : ∀ old, parseTracks ((printTracks s e).take k) ⟨some discId, old, some (-1)⟩ =
        ⟨some discId, s, some e⟩ := by
      intro old
      have hold := h old
      rw [hcut, parseCddaUrl_append discId
        fun hmem => slash_printTracks hproper (List.mem_of_mem_take hmem)] at hold
      exact Option.some.inj hold
    exact he (parseTracks_take hproper hkTracks htracks)
  · have hcut : genCddaUrl discId s e = ascii "cdda://" ++ discId.take 248 := by
      have htake : (discId ++ slash :: printTracks s e).take 248 = discId.take 248 :=
        List.take_append_of_le_length (by omega)
      have hsplit : (255 : Nat) = (ascii "cdda://").length + 248 := by decide
      rw [genCddaUrl, cddaUrl_eq, List.append_assoc, hsplit, List.take_length_add_append, htake]
    have hshort := h 0
    rw [hcut] at hshort
    have hlength := parseCddaUrl_discId hshort
    rw [List.length_take] at hlength
    omega

/-! ### The claim of the URLs -/

theorem givesBack_of_fits {discId : Text} {s e : Int} (hproper : Proper s e)
    (h : (cddaUrl discId s e).length ≤ 255) : GivesBack discId s e := by
  intro old
  rw [genCddaUrl_fits h, parse_cddaUrl hproper discId old _ (Or.inl rfl)]
  rfl

theorem single_track {discId : Text} {i : Int} (hproper : Proper i (-1))
    (h : (cddaUrl discId i (-1)).length ≤ 255) :
    parseCddaUrl (genCddaUrl discId i (-1)) ⟨none, -1, none⟩ = some ⟨some discId, i, none⟩ := by
  rw [genCddaUrl_fits h, parse_cddaUrl hproper discId (-1) _ (Or.inr ⟨rfl, rfl⟩)]
  rfl

theorem addCdda_range {discId : Text} {s e : Int} (h : GivesBack discId s e) (rounds : Nat) :
    addCdda rounds (genCddaUrl discId s e) =
      if e ≠ -1 then
        (countUp e rounds s).map fun numbers => numbers.map fun i => genCddaUrl discId i (-1)
      else some [genCddaUrl discId s e] := by
  rw [addCdda, h 1]
  rfl

theorem addsTracks_of_fits {discId : Text} {s e : Int} (hproper : Proper s e)
    (h : (cddaUrl discId s e).length ≤ 255) (hmax : e ≠ intMax) : AddsTracks discId s e := by
  have hback := givesBack_of_fits hproper h
  by_cases he : e = -1
  · subst he
    refine ⟨0, [genCddaUrl discId s (-1)], addCdda_range hback 0, ?_⟩
    rw [List.map_singleton, single_track hproper h]
    rfl
  · obtain hlast | hlast := hproper.last
    · contradiction
    have hstart := hproper.start
    have hfits := hproper.lastFits
    have hadd := addCdda_range hback ((e + 1 - s).toNat + 1)
    rw [if_pos he, countUp_eq (by omega) _ (by omega), if_pos (Nat.lt_succ_self _),
      Option.map_some] at hadd
    refine ⟨_, _, hadd, ?_⟩
    rw [tracks, if_neg he, List.map_map]
    apply List.map_congr_left
    intro i hi
    obtain ⟨hlow, hhigh⟩ := mem_interval hi
    have hmono := printTracks_mono hproper hlow hhigh
    apply single_track ⟨by omega, Or.inl rfl, by omega, by decide⟩
    rw [cddaUrl_length] at h ⊢
    omega

/-- URLs of up to 255 bytes survive, and with a last track in front of the greatest `int`
the loop ends. -/
theorem cdda_url_round_trip {discId : Text} {startTrack endTrack : Int}
    (hproper : Proper startTrack endTrack) :
    GivesBack discId startTrack endTrack ∧ AddsTracks discId startTrack endTrack ↔
      (cddaUrl discId startTrack endTrack).length ≤ 255 ∧ endTrack ≠ intMax := by
  constructor
  · intro h
    obtain ⟨hback, rounds, names, hadd, -⟩ := h
    have hmax : endTrack ≠ intMax := by
      intro hmax
      rw [addCdda_range hback, if_pos (by rw [hmax]; decide), hmax,
        countUp_endless rounds hproper.startFits] at hadd
      cases hadd
    exact ⟨fits_of_givesBack hproper hback hmax, hmax⟩
  · intro h
    exact ⟨givesBack_of_fits hproper h.1, addsTracks_of_fits hproper h.1 h.2⟩

theorem cdda_url_example :
    GivesBack (ascii "/dev/cd-rom/0") 3 14 ∧ AddsTracks (ascii "/dev/cd-rom/0") 3 14 :=
  (cdda_url_round_trip ⟨by decide, Or.inr (by decide), by decide, by decide⟩).mpr
    ⟨by decide +kernel, by decide⟩

/-- The path of an image with 250 bytes comes back without a track, and the range that
ends with the greatest track is never done. -/
theorem cdda_url_cut :
    Proper 1 2 ∧ ¬ GivesBack (List.replicate 250 (ch 'a')) 1 2 ∧
      Proper 1 intMax ∧ ¬ AddsTracks (ascii "a") 1 intMax := by
  have hfirst : Proper 1 2 := ⟨by decide, Or.inr (by decide), by decide, by decide⟩
  have hsecond : Proper 1 intMax := ⟨by decide, Or.inr (by decide), by decide, by decide⟩
  have hback : GivesBack (ascii "a") 1 intMax := givesBack_of_fits hsecond (by decide +kernel)
  refine ⟨hfirst, ?_, hsecond, ?_⟩
  · intro h
    exact absurd (fits_of_givesBack hfirst h (by decide)) (by decide +kernel)
  · intro h
    obtain ⟨rounds, names, hadd, -⟩ := h
    rw [addCdda_range hback, if_pos (by decide),
      countUp_endless rounds (by decide)] at hadd
    cases hadd

end GracefulMusic.Cdda
