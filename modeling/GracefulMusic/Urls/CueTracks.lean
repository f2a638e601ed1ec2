import GracefulMusic.Playlist.Files
import GracefulMusic.Urls.CueSheet
import GracefulMusic.Urls.Strings

/-! The tracks of a cue sheet as they are added (`add_file_cue`, `cue_utils.c`, `ip/cue.c`). -/
namespace GracefulMusic.Cue
open GracefulMusic.Pl (isCueUrl)
open CueParser

/-! ### The TRACK lines of a text -/

/-- The number on the line in front, where it is a TRACK line. -/
def trackNumber (src : Text) : Option UInt32 :=
  let (token, rest) := cueExtractToken src
  if cueStrEq token (ascii "TRACK") then cueParseInt (cueExtractToken rest).1 else none

def trackNumbersLoop : Nat → Text → List UInt32
  | 0, _ => []
  | fuel + 1, src =>
    if src ≠ [] then (trackNumber src).toList ++ trackNumbersLoop fuel (cueSkipLine src) else []

/-- The numbers on the TRACK lines, in order. -/
def trackNumbers (src : Text) : List UInt32 := trackNumbersLoop src.length src

/-! ### Adding the tracks -/

/-- What `construct_cue_url` prints into its buffer of 4096 bytes. -/
def cueUrl (cueFilename : Text) (trackN : Int) : Text :=
  ascii "cue://" ++ cueFilename ++ slash :: printInt trackN

def constructCueUrl (cueFilename : Text) (trackN : Int) : Text :=
  (cueUrl cueFilename trackN).take 4095

/-- `_parse_cue_url`. -/
def parseCueUrl (url : Text) : Option (Text × Int) :=
  if isCueUrl url then
    match splitSlash (url.drop 6) with
    | some (filename, track) =>
      if (strToInt track).2 then some (filename, toInt (strToInt track).1) else none
    | none => none
  else none

/-- `cue_get_ntracks`. -/
def cueGetNtracks (sheet : Option CueSheet) : Int :=
  match sheet with
  | none => -1
  | some s => toInt s.numTracks.toNat

/-- What `add_file_cue` calls `add_file` with, for the sheet in the file, as long as its loop
takes no more than the given rounds. -/
def addFileCue (rounds : Nat) (cueFilename : Text) (sheet : Option CueSheet) :
    Option (List Text) :=
  if cueGetNtracks sheet ≤ 0 then some []
  else
    (countUp (cueGetNtracks sheet) rounds 1).map fun numbers =>
      numbers.map (constructCueUrl cueFilename)

/-- The index of the track that a URL is resolved to in the sheet of the file. -/
def resolve (cueFilename : Text) (s : CueSheet) (url : Text) : Option UInt64 :=
  match parseCueUrl url with
  | some (filename, trackN) =>
    if filename = cueFilename then cueGetTrack s (UInt64.ofInt trackN) else none
  | none => none

/-- The URLs that are added denote the tracks of the sheet, each once and in order. -/
def AddsEachTrack (cueFilename : Text) (s : CueSheet) : Prop :=
  ∃ rounds urls, addFileCue rounds cueFilename (some s) = some urls ∧
    urls.map (resolve cueFilename s) =
      (List.range s.tracks.length).map fun i : Nat => some (UInt64.ofNat i)

/-! ### One line -/

theorem dropWhile_dropWhile_of_imp {α : Type} {p q : α → Bool} (h : ∀ c, p c = true → q c = true)
    (l : List α) : (l.dropWhile p).dropWhile q = l.dropWhile q := by
  induction l with
  | nil => rfl
  | cons c l ih =>
    by_cases hp : p c = true
    · rw [List.dropWhile_cons_of_pos hp, List.dropWhile_cons_of_pos (h c hp), ih]
    · rw [List.dropWhile_cons_of_neg hp]

/-- What is left from the end of the line on. -/
def lineEnd (src : Text) : Text := src.dropWhile (!isNewline ·)

theorem skipLine_congr {src src' : Text} (h : lineEnd src = lineEnd src') :
    cueSkipLine src = cueSkipLine src' := by
  rw [cueSkipLine, cueSkipLine]
  unfold lineEnd at h
  rw [h]

theorem blank_inside (c : UInt8) (h : isBlank c = true) : (!isNewline c) = true := by
  revert h
  exact forall_byte (P := fun c => isBlank c = true → (!isNewline c) = true) (by decide +kernel) c

theorem lineEnd_cons {c : UInt8} (hc : isNewline c = false) (src : Text) :
    lineEnd (c :: src) = lineEnd src :=
  List.dropWhile_cons_of_pos (by rw [hc]; rfl)

/-- A token does not go past the end of its line. -/
theorem lineEnd_extractToken (src : Text) : lineEnd (cueExtractToken src).2 = lineEnd src := by
  have hblank : lineEnd (src.dropWhile isBlank) = lineEnd src :=
    dropWhile_dropWhile_of_imp blank_inside src
  have hquote : isNewline (ch '"') = false := by decide
  rw [cueExtractToken, ← hblank]
  split
  · rename_i h
    rw [h]
  · rename_i c rest h
    rw [h]
    split
    · rename_i hc
      have hbehind : lineEnd (rest.dropWhile fun c => !isNewline c && c != ch '"') = lineEnd rest :=
        dropWhile_dropWhile_of_imp (fun c h => (Bool.and_eq_true_iff.mp h).1) rest
      rw [hc, lineEnd_cons hquote, ← hbehind]
      dsimp only
      split
      · rename_i hhead
        obtain ⟨tail, htail⟩ := List.head?_eq_some_iff.mp hhead
        rw [htail, lineEnd_cons hquote]
        rfl
      · rfl
    · have hbehind : lineEnd ((c :: rest).dropWhile fun c => !isNewline c && !isBlank c) =
          lineEnd (c :: rest) :=
        dropWhile_dropWhile_of_imp (fun c h => (Bool.and_eq_true_iff.mp h).1) (c :: rest)
      exact hbehind

/-- Commands that read on in their line and leave the numbers of the tracks. -/
def Keeps (f : CueParser → CueParser) : Prop :=
  ∀ p, (f p).tracks.map (·.nr) = p.tracks.map (·.nr) ∧ lineEnd (f p).src = lineEnd p.src

theorem onLast_keeps {f : CueTrackProto → CueTrackProto} (hf : ∀ t, (f t).nr = t.nr) :
    Keeps (·.onLast f) := by
  intro p
  beta_reduce
  rw [onLast]
  split
  · rename_i t ht
    obtain ⟨front, hfront⟩ := List.getLast?_eq_some_iff.mp ht
    constructor
    · dsimp only
      rw [hfront, List.dropLast_concat, List.map_append, List.map_append, List.map_singleton,
        List.map_singleton, hf t]
    · rfl
  · exact ⟨rfl, rfl⟩

theorem parseField_keeps (get : CueMeta → Option Text) (set : CueMeta → Option Text → CueMeta) :
    Keeps (·.parseField get set) := by
  intro p
  have htoken := lineEnd_extractToken p.src
  beta_reduce
  rw [parseField]
  dsimp only
  split
  · exact ⟨rfl, htoken⟩
  · obtain ⟨hnr, hline⟩ := onLast_keeps
      (f := fun t => { t with info := set t.info ((get t.info).or (some (cueExtractToken p.src).1)) })
      (fun _ => rfl) { p with src := (cueExtractToken p.src).2 }
    exact ⟨hnr, hline.trans htoken⟩

theorem parseFile_keeps : Keeps parseFile :=
  fun p => ⟨rfl, lineEnd_extractToken p.src⟩

theorem parseIndex_keeps : Keeps parseIndex := by
  intro p
  have htoken := lineEnd_extractToken p.src
  have hsecond := (lineEnd_extractToken (cueExtractToken p.src).2).trans htoken
  rw [parseIndex]
  dsimp only
  split
  · exact ⟨rfl, htoken⟩
  · rename_i d _
    split
    · exact ⟨rfl, htoken⟩
    · split
      · exact ⟨rfl, hsecond⟩
      · rename_i offset _
        obtain ⟨hnr, hline⟩ := onLast_keeps (f := fun t =>
            if d = 0 then { t with index0 := toTime offset } else { t with index1 := toTime offset })
          (fun t => by split <;> rfl)
          { p with src := (cueExtractToken (cueExtractToken p.src).2).2 }
        exact ⟨hnr, hline.trans hsecond⟩

theorem parseGap_keeps (post : Bool) : Keeps (·.parseGap post) := by
  intro p
  have htoken := lineEnd_extractToken p.src
  beta_reduce
  rw [parseGap]
  dsimp only
  split
  · exact ⟨rfl, htoken⟩
  · rename_i gap _
    obtain ⟨hnr, hline⟩ := onLast_keeps (f := fun t =>
        if post then { t with postgap := toTime gap } else { t with pregap := toTime gap })
      (fun t => by split <;> rfl) { p with src := (cueExtractToken p.src).2 }
    exact ⟨hnr, hline.trans htoken⟩

theorem parseCmd_keeps {cmds : List (Text × (CueParser → CueParser))}
    (h : ∀ cmd ∈ cmds, Keeps cmd.2) : Keeps (·.parseCmd cmds) := by
  intro p
  have htoken := lineEnd_extractToken p.src
  beta_reduce
  rw [parseCmd]
  dsimp only
  split
  · rename_i cmd parser hfind
    obtain ⟨hnr, hline⟩ := h _ (List.mem_of_find?_eq_some hfind)
      { p with src := (cueExtractToken p.src).2 }
    exact ⟨hnr, hline.trans htoken⟩
  · exact ⟨rfl, htoken⟩

theorem parseRem_keeps : Keeps parseRem := by
  apply parseCmd_keeps
  intro cmd hcmd
  simp only [List.mem_cons, List.not_mem_nil, or_false] at hcmd
  rcases hcmd with rfl | rfl | rfl | rfl | rfl <;> exact parseField_keeps _ _

theorem cueStrEq_congr {a b : Text} (h : cueStrEq a b = true) (c : Text) :
    cueStrEq a c = cueStrEq b c := by
  rw [cueStrEq, cueStrEq, eq_of_beq h]

theorem track_cmd {token : Text} (h : cueStrEq token (ascii "TRACK") = true) :
    lineCmds.find? (fun cmd => cueStrEq token cmd.1) = some (ascii "TRACK", parseTrack) := by
  have hsame : (fun cmd : Text × (CueParser → CueParser) => cueStrEq token cmd.1) =
      fun cmd => cueStrEq (ascii "TRACK") cmd.1 := funext fun cmd => cueStrEq_congr h cmd.1
  rw [hsame]
  rfl

theorem other_cmd {token : Text} (h : cueStrEq token (ascii "TRACK") = false)
    {cmd : Text × (CueParser → CueParser)}
    (hcmd : lineCmds.find? (fun cmd => cueStrEq token cmd.1) = some cmd) : Keeps cmd.2 := by
  have hmem := List.mem_of_find?_eq_some hcmd
  have heq := List.find?_some (p := fun cmd : Text × (CueParser → CueParser) =>
    cueStrEq token cmd.1) hcmd
  simp only [lineCmds, List.mem_cons, List.not_mem_nil, or_false] at hmem
  rcases hmem with rfl | rfl | rfl | rfl | rfl | rfl | rfl | rfl | rfl
  · exact parseFile_keeps
  · exact parseField_keeps _ _
  · exact parseField_keeps _ _
  · exact parseField_keeps _ _
  · rw [h] at heq
    cases heq
  · exact parseIndex_keeps
  · exact parseRem_keeps
  · exact parseGap_keeps _
  · exact parseGap_keeps _

theorem parseLine_spec {p : CueParser} (herr : p.parseLine.err = false) :
    p.parseLine.src = cueSkipLine p.src ∧
      p.parseLine.tracks.map (·.nr) = p.tracks.map (·.nr) ++ (trackNumber p.src).toList := by
  have htoken := lineEnd_extractToken p.src
  by_cases htrack : cueStrEq (cueExtractToken p.src).1 (ascii "TRACK") = true
  · have hnumber : trackNumber p.src =
        cueParseInt (cueExtractToken (cueExtractToken p.src).2).1 := if_pos htrack
    have hsecond := (lineEnd_extractToken (cueExtractToken p.src).2).trans htoken
    have hcmd : p.parseCmd lineCmds = parseTrack { p with src := (cueExtractToken p.src).2 } := by
      rw [parseCmd]
      dsimp only
      rw [track_cmd htrack]
    rw [hnumber]
    rw [parseLine, hcmd] at herr ⊢
    dsimp only [parseTrack] at herr ⊢
    cases hint : cueParseInt (cueExtractToken (cueExtractToken p.src).2).1 with
    | none =>
      rw [hint] at herr
      cases herr
    | some d =>
      constructor
      · exact skipLine_congr hsecond
      · rw [List.map_append]
        rfl
  · have hother : cueStrEq (cueExtractToken p.src).1 (ascii "TRACK") = false :=
      Bool.eq_false_of_not_eq_true htrack
    have hnumber : trackNumber p.src = none := if_neg htrack
    have hkeeps : (p.parseCmd lineCmds).tracks.map (·.nr) = p.tracks.map (·.nr) ∧
        lineEnd (p.parseCmd lineCmds).src = lineEnd p.src := by
      rw [parseCmd]
      dsimp only
      split
      · rename_i name parser hfind
        obtain ⟨hnr, hline⟩ := other_cmd hother hfind { p with src := (cueExtractToken p.src).2 }
        exact ⟨hnr, hline.trans htoken⟩
      · exact ⟨rfl, htoken⟩
    rw [hnumber, Option.toList_none, List.append_nil]
    exact ⟨skipLine_congr hkeeps.2, hkeeps.1⟩

theorem parseLines_err {fuel : Nat} {p : CueParser} (h : (parseLines fuel p).err = false) :
    p.err = false := by
  cases fuel with
  | zero => exact h
  | succ fuel =>
    rw [parseLines] at h
    split at h
    · rename_i hgo
      exact hgo.2
    · exact h

/-- The tracks of a text without error are its TRACK lines. -/
theorem parseLines_numbers (fuel : Nat) {p : CueParser} (h : (parseLines fuel p).err = false) :
    (parseLines fuel p).tracks.map (·.nr) =
      p.tracks.map (·.nr) ++ trackNumbersLoop fuel p.src := by
  induction fuel generalizing p with
  | zero => exact (List.append_nil _).symm
  | succ fuel ih =>
    have herr := parseLines_err h
    rw [parseLines] at h ⊢
    rw [trackNumbersLoop]
    by_cases hsrc : p.src = []
    · rw [if_neg (by simp [hsrc]), if_neg (by simp [hsrc]), List.append_nil]
    · rw [if_pos ⟨hsrc, herr⟩] at h ⊢
      obtain ⟨hnext, hnr⟩ := parseLine_spec (parseLines_err h)
      rw [if_pos hsrc, ih h, hnext, hnr, List.append_assoc]

theorem cueSkipLine_length {src : Text} (h : src ≠ []) : (cueSkipLine src).length < src.length := by
  have hpos := List.length_pos_of_ne_nil h
  have hsuffix := (List.dropWhile_suffix (!isNewline ·) (l := src)).length_le
  rw [cueSkipLine]
  split
  · exact hpos
  · rename_i c rest hline
    rw [hline, List.length_cons] at hsuffix
    split
    · rw [List.length_drop]
      omega
    · omega

/-- The rounds are enough to read the whole text. -/
theorem parseLines_done {fuel : Nat} {p : CueParser} (hfuel : p.src.length ≤ fuel)
    (h : (parseLines fuel p).err = false) : (parseLines fuel p).src = [] := by
  induction fuel generalizing p with
  | zero => exact List.eq_nil_of_length_eq_zero (by rw [parseLines]; omega)
  | succ fuel ih =>
    have herr := parseLines_err h
    rw [parseLines] at h ⊢
    by_cases hsrc : p.src = []
    · rw [if_neg (by simp [hsrc])]
      exact hsrc
    · rw [if_pos ⟨hsrc, herr⟩] at h ⊢
      apply ih _ h
      have hless := cueSkipLine_length hsrc
      rw [(parseLine_spec (parseLines_err h)).1]
      omega

/-! ### The base of a sheet -/

theorem fillIndices_nr (t : CueTrackProto) : (fillIndices t).nr = t.nr := by
  unfold fillIndices
  dsimp only
  split
  · split <;> rfl
  · rfl

theorem fillTracks_nr {last : Int} {tracks filled : List CueTrackProto}
    (h : fillTracks last tracks = some filled) : filled.map (·.nr) = tracks.map (·.nr) := by
  induction tracks generalizing last filled with
  | nil =>
    cases h
    rfl
  | cons t tracks ih =>
    rw [fillTracks] at h
    split at h
    · cases h
    · split at h
      · cases h
      · obtain ⟨rest, hrest, hfilled⟩ := Option.map_eq_some_iff.mp h
        rw [← hfilled, List.map_cons, List.map_cons, fillIndices_nr, ih hrest]

theorem sheetTracks_length (tracks : List CueTrackProto) :
    (sheetTracks tracks).length = tracks.length := by
  induction tracks with
  | nil => rfl
  | cons t tracks ih =>
    cases tracks with
    | nil => rfl
    | cons next rest =>
      rw [sheetTracks, List.length_cons, ih]
      rfl

theorem cuePostProcess_nr {p : CueParser} {file : Text} {tracks : List CueTrackProto}
    (h : cuePostProcess p = some (file, tracks)) :
    tracks.map (·.nr) = p.tracks.map (·.nr) ∧ p.tracks ≠ [] := by
  rw [cuePostProcess] at h
  split at h
  · cases h
  · split at h
    · cases h
    · rename_i hne
      split at h
      · obtain ⟨filled, hfilled, hpair⟩ := Option.map_eq_some_iff.mp h
        cases hpair
        exact ⟨fillTracks_nr hfilled, hne⟩
      · cases h

/-- A sheet has a track for each TRACK line, and its base comes from the last of them. -/
theorem cueParse_tracks {src : Text} {s : CueSheet} (h : cueParse src = some s) :
    s.tracks.length = (trackNumbers src).length ∧ trackNumbers src ≠ [] ∧
      s.trackBase = ((trackNumbers src).getLast?.getD 0 + 1).toUInt64 -
        UInt64.ofNat (trackNumbers src).length := by
  rw [cueParse] at h
  dsimp only at h
  split at h
  · cases h
  · rename_i herr
    obtain ⟨⟨file, tracks⟩, hpost, hsheet⟩ := Option.map_eq_some_iff.mp h
    obtain ⟨hnr, hne⟩ := cuePostProcess_nr hpost
    rw [parseLines_numbers _ (Bool.eq_false_of_not_eq_true herr)] at hnr
    have hnumbers : tracks.map (·.nr) = trackNumbers src := hnr
    have hlength : tracks.length = (trackNumbers src).length := by
      rw [← hnumbers, List.length_map]
    subst hsheet
    refine ⟨?_, ?_, ?_⟩
    · exact (sheetTracks_length tracks).trans hlength
    · intro hnil
      have hempty := parseLines_numbers _ (Bool.eq_false_of_not_eq_true herr)
      rw [show trackNumbersLoop src.length src = [] from hnil] at hempty
      exact hne (List.map_eq_nil_iff.mp hempty)
    · show ((tracks.getLast?.map (·.nr)).getD 0 + 1).toUInt64 - UInt64.ofNat tracks.length = _
      rw [hlength, ← List.getLast?_map, hnumbers]

/-! ### URLs -/

theorem isCueUrl_append (t : Text) : isCueUrl (ascii "cue://" ++ t) = true :=
  List.isPrefixOf_iff_prefix.mpr (List.prefix_append _ _)

theorem parseCueUrl_append (cueFilename : Text) {t : Text} (ht : slash ∉ t) :
    parseCueUrl (ascii "cue://" ++ cueFilename ++ slash :: t) =
      if (strToInt t).2 then some (cueFilename, toInt (strToInt t).1) else none := by
  have hdrop : (ascii "cue://" ++ (cueFilename ++ slash :: t)).drop 6 = cueFilename ++ slash :: t :=
    List.drop_left' (by decide)
  rw [List.append_assoc, parseCueUrl, if_pos (isCueUrl_append _), hdrop,
    splitSlash_append cueFilename ht]

theorem cueUrl_length (cueFilename : Text) (i : Int) :
    (cueUrl cueFilename i).length = 7 + cueFilename.length + (printInt i).length := by
  have hscheme : (ascii "cue://").length = 6 := by decide
  rw [cueUrl, List.length_append, List.length_append, List.length_cons, hscheme]
  omega

theorem parseCueUrl_fits {cueFilename : Text} {i : Int} (hi : 0 ≤ i) (hmax : i ≤ intMax)
    (h : (cueUrl cueFilename i).length ≤ 4095) :
    parseCueUrl (constructCueUrl cueFilename i) = some (cueFilename, i) := by
  rw [constructCueUrl, List.take_of_length_le h, cueUrl, printInt_pos hi,
    parseCueUrl_append cueFilename (slash_not_mem fun _ => decimal_digits),
    strToInt_decimal hi hmax, if_pos rfl, toInt_of_le hi hmax]

theorem parseCueUrl_filename {t filename : Text} {i : Int}
    (h : parseCueUrl (ascii "cue://" ++ t) = some (filename, i)) : filename.length < t.length := by
  have hdrop : (ascii "cue://" ++ t).drop 6 = t := List.drop_left' (by decide)
  rw [parseCueUrl, if_pos (isCueUrl_append t), hdrop] at h
  split at h
  · rename_i front track hsplit
    split at h
    · cases h
      exact splitSlash_length hsplit
    · cases h
  · cases h

/-- A URL that is cut denotes no track, or one with a smaller number. -/
theorem parseCueUrl_cut {cueFilename : Text} {i j : Int} (hi : 1 ≤ i) (hmax : i ≤ intMax)
    (hlong : ¬ (cueUrl cueFilename i).length ≤ 4095)
    (h : parseCueUrl (constructCueUrl cueFilename i) = some (cueFilename, j)) :
    0 ≤ j ∧ j < i ∧ i ≠ 1 := by
  rw [cueUrl_length] at hlong
  have hscheme : (ascii "cue://").length = 6 := by decide
  by_cases hhead : 7 + cueFilename.length ≤ 4095
  · obtain ⟨k, hk⟩ : ∃ k, 4095 = (ascii "cue://" ++ cueFilename).length + (k + 1) :=
      ⟨4088 - cueFilename.length, by rw [List.length_append, hscheme]; omega⟩
    have hkDigits : k < (decimal i.natAbs).length := by
      rw [printInt_pos (by omega)] at hlong
      rw [List.length_append, hscheme] at hk
      omega
    have hdigits : ∀ c ∈ (decimal i.natAbs).take k, isDigit c = true :=
      fun c hc => decimal_digits (List.mem_of_mem_take hc)
    rw [constructCueUrl, cueUrl, printInt_pos (by omega), hk, List.take_length_add_append,
      List.take_succ_cons, parseCueUrl_append cueFilename (slash_not_mem hdigits)] at h
    by_cases hnil : (decimal i.natAbs).take k = []
    · rw [hnil, if_neg (by decide)] at h
      cases h
    · obtain ⟨y, hy, hread⟩ := strToInt_take hmax hkDigits hi hnil
      rw [hread, if_pos rfl, toInt_of_le (Int.natCast_nonneg y) (by omega)] at h
      have hsame := congrArg Prod.snd (Option.some.inj h)
      dsimp only at hsame
      refine ⟨by omega, by omega, ?_⟩
      intro hone
      have hk0 : k ≠ 0 := by
        intro hk0
        rw [hk0] at hnil
        exact hnil rfl
      rw [hone, show (decimal (Int.natAbs 1)).length = 1 from by decide] at hkDigits
      omega
  · have htake : (cueFilename ++ slash :: printInt i).take 4089 = cueFilename.take 4089 :=
      List.take_append_of_le_length (by omega)
    have hsplit : (4095 : Nat) = (ascii "cue://").length + 4089 := by decide
    rw [constructCueUrl, cueUrl, List.append_assoc, hsplit, List.take_length_add_append,
      htake] at h
    have hlength := parseCueUrl_filename h
    rw [List.length_take] at hlength
    omega

/-! ### The tracks of a sheet -/

theorem cueGetTrack_one {s : CueSheet} (h : cueGetTrack s 1 = some 0) : s.trackBase = 1 := by
  rw [cueGetTrack] at h
  split at h
  · cases h
  · have hzero := Option.some.inj h
    have hsame : (1 : UInt64) = 0 + s.trackBase := by
      rw [← hzero, UInt64.sub_add_cancel]
    rw [hsame, UInt64.zero_add]

theorem cueGetTrack_base {s : CueSheet} (hbase : s.trackBase = 1)
    (hlength : (s.tracks.length : Int) < intMax) {i : Int} (hlow : 1 ≤ i)
    (hhigh : i ≤ s.tracks.length) :
    cueGetTrack s (UInt64.ofInt i) = some (UInt64.ofNat (i - 1).toNat) := by
  unfold intMax at hlength
  obtain ⟨k, hk⟩ : ∃ k : Nat, i = k + 1 := ⟨(i - 1).toNat, by omega⟩
  have hi : UInt64.ofInt i = UInt64.ofNat (k + 1) := by
    have hmod : i % 2 ^ 64 = i := Int.emod_eq_of_lt (by omega) (by omega)
    rw [UInt64.ofInt, hmod]
    congr 1
    omega
  have hpred : (i - 1).toNat = k := by omega
  have hsub : UInt64.ofNat (k + 1) - 1 = UInt64.ofNat k := by
    rw [UInt64.ofNat_add]
    exact UInt64.add_sub_cancel _ _
  rw [cueGetTrack, hbase, hi, hsub, hpred]
  apply if_neg
  intro hout
  rw [UInt64.lt_iff_toNat_lt, gt_iff_lt, UInt64.lt_iff_toNat_lt, CueSheet.numTracks,
    UInt64.toNat_ofNat_of_lt' (show k + 1 < 2 ^ 64 by omega),
    UInt64.toNat_ofNat_of_lt' (show k < 2 ^ 64 by omega),
    UInt64.toNat_ofNat_of_lt' (show s.tracks.length < 2 ^ 64 by omega)] at hout
  have hone : (1 : UInt64).toNat = 1 := rfl
  omega

/-- With the base 1, an index is one less than the number. -/
theorem cueGetTrack_index {s : CueSheet} (hbase : s.trackBase = 1) {n : Nat} (hn : (n : Int) < intMax)
    {i : Int} (hlow : 0 ≤ i) (hhigh : i ≤ n)
    (h : cueGetTrack s (UInt64.ofInt i) = some (UInt64.ofNat (n - 1))) : i = n ∨ n = 0 := by
  unfold intMax at hn
  rw [cueGetTrack, hbase] at h
  split at h
  · cases h
  · rename_i hin
    have hmod : i % 2 ^ 64 = i := Int.emod_eq_of_lt (by omega) (by omega)
    have hi : (UInt64.ofInt i).toNat = i.toNat := by
      rw [UInt64.ofInt, hmod, UInt64.toNat_ofNat_of_lt' (show i.toNat < 2 ^ 64 by omega)]
    have hone : (1 : UInt64).toNat = 1 := rfl
    have hle : (1 : UInt64) ≤ UInt64.ofInt i := UInt64.not_lt.mp fun hlt => hin (Or.inl hlt)
    have hsub := congrArg UInt64.toNat (Option.some.inj h)
    rw [UInt64.toNat_sub_of_le _ _ hle, hi, hone,
      UInt64.toNat_ofNat_of_lt' (show n - 1 < 2 ^ 64 by omega)] at hsub
    rw [UInt64.le_iff_toNat_le, hi, hone] at hle
    omega

theorem last_of_base {src : Text} {s : CueSheet} (hparse : cueParse src = some s)
    (h : s.trackBase = 1) (hless : ((trackNumbers src).length : Int) < intMax) :
    (trackNumbers src).getLast?.map UInt32.toNat = some (trackNumbers src).length := by
  unfold intMax at hless
  obtain ⟨-, hne, hbase⟩ := cueParse_tracks hparse
  obtain ⟨last, hlast⟩ := Option.isSome_iff_exists.mp (List.getLast?_isSome.mpr hne)
  have hpos := List.length_pos_of_ne_nil hne
  rw [hlast, Option.getD_some, h] at hbase
  rw [hlast, Option.map_some]
  congr 1
  have hsum : (last + 1).toUInt64 = 1 + UInt64.ofNat (trackNumbers src).length := by
    rw [hbase, UInt64.sub_add_cancel]
  have hnat := congrArg UInt64.toNat hsum
  rw [UInt64.toNat_add, UInt32.toNat_toUInt64, UInt32.toNat_add,
    UInt64.toNat_ofNat_of_lt' (show (trackNumbers src).length < 2 ^ 64 by omega)] at hnat
  have hone : (1 : UInt64).toNat = 1 := rfl
  have hone' : (1 : UInt32).toNat = 1 := rfl
  have hbound := last.toNat_lt
  omega

/-- Where each track is added, the last TRACK line has the number of all of them. -/
theorem numbers_of_adds {src : Text} {s : CueSheet} (hparse : cueParse src = some s)
    {cueFilename : Text} (h : AddsEachTrack cueFilename s) :
    (cueUrl cueFilename (trackNumbers src).length).length ≤ 4095 ∧
      (trackNumbers src).getLast?.map UInt32.toNat = some (trackNumbers src).length ∧
      ((trackNumbers src).length : Int) < intMax := by
  obtain ⟨hlength, hne, hbase⟩ := cueParse_tracks hparse
  have hpos := List.length_pos_of_ne_nil hne
  obtain ⟨rounds, urls, hadd, hresolve⟩ := h
  have hcount := congrArg List.length hresolve
  rw [List.length_map, List.length_map, List.length_range, hlength] at hcount
  have hmax : cueGetNtracks (some s) ≤ intMax := toInt_le _
  rw [addFileCue] at hadd
  split at hadd
  · cases hadd
    rw [List.length_nil] at hcount
    omega
  · rename_i hsome
    obtain ⟨numbers, hnumbers, hurls⟩ := Option.map_eq_some_iff.mp hadd
    have hless : cueGetNtracks (some s) < intMax := by
      by_contra hnot
      rw [show cueGetNtracks (some s) = intMax by omega,
        countUp_endless rounds (by decide)] at hnumbers
      cases hnumbers
    rw [countUp_eq hless rounds (by decide)] at hnumbers
    split at hnumbers
    · have hinterval : interval 1 (cueGetNtracks (some s)) = numbers := Option.some.inj hnumbers
      have hn : cueGetNtracks (some s) = (trackNumbers src).length := by
        rw [← hcount, ← hurls, List.length_map, ← hinterval, interval_length]
        omega
      rw [hn] at hinterval hless
      rw [← hurls, List.map_map, ← hinterval, hlength] at hresolve
      have hall (k : Nat) (hk : k < (trackNumbers src).length) :
          resolve cueFilename s (constructCueUrl cueFilename (1 + k)) = some (UInt64.ofNat k) := by
        have hget := congrArg (fun l : List (Option UInt64) => l[k]?) hresolve
        have hrange : ((trackNumbers src).length + 1 - (1 : Int)).toNat =
            (trackNumbers src).length := by omega
        simpa [interval, hrange, List.getElem?_range hk] using hget
      have hparsed (k : Nat) (hk : k < (trackNumbers src).length) : ∃ i,
          parseCueUrl (constructCueUrl cueFilename (1 + k)) = some (cueFilename, i) ∧
            cueGetTrack s (UInt64.ofInt i) = some (UInt64.ofNat k) := by
        have hk' := hall k hk
        rw [resolve] at hk'
        split at hk'
        · rename_i filename i hurl
          split at hk'
          · rename_i hname
            exact ⟨i, hname ▸ hurl, hk'⟩
          · cases hk'
        · cases hk'
      have hbase : s.trackBase = 1 := by
        obtain ⟨i, hurl, htrack⟩ := hparsed 0 hpos
        have hone : i = 1 := by
          by_cases hfits : (cueUrl cueFilename (1 + (0 : Nat))).length ≤ 4095
          · rw [parseCueUrl_fits (by decide) (by decide) hfits] at hurl
            exact (congrArg Prod.snd (Option.some.inj hurl)).symm
          · exact absurd rfl (parseCueUrl_cut (by decide) (by decide) hfits hurl).2.2
        rw [hone] at htrack
        exact cueGetTrack_one htrack
      refine ⟨?_, last_of_base hparse hbase hless, hless⟩
      by_contra hlong
      obtain ⟨i, hurl, htrack⟩ := hparsed ((trackNumbers src).length - 1) (by omega)
      have hlast : (1 : Int) + ((trackNumbers src).length - 1 : Nat) =
          (trackNumbers src).length := by omega
      rw [hlast] at hurl
      obtain ⟨hlow, hhigh, -⟩ := parseCueUrl_cut (by omega) (by omega) hlong hurl
      have hindex := cueGetTrack_index hbase (by omega) hlow (by omega) htrack
      omega
    · cases hnumbers

theorem base_of_last {src : Text} {s : CueSheet} (hparse : cueParse src = some s)
    (h : (trackNumbers src).getLast?.map UInt32.toNat = some (trackNumbers src).length)
    (hless : ((trackNumbers src).length : Int) < intMax) : s.trackBase = 1 := by
  unfold intMax at hless
  obtain ⟨-, -, hbase⟩ := cueParse_tracks hparse
  obtain ⟨last, hlast, hnat⟩ := Option.map_eq_some_iff.mp h
  have hsum : (last + 1).toUInt64 = 1 + UInt64.ofNat (trackNumbers src).length := by
    apply UInt64.toNat_inj.mp
    have hone : (1 : UInt64).toNat = 1 := rfl
    have hone' : (1 : UInt32).toNat = 1 := rfl
    rw [UInt64.toNat_add, UInt32.toNat_toUInt64, UInt32.toNat_add, hnat,
      UInt64.toNat_ofNat_of_lt' (show (trackNumbers src).length < 2 ^ 64 by omega)]
    omega
  rw [hbase, hlast, Option.getD_some, hsum, UInt64.add_sub_cancel]

theorem adds_of_numbers {src : Text} {s : CueSheet} (hparse : cueParse src = some s)
    {cueFilename : Text}
    (hfits : (cueUrl cueFilename (trackNumbers src).length).length ≤ 4095)
    (hlast : (trackNumbers src).getLast?.map UInt32.toNat = some (trackNumbers src).length)
    (hless : ((trackNumbers src).length : Int) < intMax) : AddsEachTrack cueFilename s := by
  obtain ⟨hlength, hne, -⟩ := cueParse_tracks hparse
  have hbase := base_of_last hparse hlast hless
  have hpos := List.length_pos_of_ne_nil hne
  have hmax := hless
  unfold intMax at hmax
  have hn : cueGetNtracks (some s) = (trackNumbers src).length := by
    have hnat : s.numTracks.toNat = (trackNumbers src).length := by
      rw [CueSheet.numTracks, hlength]
      exact UInt64.toNat_ofNat_of_lt' (show (trackNumbers src).length < 2 ^ 64 by omega)
    rw [cueGetNtracks, hnat]
    exact toInt_of_le (by omega) (by omega)
  have hadd (rounds : Nat) : addFileCue rounds cueFilename (some s) =
      (countUp (trackNumbers src).length rounds 1).map fun numbers =>
        numbers.map (constructCueUrl cueFilename) := by
    rw [addFileCue, hn]
    exact if_neg (by omega)
  have hrun := hadd (((trackNumbers src).length + 1 - (1 : Int)).toNat + 1)
  rw [countUp_eq hless _ (by decide), if_pos (Nat.lt_succ_self _), Option.map_some] at hrun
  have hrange : ((trackNumbers src).length + 1 - (1 : Int)).toNat = (trackNumbers src).length := by
    omega
  refine ⟨_, _, hrun, ?_⟩
  rw [interval, List.map_map, List.map_map, hrange, hlength]
  apply List.map_congr_left
  intro k hk
  have hk' := List.mem_range.mp hk
  have hdigits : (printInt (1 + k)).length ≤ (printInt (trackNumbers src).length).length := by
    rw [printInt_pos (by omega), printInt_pos (by omega)]
    exact decimal_length_mono (by omega)
  have hurl : parseCueUrl (constructCueUrl cueFilename (1 + k)) = some (cueFilename, 1 + (k : Int)) := by
    apply parseCueUrl_fits (by omega) (by omega)
    rw [cueUrl_length] at hfits ⊢
    omega
  show resolve cueFilename s (constructCueUrl cueFilename (1 + k)) = some (UInt64.ofNat k)
  rw [resolve, hurl]
  dsimp only
  have hindex : (1 + (k : Int) - 1).toNat = k := by omega
  rw [if_pos rfl, cueGetTrack_base hbase (by omega) (by omega) (by omega), hindex]

/-- The TRACK lines of a sheet that is accepted follow each other, so the last one has the
number of all where the first has the number 1. -/
theorem add_file_cue_tracks {src : Text} {s : CueSheet} (hparse : cueParse src = some s)
    (cueFilename : Text) :
    AddsEachTrack cueFilename s ↔
      (cueUrl cueFilename (trackNumbers src).length).length ≤ 4095 ∧
        (trackNumbers src).getLast?.map UInt32.toNat = some (trackNumbers src).length ∧
        ((trackNumbers src).length : Int) < intMax :=
  ⟨numbers_of_adds hparse, fun h => adds_of_numbers hparse h.1 h.2.1 h.2.2⟩

def sheetFrom (first second : String) : Text :=
  ascii "FILE a.wav WAVE\n" ++
    ascii "TRACK " ++ ascii first ++ ascii " AUDIO\nINDEX 01 00:00:00\n" ++
    ascii "TRACK " ++ ascii second ++ ascii " AUDIO\nINDEX 01 02:00:00\n"

theorem add_file_cue_example : ∃ s, cueParse (sheetFrom "01" "02") = some s ∧
    AddsEachTrack (ascii "/m/a.cue") s := by
  obtain ⟨s, hs⟩ := Option.isSome_iff_exists.mp
    (show (cueParse (sheetFrom "01" "02")).isSome = true by decide +kernel)
  have hlength : (trackNumbers (sheetFrom "01" "02")).length = 2 := by decide +kernel
  refine ⟨s, hs, (add_file_cue_tracks hs (ascii "/m/a.cue")).mpr ⟨?_, ?_, ?_⟩⟩
  · rw [hlength]
    decide +kernel
  · decide +kernel
  · rw [hlength]
    decide

/-- A sheet that starts at track 2 has no track 1, and its second URL is for its first
track. -/
theorem add_file_cue_shifted : ∃ s, cueParse (sheetFrom "02" "03") = some s ∧
    ¬ AddsEachTrack (ascii "/m/a.cue") s ∧
    resolve (ascii "/m/a.cue") s (constructCueUrl (ascii "/m/a.cue") 1) = none ∧
    resolve (ascii "/m/a.cue") s (constructCueUrl (ascii "/m/a.cue") 2) = some 0 := by
  obtain ⟨s, hs⟩ := Option.isSome_iff_exists.mp
    (show (cueParse (sheetFrom "02" "03")).isSome = true by decide +kernel)
  have hlast : (trackNumbers (sheetFrom "02" "03")).getLast?.map UInt32.toNat ≠
      some (trackNumbers (sheetFrom "02" "03")).length := by decide +kernel
  have hresolve : ((cueParse (sheetFrom "02" "03")).map fun s =>
      (resolve (ascii "/m/a.cue") s (constructCueUrl (ascii "/m/a.cue") 1),
        resolve (ascii "/m/a.cue") s (constructCueUrl (ascii "/m/a.cue") 2))) =
      some (none, some 0) := by decide +kernel
  rw [hs, Option.map_some] at hresolve
  have hpair := Option.some.inj hresolve
  exact ⟨s, hs, fun h => hlast (numbers_of_adds hs h).2.1, congrArg Prod.fst hpair,
    congrArg Prod.snd hpair⟩

end GracefulMusic.Cue
