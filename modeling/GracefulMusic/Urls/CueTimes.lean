import GracefulMusic.Urls.CueTracks
import Mathlib.Data.List.Chain

/-! Numbers, offsets and lengths of a cue sheet (`cue.c`).

What is read is compared with the exact values of the digits in the text, and what is
computed with the exact sums of what was read. -/
namespace GracefulMusic.Cue
open CueParser

/-! ### Exact values -/

/-- Minutes, seconds and frames; what is missing is 0, and a fourth part is left out. -/
def exactTime (token : Text) : Nat :=
  let parts := token.splitOn (ch ':')
  (digitsValue (parts.getD 0 []) * 60 + digitsValue (parts.getD 1 [])) * 75 +
    digitsValue (parts.getD 2 [])

/-- More digits behind those of a number. -/
def digitsFrom (n : Nat) (s : Text) : Nat := s.foldl (fun n c => 10 * n + (c - ch '0').toNat) n

theorem addDigit_ofNat (n : Nat) (c : UInt8) :
    UInt32.ofNat n * 10 + (c - ch '0').toUInt32 = UInt32.ofNat (10 * n + (c - ch '0').toNat) := by
  apply UInt32.toNat_inj.mp
  have hc := (c - ch '0').toNat_lt
  have hten : (10 : UInt32).toNat = 10 := rfl
  simp only [UInt32.toNat_add, UInt32.toNat_mul, UInt32.toNat_ofNat', UInt8.toNat_toUInt32, hten]
  omega

theorem cueParseInt_eq {token : Text} {u : UInt32} (h : cueParseInt token = some u) :
    u = UInt32.ofNat (digitsValue token) := by
  have hloop : ∀ (n : Nat) (token : Text) (u : UInt32), token.foldlM (fun val c =>
      if isDigit c then some (val * 10 + (c - ch '0').toUInt32) else none) (UInt32.ofNat n) =
        some u →
      u = UInt32.ofNat (digitsFrom n token) := by
    intro n token
    induction token generalizing n with
    | nil =>
      intro u h
      exact (Option.some.inj h).symm
    | cons c token ih =>
      intro u h
      rw [List.foldlM_cons] at h
      by_cases hc : isDigit c = true
      · rw [if_pos hc, Option.bind_eq_bind, Option.bind_some, addDigit_ofNat] at h
        exact ih _ u h
      · rw [if_neg hc] at h
        cases h
  exact hloop 0 token u h

/-- The loop adds to the part it is in, and then to those behind. -/
theorem cueParseTimeLoop_eq {m s f : Nat} {pos : Nat} (hpos : pos ≤ 2) {token : Text}
    {v : UInt32 × UInt32 × UInt32}
    (h : cueParseTimeLoop (UInt32.ofNat m, UInt32.ofNat s, UInt32.ofNat f) pos token = some v) :
    let parts := List.replicate pos [] ++ token.splitOn (ch ':')
    v = (UInt32.ofNat (digitsFrom m (parts.getD 0 [])),
      UInt32.ofNat (digitsFrom s (parts.getD 1 [])),
      UInt32.ofNat (digitsFrom f (parts.getD 2 []))) := by
  induction token generalizing m s f pos with
  | nil =>
    obtain rfl := Option.some.inj h
    have hpos : pos = 0 ∨ pos = 1 ∨ pos = 2 := by omega
    rcases hpos with rfl | rfl | rfl <;> rfl
  | cons c token ih =>
    rw [cueParseTimeLoop] at h
    by_cases hcolon : c = ch ':'
    · rw [if_pos hcolon] at h
      have hsplit : (c :: token).splitOn (ch ':') = [] :: token.splitOn (ch ':') := by
        rw [hcolon]
        exact List.splitOn_append_cons_self_of_not_mem List.not_mem_nil token
      rw [hsplit]
      by_cases hlast : pos = 2
      · subst hlast
        obtain rfl := Option.some.inj h
        rfl
      · rw [if_neg hlast] at h
        have hnext := ih (by omega) h
        rw [List.replicate_succ', List.append_assoc] at hnext
        exact hnext
    · rw [if_neg hcolon] at h
      have hsplit : (c :: token).splitOn (ch ':') = (token.splitOn (ch ':')).modifyHead
        (c :: ·) := by
        rw [List.splitOn_cons_eq_if_modifyHead, if_neg (by simpa using hcolon)]
      obtain ⟨first, parts, hparts⟩ :=
        List.exists_cons_of_ne_nil (List.splitOn_ne_nil (ch ':') token)
      rw [hparts] at ih
      rw [hsplit, hparts, List.modifyHead_cons]
      split at h
      · dsimp only at h
        have hcases : pos = 0 ∨ pos = 1 ∨ pos = 2 := by omega
        rcases hcases with rfl | rfl | rfl
        · rw [if_pos rfl, addDigit_ofNat] at h
          exact ih (by omega) h
        · rw [if_neg (by decide), if_pos rfl, addDigit_ofNat] at h
          exact ih (by omega) h
        · rw [if_neg (by decide), if_neg (by decide), addDigit_ofNat] at h
          exact ih (by omega) h
      · cases h

theorem cueParseTime_eq {token : Text} {x : UInt32} (h : cueParseTime token = some x) :
    x = UInt32.ofNat (exactTime token) := by
  obtain ⟨v, hv, hx⟩ := Option.map_eq_some_iff.mp h
  have hloop := @cueParseTimeLoop_eq 0 0 0 0 (by decide) token v hv
  rw [← hx, hloop]
  apply UInt32.toNat_inj.mp
  have h60 : (60 : UInt32).toNat = 60 := rfl
  have h75 : (75 : UInt32).toNat = 75 := rfl
  simp only [exactTime, UInt32.toNat_add, UInt32.toNat_mul, UInt32.toNat_ofNat', h60, h75]
  show _ = ((digitsFrom 0 _ * 60 + digitsFrom 0 _) * 75 + digitsFrom 0 _) % 2 ^ 32
  simp only [List.replicate_zero, List.nil_append]
  omega

theorem toTime_ofNat_eq_iff (n : Nat) : toTime (UInt32.ofNat n) = n ↔ n < 2 ^ 31 := by
  have hmod : toTime (UInt32.ofNat n) = Int.bmod n (2 ^ 32) := by
    rw [toTime, toInt, UInt32.toNat_ofNat']
    push_cast
    exact Int.emod_bmod n 4294967296
  rw [hmod]
  constructor
  · intro h
    have := @Int.bmod_lt n (2 ^ 32) (by decide)
    omega
  · intro h
    exact Int.bmod_eq_of_le (by omega) (by omega)

/-! ### What a text has numbers and times in -/

/-- The token of a number that a line has, and what is read. -/
def lineNumber (src : Text) : Option (Text × UInt32) :=
  let (cmd, rest) := cueExtractToken src
  let token := (cueExtractToken rest).1
  if cueStrEq cmd (ascii "TRACK") ∨ cueStrEq cmd (ascii "INDEX") then (cueParseInt token).map
    (token, ·)
  else none

/-- The token of a time that a line has, and what is stored. -/
def lineTime (src : Text) : Option (Text × Int) :=
  let (cmd, rest) := cueExtractToken src
  let (token, rest) := cueExtractToken rest
  if cueStrEq cmd (ascii "INDEX") then
    match cueParseInt token with
    | none => none
    | some d =>
      if d > 1 then none
      else (cueParseTime (cueExtractToken rest).1).map ((cueExtractToken rest).1, toTime ·)
  else if cueStrEq cmd (ascii "PREGAP") ∨ cueStrEq cmd (ascii "POSTGAP") then
    (cueParseTime token).map (token, toTime ·)
  else none

def readsLoop {α : Type} (line : Text → Option α) : Nat → Text → List α
  | 0, _ => []
  | fuel + 1, src => if src ≠ [] then (line src).toList ++ readsLoop line fuel
      (cueSkipLine src) else []

def numbersRead (src : Text) : List (Text × UInt32) := readsLoop lineNumber src.length src

def timesRead (src : Text) : List (Text × Int) := readsLoop lineTime src.length src

/-- The tracks before their indices are filled in. -/
def readTracks (src : Text) : List CueTrackProto :=
  (CueParser.parseLines src.length ⟨src, false, none, [], CueMeta.empty⟩).tracks

theorem forall_readsLoop {α : Type} {line : Text → Option α} {P : α → Prop}
    (h : ∀ src, ∀ r ∈ line src, P r) (fuel : Nat) (src : Text) : ∀ r ∈ readsLoop line fuel src,
      P r := by
  induction fuel generalizing src with
  | zero => exact fun r hr => absurd hr List.not_mem_nil
  | succ fuel ih =>
    rw [readsLoop]
    split
    · intro r hr
      rcases List.mem_append.mp hr with hr | hr
      · exact h src r (Option.mem_toList.mp hr)
      · exact ih _ r hr
    · exact fun r hr => absurd hr List.not_mem_nil

theorem numbersRead_eq (src : Text) : ∀ r ∈ numbersRead src, r.2 =
    UInt32.ofNat (digitsValue r.1) := by
  apply forall_readsLoop
  intro src r hr
  rw [lineNumber] at hr
  dsimp only at hr
  split at hr
  · obtain ⟨u, hu, rfl⟩ := Option.map_eq_some_iff.mp hr
    exact cueParseInt_eq hu
  · cases hr

theorem timesRead_eq (src : Text) :
    ∀ r ∈ timesRead src, r.2 = toTime (UInt32.ofNat (exactTime r.1)) := by
  apply forall_readsLoop
  intro src r hr
  have htime : ∀ token : Text, (cueParseTime token).map (token, toTime ·) = some r →
      r.2 = toTime (UInt32.ofNat (exactTime r.1)) := by
    intro token hmap
    obtain ⟨x, hx, rfl⟩ := Option.map_eq_some_iff.mp hmap
    rw [cueParseTime_eq hx]
  rw [lineTime] at hr
  dsimp only at hr
  split at hr
  · split at hr
    · cases hr
    · split at hr
      · cases hr
      · exact htime _ hr
  · split at hr
    · exact htime _ hr
    · cases hr

theorem numbers_exact_iff (src : Text) : (∀ r ∈ numbersRead src, r.2.toNat = digitsValue r.1) ↔
    ∀ r ∈ numbersRead src, digitsValue r.1 < 2 ^ 32 := by
  refine forall₂_congr fun r hr => ?_
  rw [numbersRead_eq src r hr, UInt32.toNat_ofNat']
  omega

theorem times_exact_iff (src : Text) : (∀ r ∈ timesRead src, r.2 = exactTime r.1) ↔
    ∀ r ∈ timesRead src, exactTime r.1 < 2 ^ 31 := by
  refine forall₂_congr fun r hr => ?_
  rw [timesRead_eq src r hr, toTime_ofNat_eq_iff]

/-! ### The times that a track keeps -/

/-- The times of a track are times of the text, or missing. -/
def CueTrackProto.AllTimes (T : Int → Prop) (t : CueTrackProto) : Prop :=
  T t.pregap ∧ T t.postgap ∧ T t.index0 ∧ T t.index1

def KeepsTimes (T : Int → Prop) (p q : CueParser) : Prop :=
  (∀ t ∈ p.tracks, t.AllTimes T) → ∀ t ∈ q.tracks, t.AllTimes T

theorem onLast_keepsTimes {T : Int → Prop} {f : CueTrackProto → CueTrackProto}
    (hf : ∀ t, t.AllTimes T → (f t).AllTimes T) (p : CueParser) : KeepsTimes T p (p.onLast f) := by
  intro h
  rw [onLast]
  split
  · rename_i last hlast
    intro t ht
    rcases List.mem_append.mp ht with ht | ht
    · exact h t (List.mem_of_mem_dropLast ht)
    · rw [List.mem_singleton.mp ht]
      exact hf last (h last (List.mem_of_getLast? hlast))
  · exact h

theorem parseField_keepsTimes (T : Int → Prop) (get : CueMeta → Option Text)
    (set : CueMeta → Option Text → CueMeta) (p : CueParser) :
    KeepsTimes T p (p.parseField get set) := by
  rw [parseField]
  dsimp only
  split
  · exact id
  · exact onLast_keepsTimes
      (f :=
        fun t => { t with info := set t.info ((get t.info).or (some (cueExtractToken p.src).1)) })
      (fun _ ht => ht) { p with src := (cueExtractToken p.src).2 }

theorem parseTrack_keepsTimes {T : Int → Prop} (hnone : T (-1)) (p : CueParser) :
    KeepsTimes T p p.parseTrack := by
  intro h
  rw [parseTrack]
  dsimp only
  split
  · exact h
  · intro t ht
    rcases List.mem_append.mp ht with ht | ht
    · exact h t ht
    · rw [List.mem_singleton.mp ht]
      exact ⟨hnone, hnone, hnone, hnone⟩

theorem parseIndex_keepsTimes {T : Int → Prop} (p : CueParser)
    (htime : ∀ d x, cueParseInt (cueExtractToken p.src).1 = some d → ¬ d > 1 →
      cueParseTime (cueExtractToken (cueExtractToken p.src).2).1 = some x → T (toTime x)) :
    KeepsTimes T p p.parseIndex := by
  rw [parseIndex]
  dsimp only
  split
  · exact id
  · rename_i d hd
    split
    · exact id
    · rename_i hsmall
      split
      · exact id
      · rename_i x hx
        refine onLast_keepsTimes (fun t ht => ?_)
          { p with src := (cueExtractToken (cueExtractToken p.src).2).2 }
        obtain ⟨hpregap, hpostgap, hindex0, hindex1⟩ := ht
        have hT := htime d x hd hsmall hx
        split
        · dsimp only [CueTrackProto.AllTimes]
          exact ⟨hpregap, hpostgap, hT, hindex1⟩
        · dsimp only [CueTrackProto.AllTimes]
          exact ⟨hpregap, hpostgap, hindex0, hT⟩

theorem parseGap_keepsTimes {T : Int → Prop} (post : Bool) (p : CueParser)
    (htime : ∀ x, cueParseTime (cueExtractToken p.src).1 = some x → T (toTime x)) :
    KeepsTimes T p (p.parseGap post) := by
  rw [parseGap]
  dsimp only
  split
  · exact id
  · rename_i x hx
    refine onLast_keepsTimes (fun t ht => ?_) { p with src := (cueExtractToken p.src).2 }
    obtain ⟨hpregap, hpostgap, hindex0, hindex1⟩ := ht
    have hT := htime x hx
    split
    · dsimp only [CueTrackProto.AllTimes]
      exact ⟨hpregap, hT, hindex0, hindex1⟩
    · dsimp only [CueTrackProto.AllTimes]
      exact ⟨hT, hpostgap, hindex0, hindex1⟩

theorem parseRem_keepsTimes (T : Int → Prop) (p : CueParser) : KeepsTimes T p p.parseRem := by
  rw [parseRem, parseCmd]
  dsimp only
  split
  · rename_i cmd parser hfind
    have hmem := List.mem_of_find?_eq_some hfind
    simp only [List.mem_cons, List.not_mem_nil, or_false, Prod.mk.injEq] at hmem
    rcases hmem with h | h | h | h | h <;> rw [h.2] <;>
      exact parseField_keepsTimes T _ _ { p with src := (cueExtractToken p.src).2 }
  · exact id

/-- The commands of a line that have a time. -/
theorem lineTime_index {src : Text} (h : cueStrEq (cueExtractToken src).1 (ascii "INDEX") = true)
    {d x : UInt32} (hd : cueParseInt (cueExtractToken (cueExtractToken src).2).1 = some d)
    (hsmall : ¬ d > 1)
    (hx : cueParseTime
      (cueExtractToken (cueExtractToken (cueExtractToken src).2).2).1 = some x) :
    ∃ token, lineTime src = some (token, toTime x) := by
  refine ⟨(cueExtractToken (cueExtractToken (cueExtractToken src).2).2).1, ?_⟩
  rw [lineTime]
  dsimp only
  rw [if_pos h, hd]
  dsimp only
  rw [if_neg hsmall, hx]
  rfl

theorem lineTime_gap {src : Text} {gap : Text} (hgap : gap = ascii "PREGAP" ∨ gap = ascii "POSTGAP")
    (h : cueStrEq (cueExtractToken src).1 gap = true) {x : UInt32}
    (hx : cueParseTime (cueExtractToken (cueExtractToken src).2).1 = some x) :
    ∃ token, lineTime src = some (token, toTime x) := by
  have hindex : cueStrEq (cueExtractToken src).1 (ascii "INDEX") = false := by
    rw [cueStrEq_congr h]
    rcases hgap with rfl | rfl <;> decide
  have hcmd : cueStrEq (cueExtractToken src).1 (ascii "PREGAP") = true ∨
      cueStrEq (cueExtractToken src).1 (ascii "POSTGAP") = true := by
    rcases hgap with rfl | rfl
    · exact .inl h
    · exact .inr h
  refine ⟨(cueExtractToken (cueExtractToken src).2).1, ?_⟩
  rw [lineTime]
  dsimp only
  rw [if_neg (by rw [hindex]; decide), if_pos hcmd, hx]
  rfl

theorem parseLine_keepsTimes {T : Int → Prop} (hnone : T (-1)) {p : CueParser}
    (htime : ∀ r ∈ lineTime p.src, T r.2) : KeepsTimes T p p.parseLine := by
  show KeepsTimes T p (p.parseCmd lineCmds)
  rw [parseCmd]
  dsimp only
  split
  · rename_i cmd parser hfind
    have heq := List.find?_some hfind
    have hmem := List.mem_of_find?_eq_some hfind
    simp only [lineCmds, List.mem_cons, List.not_mem_nil, or_false, Prod.mk.injEq] at hmem
    have hgap : ∀ post, (cmd = ascii "PREGAP" ∨ cmd = ascii "POSTGAP") →
        KeepsTimes T p (CueParser.parseGap { p with src := (cueExtractToken p.src).2 } post) := by
      intro post hcmd
      refine parseGap_keepsTimes post { p with src := (cueExtractToken p.src).2 } fun x hx => ?_
      obtain ⟨token, htoken⟩ := lineTime_gap hcmd heq hx
      have hT := htime (token, toTime x) htoken
      dsimp only at hT
      exact hT
    rcases hmem with h | h | h | h | h | h | h | h | h <;> obtain ⟨hcmd, hparser⟩ :=
      h <;> rw [hparser]
    · exact id
    · exact parseField_keepsTimes T _ _ { p with src := (cueExtractToken p.src).2 }
    · exact parseField_keepsTimes T _ _ { p with src := (cueExtractToken p.src).2 }
    · exact parseField_keepsTimes T _ _ { p with src := (cueExtractToken p.src).2 }
    · exact parseTrack_keepsTimes hnone { p with src := (cueExtractToken p.src).2 }
    · refine parseIndex_keepsTimes { p with src := (cueExtractToken p.src).2 }
        fun d x hd hsmall hx => ?_
      rw [hcmd] at heq
      obtain ⟨token, htoken⟩ := lineTime_index heq hd hsmall hx
      have hT := htime (token, toTime x) htoken
      dsimp only at hT
      exact hT
    · exact parseRem_keepsTimes T { p with src := (cueExtractToken p.src).2 }
    · exact hgap false (.inl hcmd)
    · exact hgap true (.inr hcmd)
  · exact id

theorem parseLines_times {T : Int → Prop} (hnone : T (-1)) (fuel : Nat) {p : CueParser}
    (herr : (CueParser.parseLines fuel p).err = false)
    (htimes : ∀ r ∈ readsLoop lineTime fuel p.src, T r.2) :
    KeepsTimes T p (CueParser.parseLines fuel p) := by
  induction fuel generalizing p with
  | zero => exact id
  | succ fuel ih =>
    rw [CueParser.parseLines] at herr ⊢
    split
    · rename_i hgo
      rw [if_pos hgo] at herr
      rw [readsLoop, if_pos hgo.1] at htimes
      intro h
      have hline := parseLine_keepsTimes hnone
        (fun r hr => htimes r (List.mem_append_left _ (Option.mem_toList.mpr hr))) h
      refine ih herr (fun r hr => htimes r (List.mem_append_right _ ?_)) hline
      rw [← (parseLine_spec (parseLines_err herr)).1]
      exact hr
    · exact id

/-! ### Numbers that follow each other -/

theorem toTime_eq_neg_one {n : UInt32} (h : n.toNat ≠ 2 ^ 32 - 1) : toTime n ≠ -1 := by
  have hn := n.toNat_lt
  intro hneg
  rw [toTime, toInt, Int.bmod_def] at hneg
  push_cast at hneg
  split at hneg <;> omega

theorem ofInt_toTime_succ {n : UInt32} (h : n.toNat ≠ 2 ^ 32 - 1) :
    (UInt32.ofInt (toTime n + 1)).toNat = n.toNat + 1 := by
  have hn := n.toNat_lt
  have hmod : (toTime n + 1) % 2 ^ 32 = n.toNat + 1 := by
    rw [toTime, toInt, Int.bmod_def]
    push_cast
    split <;> omega
  rw [UInt32.ofInt, hmod, UInt32.toNat_ofNat']
  omega

theorem inOrder_range {tracks : List CueTrackProto} {n : UInt32} (hn : n.toNat ≠ 2 ^ 32 - 1)
    (hall : ∀ t ∈ tracks, t.nr.toNat ≠ 2 ^ 32 - 1) (h : inOrder (toTime n) tracks = true) :
    tracks.map (fun t => t.nr.toNat) = List.range' (n.toNat + 1) tracks.length := by
  induction tracks generalizing n with
  | nil => rfl
  | cons t tracks ih =>
    rw [inOrder] at h
    split at h
    · cases h
    · rename_i hnext
      have hnr : t.nr = UInt32.ofInt (toTime n + 1) := by
        by_contra hne
        exact hnext ⟨toTime_eq_neg_one hn, hne⟩
      have hsucc : t.nr.toNat = n.toNat + 1 := by
        rw [hnr]
        exact ofInt_toTime_succ hn
      rw [List.map_cons, List.length_cons, List.range'_succ, hsucc,
        ih (hall t List.mem_cons_self) (fun u hu => hall u (List.mem_cons_of_mem _ hu)) h, hsucc]

/-- Where no number is that which stands for -1, the numbers follow each other. -/
theorem inOrder_start {tracks : List CueTrackProto} (hne : tracks ≠ [])
    (hall : ∀ t ∈ tracks, t.nr.toNat ≠ 2 ^ 32 - 1) (h : inOrder (-1) tracks = true) :
    ∃ first, tracks.map (fun t => t.nr.toNat) = List.range' first tracks.length := by
  cases tracks with
  | nil => exact absurd rfl hne
  | cons t tracks =>
    rw [inOrder, if_neg fun hneg => hneg.1 rfl] at h
    refine ⟨t.nr.toNat, ?_⟩
    rw [List.map_cons, List.length_cons, List.range'_succ,
      inOrder_range (hall t List.mem_cons_self) (fun u hu => hall u (List.mem_cons_of_mem _ hu)) h]

/-- The base of a sheet, and the number of its last track, behind numbers that follow each
other. -/
theorem base_eq_first {numbers : List UInt32} (hne : numbers ≠ []) {first : Nat}
    (h : numbers.map UInt32.toNat = List.range' first numbers.length)
    (hall : ∀ n ∈ numbers, n.toNat ≠ 2 ^ 32 - 1) :
    ((numbers.getLast?.getD 0 + 1).toUInt64 - UInt64.ofNat numbers.length).toNat = first := by
  obtain ⟨front, last, rfl⟩ : ∃ front last, numbers = front ++ [last] :=
    ⟨numbers.dropLast, numbers.getLast hne, (List.dropLast_concat_getLast hne).symm⟩
  have hlast := congrArg List.getLast? h
  rw [List.map_append, List.map_singleton, List.getLast?_concat, List.length_append,
    List.length_singleton, List.range'_concat, List.getLast?_concat] at hlast
  have hnat : last.toNat = first + 1 * front.length := Option.some.inj hlast
  have hmax := hall last (by simp)
  have hlt := last.toNat_lt
  have hsucc : (last + 1).toNat = last.toNat + 1 := by
    rw [UInt32.toNat_add, show (1 : UInt32).toNat = 1 from rfl]
    omega
  rw [List.getLast?_concat, Option.getD_some, List.length_append, List.length_singleton,
    UInt64.toNat_sub, UInt32.toNat_toUInt64, hsucc, UInt64.toNat_ofNat']
  omega

theorem ne_max_of_range {numbers : List UInt32} (hne : numbers ≠ [])
    (h : numbers.map UInt32.toNat = List.range'
      ((numbers.getLast?.getD 0 + 1).toUInt64 - UInt64.ofNat numbers.length).toNat numbers.length) :
    ∀ n ∈ numbers, n.toNat ≠ 2 ^ 32 - 1 := by
  obtain ⟨front, last, rfl⟩ : ∃ front last, numbers = front ++ [last] :=
    ⟨numbers.dropLast, numbers.getLast hne, (List.dropLast_concat_getLast hne).symm⟩
  intro n hn hmax
  have hmem : n.toNat ∈ (front ++ [last]).map UInt32.toNat := List.mem_map_of_mem hn
  have hlast := congrArg List.getLast? h
  rw [h, List.mem_range'_1] at hmem
  rw [List.map_append, List.map_singleton, List.getLast?_concat, List.length_append,
    List.length_singleton, List.range'_concat, List.getLast?_concat] at hlast
  have hnat := Option.some.inj hlast
  rw [List.getLast?_concat, Option.getD_some, UInt64.toNat_sub, UInt32.toNat_toUInt64,
    UInt32.toNat_add, UInt64.toNat_ofNat', show (1 : UInt32).toNat = 1 from rfl,
    List.length_append, List.length_singleton] at hmem
  rw [List.getLast?_concat, Option.getD_some, UInt64.toNat_sub, UInt32.toNat_toUInt64,
    UInt32.toNat_add, UInt64.toNat_ofNat', show (1 : UInt32).toNat = 1 from rfl] at hnat
  have hlt := last.toNat_lt
  omega

/-! ### Offsets and lengths -/

def pregapOf (t : CueTrackProto) : Int := if t.pregap ≠ -1 then t.pregap else 0

/-- The exact start of a track. -/
def CueTrackProto.start (t : CueTrackProto) : Int :=
  if t.index1 ≠ -1 then t.index1 else t.index0 + pregapOf t

/-- The exact offsets and lengths. -/
def exactTracks : List CueTrackProto → List (Int × Option Int)
  | [] => []
  | [t] => [(t.start, none)]
  | t :: next :: rest => (t.start, some (next.start - t.start - postgapOf t)) :: exactTracks
      (next :: rest)

/-- A track ends where the next one starts or before. -/
def Follows (t next : CueTrackProto) : Prop := t.start + postgapOf t ≤ next.start

/-- The end of a track fits in an `int`, and does not lie behind the second index of a track
that has both. -/
def EndFits (t next : CueTrackProto) : Prop :=
  t.start + postgapOf t < 2 ^ 31 ∧
    (next.index0 ≠ -1 → next.index1 ≠ -1 → t.start + postgapOf t ≤ next.index1)

/-- The times of a track are none or fit in an `int`. -/
def CueTrackProto.Timed (t : CueTrackProto) : Prop := t.AllTimes fun x => -1 ≤ x ∧ x < 2 ^ 31

theorem toInt_of_small {x : Int} (hlow : -2 ^ 31 ≤ x) (hhigh : x < 2 ^ 31) : toInt x = x :=
  Int.bmod_eq_of_le (by omega) (by omega)

theorem toInt_eq_iff {x : Int} : toInt x = x ↔ -2 ^ 31 ≤ x ∧ x < 2 ^ 31 := by
  constructor
  · intro h
    have hlow := @Int.le_bmod x (2 ^ 32) (by decide)
    have hhigh := @Int.bmod_lt x (2 ^ 32) (by decide)
    rw [toInt] at h
    rw [h] at hlow hhigh
    constructor <;> omega
  · intro h
    exact toInt_of_small h.1 h.2

theorem CueTrackProto.Timed.pregapOf {t : CueTrackProto} (h : t.Timed) :
    0 ≤ pregapOf t ∧ pregapOf t < 2 ^ 31 := by
  obtain ⟨hpregap, -, -, -⟩ := h
  unfold Cue.pregapOf
  split <;> omega

theorem CueTrackProto.Timed.postgapOf {t : CueTrackProto} (h : t.Timed) :
    0 ≤ postgapOf t ∧ postgapOf t < 2 ^ 31 := by
  obtain ⟨-, hpostgap, -, -⟩ := h
  unfold Cue.postgapOf
  split <;> omega

/-- One of the indices is there. -/
def CueTrackProto.Indexed (t : CueTrackProto) : Prop := ¬ (t.index0 = -1 ∧ t.index1 = -1)

theorem CueTrackProto.Timed.start_nonneg {t : CueTrackProto} (h : t.Timed) (hindexed : t.Indexed) :
    0 ≤ t.start := by
  have hpregap := h.pregapOf
  obtain ⟨-, -, hindex0, hindex1⟩ := h
  unfold CueTrackProto.Indexed at hindexed
  unfold CueTrackProto.start
  split <;> omega

/-- The second index is the start, in 32 bits. -/
theorem fillIndices_index1 {t : CueTrackProto} (h : t.Timed) :
    (fillIndices t).index1 = toInt t.start := by
  obtain ⟨-, -, -, hindex1⟩ := h
  have hsame : toInt t.index1 = t.index1 := toInt_of_small (by omega) (by omega)
  unfold fillIndices CueTrackProto.start
  dsimp only
  by_cases h1 : t.index1 = -1
  · rw [if_pos (.inr h1), if_neg (not_not.mpr h1), if_neg (not_not.mpr h1)]
    rfl
  · rw [if_pos h1, if_pos h1, hsame]
    split <;> rfl

theorem fillIndices_postgapOf (t : CueTrackProto) : postgapOf (fillIndices t) = postgapOf t := by
  unfold fillIndices
  dsimp only
  split
  · split <;> rfl
  · rfl

/-- What the sheet says of the tracks is exact, and no length is negative, where the starts
fit and the tracks follow each other. -/
theorem sheetTracks_exact_iff {tracks : List CueTrackProto} (htimed : ∀ t ∈ tracks, t.Timed)
    (hindexed : ∀ t ∈ tracks, t.Indexed) :
    ((sheetTracks (tracks.map fillIndices)).map (fun t => (t.offset, t.length)) =
      exactTracks tracks ∧
      ∀ t ∈ sheetTracks (tracks.map fillIndices), ∀ l ∈ t.length, 0 ≤ l) ↔
    (∀ t ∈ tracks, t.start < 2 ^ 31) ∧ tracks.IsChain Follows := by
  induction tracks with
  | nil => simp [sheetTracks, exactTracks]
  | cons t tracks ih =>
    have ht := htimed t List.mem_cons_self
    have hlow := ht.start_nonneg (hindexed t List.mem_cons_self)
    have hpost := ht.postgapOf
    have hoffset : (fillIndices t).index1 = t.start ↔ t.start < 2 ^ 31 := by
      rw [fillIndices_index1 ht, toInt_eq_iff]
      omega
    cases tracks with
    | nil =>
      simp only [List.map_cons, List.map_nil, sheetTracks, exactTracks, List.cons.injEq,
        Prod.mk.injEq,
        and_true, hoffset, List.mem_singleton, forall_eq, Option.mem_def, reduceCtorEq,
        false_implies, implies_true, List.IsChain.singleton]
    | cons next rest =>
      have hnext := htimed next (List.mem_cons_of_mem _ List.mem_cons_self)
      have hnextLow := hnext.start_nonneg
        (hindexed next (List.mem_cons_of_mem _ List.mem_cons_self))
      have hrest := ih (fun u hu => htimed u (List.mem_cons_of_mem _ hu))
        fun u hu => hindexed u (List.mem_cons_of_mem _ hu)
      rw [List.map_cons] at hrest
      rw [List.map_cons, List.map_cons, sheetTracks, exactTracks, List.map_cons, List.cons.injEq,
        List.forall_mem_cons, List.isChain_cons_cons, List.forall_mem_cons, fillIndices_postgapOf]
      have hnextOffset : next.start < 2 ^ 31 → (fillIndices next).index1 = next.start := by
        intro hfits
        rw [fillIndices_index1 hnext]
        exact toInt_of_small (by omega) hfits
      constructor
      · intro h
        obtain ⟨⟨hpair, htail⟩, hlength, hlengths⟩ := h
        obtain ⟨hstarts, hchain⟩ := hrest.mp ⟨htail, hlengths⟩
        obtain ⟨hstart, hexact⟩ := Prod.mk.inj hpair
        have hpos := hlength _ rfl
        rw [Option.some.inj hexact] at hpos
        exact ⟨⟨hoffset.mp hstart, hstarts⟩, by unfold Follows; omega, hchain⟩
      · intro h
        obtain ⟨⟨hstart, hstarts⟩, hfollows, hchain⟩ := h
        obtain ⟨htail, hlengths⟩ := hrest.mpr ⟨hstarts, hchain⟩
        unfold Follows at hfollows
        have hnextFits := hstarts next List.mem_cons_self
        have hsub : toInt (next.start - t.start) = next.start - t.start :=
          toInt_of_small (by omega) (by omega)
        have hexact : toInt (toInt ((fillIndices next).index1 - (fillIndices t).index1) -
            postgapOf t) = next.start - t.start - postgapOf t := by
          rw [hoffset.mpr hstart, hnextOffset hnextFits, hsub]
          exact toInt_of_small (by omega) (by omega)
        refine ⟨⟨?_, htail⟩, ?_, hlengths⟩
        · dsimp only
          rw [hexact, hoffset.mpr hstart]
        · intro l hl
          obtain rfl := Option.some.inj hl
          rw [hexact]
          omega

/-- What is checked between two tracks. An end that is -1 is not. -/
def Checked (t next : CueTrackProto) : Prop :=
  toInt ((fillIndices t).index1 + postgapOf t) = -1 ∨
    toInt ((fillIndices t).index1 + postgapOf t) ≤ (fillIndices next).index0

theorem fillTracks_checked {last : Int} {tracks filled : List CueTrackProto}
    (h : fillTracks last tracks = some filled) :
    filled = tracks.map fillIndices ∧ (∀ t ∈ tracks, t.Indexed) ∧ tracks.IsChain Checked ∧
      ∀ t ∈ tracks.head?, last = -1 ∨ last ≤ (fillIndices t).index0 := by
  induction tracks generalizing last filled with
  | nil =>
    cases h
    exact ⟨rfl, fun t ht => absurd ht List.not_mem_nil, .nil, fun t ht => by cases ht⟩
  | cons t tracks ih =>
    rw [fillTracks] at h
    split at h
    · cases h
    rename_i hindexed
    split at h
    · cases h
    rename_i hlast
    obtain ⟨rest, hrest, rfl⟩ := Option.map_eq_some_iff.mp h
    obtain ⟨hfilled, hall, hchain, hhead⟩ := ih hrest
    refine ⟨?_, ?_, List.isChain_cons.mpr ⟨hhead, hchain⟩, ?_⟩
    · rw [hfilled, List.map_cons]
    · intro u hu
      rcases List.mem_cons.mp hu with rfl | hu
      · exact hindexed
      · exact hall u hu
    · intro u hu
      obtain rfl := Option.some.inj hu
      by_cases hnone : last = -1
      · exact .inl hnone
      · exact .inr (Int.not_lt.mp fun hlt => hlast ⟨hnone, hlt⟩)

/-- A second index that is given alone, or computed, is not in front of the first. -/
theorem fillIndices_index0_le {t : CueTrackProto} (h : t.Timed)
    (hone : ¬ (t.index0 ≠ -1 ∧ t.index1 ≠ -1)) : (fillIndices t).index0 ≤ t.start := by
  have hpregap := h.pregapOf
  obtain ⟨-, -, hindex0, hindex1⟩ := h
  unfold CueTrackProto.start pregapOf
  unfold pregapOf at hpregap
  unfold fillIndices
  dsimp only
  by_cases h1 : t.index1 = -1
  · rw [if_pos (.inr h1), if_neg (not_not.mpr h1), if_neg (not_not.mpr h1)]
    show t.index0 ≤ _
    omega
  · have h0 : t.index0 = -1 := by
      by_contra h0
      exact hone ⟨h0, h1⟩
    rw [if_pos (.inl h0), if_pos h1, if_pos h1]
    show toInt _ ≤ t.index1
    rw [toInt_of_small (by omega) (by omega)]
    omega

theorem follows_iff_endFits {t next : CueTrackProto} (ht : t.Timed) (htIndexed : t.Indexed)
    (htFits : t.start < 2 ^ 31) (hnext : next.Timed) (hnextFits : next.start < 2 ^ 31)
    (hchecked : Checked t next) :
    Follows t next ↔ EndFits t next := by
  have hpost := ht.postgapOf
  have hstart := ht.start_nonneg htIndexed
  constructor
  · intro hfollows
    unfold Follows at hfollows
    refine ⟨by omega, fun _ h1 => ?_⟩
    unfold CueTrackProto.start at hfollows
    rw [if_pos h1] at hfollows
    exact hfollows
  · intro h
    obtain ⟨hend, hboth⟩ := h
    unfold Checked at hchecked
    rw [fillIndices_index1 ht, toInt_of_small (by omega) htFits,
      toInt_of_small (by omega) hend] at hchecked
    unfold Follows
    by_cases hindices : next.index0 ≠ -1 ∧ next.index1 ≠ -1
    · have hle := hboth hindices.1 hindices.2
      unfold CueTrackProto.start at hle ⊢
      rwa [if_pos hindices.2]
    · have hle := fillIndices_index0_le hnext hindices
      omega

theorem chain_follows_iff {tracks : List CueTrackProto} (htimed : ∀ t ∈ tracks, t.Timed)
    (hindexed : ∀ t ∈ tracks, t.Indexed) (hfits : ∀ t ∈ tracks, t.start < 2 ^ 31)
    (hchecked : tracks.IsChain Checked) : tracks.IsChain Follows ↔ tracks.IsChain EndFits := by
  induction tracks with
  | nil => exact ⟨fun _ => .nil, fun _ => .nil⟩
  | cons t tracks ih =>
    cases tracks with
    | nil => exact ⟨fun _ => .singleton t, fun _ => .singleton t⟩
    | cons next rest =>
      obtain ⟨hfirst, hrest⟩ := List.isChain_cons_cons.mp hchecked
      have hmem : next ∈ t :: next :: rest := List.mem_cons_of_mem _ List.mem_cons_self
      rw [List.isChain_cons_cons, List.isChain_cons_cons,
        ih (fun u hu => htimed u (List.mem_cons_of_mem _ hu))
          (fun u hu => hindexed u (List.mem_cons_of_mem _ hu))
          (fun u hu => hfits u (List.mem_cons_of_mem _ hu)) hrest,
        follows_iff_endFits (htimed t List.mem_cons_self) (hindexed t List.mem_cons_self)
          (hfits t List.mem_cons_self) (htimed next hmem) (hfits next hmem) hfirst]

/-! ### Sheets -/

/-- What is read is what the text says; the tracks have the numbers from that of the first
one on and lie one behind the other; each but the last is as long as its end is away, and
its offset and length are the exact ones. -/
structure Sound (src : Text) (s : CueSheet) : Prop where
  numbers : ∀ r ∈ numbersRead src, r.2.toNat = digitsValue r.1
  times : ∀ r ∈ timesRead src, r.2 = exactTime r.1
  consecutive : (trackNumbers src).map UInt32.toNat =
    List.range' s.trackBase.toNat (trackNumbers src).length
  tracks : s.tracks.map (fun t => (t.offset, t.length)) = exactTracks (readTracks src)
  lengths : ∀ t ∈ s.tracks, ∀ l ∈ t.length, 0 ≤ l
  sorted : (s.tracks.map (·.offset)).Pairwise (· ≤ ·)

/-- Every number of the text fits in its 32 bits, no track has the number that stands for
-1, and a second index that has a first one in front does not lie in the track before. -/
structure Regular (src : Text) : Prop where
  numbers : ∀ r ∈ numbersRead src, digitsValue r.1 < 2 ^ 32
  times : ∀ r ∈ timesRead src, exactTime r.1 < 2 ^ 31
  lastNumber : ∀ nr ∈ trackNumbers src, nr.toNat ≠ 2 ^ 32 - 1
  starts : ∀ t ∈ readTracks src, t.start < 2 ^ 31
  ends : (readTracks src).IsChain EndFits

/-- The stages of a sheet that is accepted. -/
theorem cueParse_stages {src : Text} {s : CueSheet} (h : cueParse src = some s) :
    (CueParser.parseLines src.length ⟨src, false, none, [], CueMeta.empty⟩).err = false ∧
      readTracks src ≠ [] ∧ inOrder (-1) (readTracks src) = true ∧
      s.tracks = sheetTracks ((readTracks src).map fillIndices) ∧
      (∀ t ∈ readTracks src, t.Indexed) ∧ (readTracks src).IsChain Checked := by
  rw [cueParse] at h
  dsimp only at h
  split at h
  · cases h
  · rename_i herr
    obtain ⟨⟨file, tracks⟩, hpost, hsheet⟩ := Option.map_eq_some_iff.mp h
    rw [cuePostProcess] at hpost
    split at hpost
    · cases hpost
    · split at hpost
      · cases hpost
      · rename_i hne
        split at hpost
        · rename_i horder
          obtain ⟨filled, hfilled, hpair⟩ := Option.map_eq_some_iff.mp hpost
          cases hpair
          obtain ⟨hmap, hindexed, hchecked, -⟩ := fillTracks_checked hfilled
          refine ⟨Bool.eq_false_of_not_eq_true herr, hne, horder, ?_, hindexed, hchecked⟩
          rw [← hsheet, hmap]
          rfl
        · cases hpost

theorem trackNumbers_eq {src : Text}
    (herr : (CueParser.parseLines src.length ⟨src, false, none, [], CueMeta.empty⟩).err = false) :
    trackNumbers src = (readTracks src).map (·.nr) :=
  (parseLines_numbers src.length herr).symm

/-- Times that are read as they are fit in an `int` and are no -1. -/
theorem readTracks_timed {src : Text}
    (herr : (CueParser.parseLines src.length ⟨src, false, none, [], CueMeta.empty⟩).err = false)
    (htimes : ∀ r ∈ timesRead src, exactTime r.1 < 2 ^ 31) : ∀ t ∈ readTracks src, t.Timed := by
  refine parseLines_times (T := fun x => -1 ≤ x ∧ x < 2 ^ 31) (by decide) src.length herr
    (fun r hr => ?_) fun t ht => absurd ht List.not_mem_nil
  have hfits := htimes r hr
  rw [timesRead_eq src r hr, (toTime_ofNat_eq_iff _).mpr hfits]
  constructor <;> omega

theorem exactTracks_offsets {tracks : List CueTrackProto} :
    (exactTracks tracks).map (·.1) = tracks.map (·.start) := by
  induction tracks with
  | nil => rfl
  | cons t tracks ih =>
    cases tracks with
    | nil => rfl
    | cons next rest =>
      rw [exactTracks, List.map_cons, ih]
      rfl

theorem starts_sorted {tracks : List CueTrackProto} (htimed : ∀ t ∈ tracks, t.Timed)
    (h : tracks.IsChain Follows) : (tracks.map (·.start)).Pairwise (· ≤ ·) := by
  rw [← List.isChain_iff_pairwise, List.isChain_map]
  refine h.imp_of_mem_imp fun t next ht _ hfollows => ?_
  have := (htimed t ht).postgapOf
  unfold Follows at hfollows
  omega

/-- A sheet that is accepted is sound exactly if its text is regular. -/
theorem cueParse_sound_iff {src : Text} {s : CueSheet} (h : cueParse src = some s) :
    Sound src s ↔ Regular src := by
  obtain ⟨herr, hne, horder, htracks, hindexed, hchecked⟩ := cueParse_stages h
  obtain ⟨hlength, hnumbersNe, hbase⟩ := cueParse_tracks h
  have hnumbers := trackNumbers_eq herr
  constructor
  · intro hsound
    have htimes := (times_exact_iff src).mp hsound.times
    have htimed := readTracks_timed herr htimes
    obtain ⟨hfits, hfollows⟩ := (sheetTracks_exact_iff htimed hindexed).mp
      ⟨htracks ▸ hsound.tracks, htracks ▸ hsound.lengths⟩
    refine ⟨(numbers_exact_iff src).mp hsound.numbers, htimes, ?_, hfits,
      (chain_follows_iff htimed hindexed hfits hchecked).mp hfollows⟩
    have hrange := hsound.consecutive
    rw [hbase] at hrange
    exact ne_max_of_range hnumbersNe hrange
  · intro hregular
    have htimed := readTracks_timed herr hregular.times
    have hfollows :=
      (chain_follows_iff htimed hindexed hregular.starts hchecked).mpr hregular.ends
    obtain ⟨hexact, hlengths⟩ := (sheetTracks_exact_iff htimed hindexed).mpr
      ⟨hregular.starts, hfollows⟩
    refine ⟨(numbers_exact_iff src).mpr hregular.numbers, (times_exact_iff src).mpr hregular.times,
      ?_, htracks ▸ hexact, htracks ▸ hlengths, ?_⟩
    · have hlast : ∀ t ∈ readTracks src, t.nr.toNat ≠ 2 ^ 32 - 1 := by
        intro t ht
        apply hregular.lastNumber
        rw [hnumbers]
        exact List.mem_map_of_mem ht
      obtain ⟨first, hfirst⟩ := inOrder_start hne hlast horder
      have hrange : (trackNumbers src).map UInt32.toNat =
          List.range' first (trackNumbers src).length := by
        rw [hnumbers, List.map_map, List.length_map]
        exact hfirst
      rw [hbase, base_eq_first hnumbersNe hrange hregular.lastNumber]
      exact hrange
    · have hoffsets : s.tracks.map (·.offset) = (readTracks src).map (·.start) := by
        rw [← exactTracks_offsets, ← hexact, htracks, List.map_map]
        rfl
      rw [hoffsets]
      exact starts_sorted htimed hfollows

def goodSheet : Text :=
  ascii "FILE a WAVE\nTRACK 4 AUDIO\nINDEX 1 0:0:0\nTRACK 5 AUDIO\nINDEX 0 0:18:0\nINDEX 1 0:20:0\n"

/-- The second index of track 2 lies in front of the first, and in front of track 1. -/
def reversedSheet : Text :=
  ascii "FILE a WAVE\nTRACK 1 AUDIO\nINDEX 1 0:10:0\nTRACK 2 AUDIO\nINDEX 0 0:20:0\nINDEX 1 0:0:0\n"

theorem cueParse_sound_good : ∃ s, cueParse goodSheet = some s ∧ Sound goodSheet s := by
  obtain ⟨s, hs⟩ := Option.isSome_iff_exists.mp
    (show (cueParse goodSheet).isSome = true by decide +kernel)
  have hall : ∀ {α : Type} (l : List α) (p : α → Prop) [DecidablePred p],
      (l.all fun x => decide (p x)) = true → ∀ x ∈ l, p x := fun l p _ h x hx =>
    of_decide_eq_true (List.all_eq_true.mp h x hx)
  refine ⟨s, hs, (cueParse_sound_iff hs).mpr ⟨?_, ?_, ?_, ?_, ?_⟩⟩
  · exact hall _ _ (by decide +kernel)
  · exact hall _ _ (by decide +kernel)
  · exact hall _ _ (by decide +kernel)
  · exact hall _ _ (by decide +kernel)
  · have htracks : readTracks goodSheet =
        [⟨4, -1, -1, -1, 0, CueMeta.empty⟩,
          ⟨5, -1, -1, 1350, 1500, CueMeta.empty⟩] := by decide +kernel
    rw [htracks, List.isChain_cons_cons]
    exact ⟨⟨by decide, fun _ _ => by decide⟩, .singleton _⟩

theorem cueParse_reversed : ∃ s, cueParse reversedSheet = some s ∧
    s.tracks.map (fun t => (t.offset, t.length)) = [(750, some (-750)), (0, none)] ∧
      ¬ Sound reversedSheet s := by
  have hresult : (cueParse reversedSheet).map
      (fun s => s.tracks.map fun t => (t.offset, t.length)) =
        some [(750, some (-750)), (0, none)] := by decide +kernel
  obtain ⟨s, hs, htracks⟩ := Option.map_eq_some_iff.mp hresult
  refine ⟨s, hs, htracks, fun hsound => ?_⟩
  have hoffsets : s.tracks.map (·.offset) = [750, 0] := by
    have := congrArg (List.map Prod.fst) htracks
    rwa [List.map_map] at this
  have hsorted := hsound.sorted
  rw [hoffsets] at hsorted
  exact absurd hsorted (by decide)

end GracefulMusic.Cue
