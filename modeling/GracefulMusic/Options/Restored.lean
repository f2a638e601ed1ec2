import GracefulMusic.Options.Table

/-! The options come back.

What `options_exit` writes is read by the next start. Every option that a command can have set
is shown as a text that its own parser takes for the same value, and setting one option leaves
those that are set already as they are, although some options change others. -/
namespace GracefulMusic.Options
open Commands (skipSpaces skipSpaces_of_head optionValue findCommand commands)
open Autosave.Settings (parseCommand)

/-! ### Attributes -/

/-- No attribute, or one. -/
def singleAttrs : List Attr :=
  [{}, {standout := true}, {underline := true}, {reverse := true}, {blink := true},
    {bold := true}]

theorem Attr.or_single (current : Text) : Attr.or {} current ∈ singleAttrs := by
  unfold Attr.or
  repeat' split
  all_goals decide

/-- What starts with a bar is no attribute. -/
theorem Attr.or_bar (attr : Attr) {current : Text} (h : current.head?.all (· = ch '|')) :
    attr.or current = attr := by
  have hname : ∀ name ∈ ["default", "standout", "underline", "reverse", "blink", "bold"],
      current ≠ ascii name := by
    intro name hmem heq
    have hall : ∀ name ∈ ["default", "standout", "underline", "reverse", "blink", "bold"],
        (ascii name).head?.all (· = ch '|') = false := by decide
    rw [heq, hall name hmem] at h
    cases h
  simp only [List.forall_mem_cons] at hname
  obtain ⟨h₁, h₂, h₃, h₄, h₅, h₆, -⟩ := hname
  simp [Attr.or, h₁, h₂, h₃, h₄, h₅, h₆]

/-- Behind the first bar every word starts with a bar, or is empty. -/
theorem setAttrLoop_behind {buf : Text} {rest : Text} {i offset : Nat}
    (hi : buf.drop i = rest) (hoffset : (buf.drop offset).head?.all (· = ch '|'))
    (length : Nat) (attr : Attr) :
    setAttrLoop buf rest i offset length attr = attr := by
  have htoken (offset length : Nat) (h : (buf.drop offset).head?.all (· = ch '|')) :
      attr.or ((buf.drop offset).take length) = attr := by
    apply Attr.or_bar
    cases length with
    | zero => rfl
    | succ n => rwa [List.head?_take, if_neg (by omega)]
  induction rest generalizing i offset length with
  | nil => exact htoken offset length hoffset
  | cons c rest ih =>
    have hnext : buf.drop (i + 1) = rest := by
      rw [← List.tail_drop, hi, List.tail_cons]
    rw [setAttrLoop]
    split
    · rename_i hc
      have hbar : (buf.drop i).head?.all (· = ch '|') := by
        rw [hi, hc]
        simp
      rw [htoken offset length hoffset]
      exact ih hnext hbar 0
    · exact ih hnext hoffset (length + 1)

theorem setAttrLoop_word (buf : Text) {word : Text} (hword : ch '|' ∉ word) (rest : Text)
    (i length : Nat) (attr : Attr) :
    setAttrLoop buf (word ++ rest) i 0 length attr =
      setAttrLoop buf rest (i + word.length) 0 (length + word.length) attr := by
  induction word generalizing i length with
  | nil => rfl
  | cons c word ih =>
    have hc : c ≠ ch '|' := fun h => hword (h ▸ List.mem_cons_self)
    rw [List.cons_append, setAttrLoop, if_neg hc,
      ih fun h => hword (List.mem_cons_of_mem c h), List.length_cons]
    congr 1 <;> omega

/-- Only the first word counts. -/
theorem setAttr_eq (buf : Text) : setAttr buf = Attr.or {} (buf.takeWhile (· ≠ ch '|')) := by
  by_cases hbar : ch '|' ∈ buf
  · obtain ⟨word, rest, rfl, hword⟩ := List.eq_append_cons_of_mem hbar
    rw [Sequence.takeWhile_split rest hword, setAttr, setAttrLoop_word _ hword, setAttrLoop,
      if_pos rfl, Nat.zero_add, List.drop_zero, List.take_left]
    apply setAttrLoop_behind
    · rw [← List.tail_drop, List.drop_left, List.tail_cons]
    · rw [List.drop_left]
      simp
  · have hloop := setAttrLoop_word buf hbar [] 0 0 {}
    rw [List.append_nil, Nat.zero_add] at hloop
    have htake : buf.takeWhile (· ≠ ch '|') = buf :=
      List.takeWhile_eq_self_iff.mpr fun c hc => decide_eq_true fun h => hbar (h ▸ hc)
    rw [setAttr, hloop, setAttrLoop, List.drop_zero, List.take_length, htake]

theorem setAttr_single (buf : Text) : setAttr buf ∈ singleAttrs := by
  rw [setAttr_eq]
  exact Attr.or_single _

/-! ### Texts that come back -/

/-- What stands in one line of a file and fits into the buffer. -/
structure Line (t : Text) : Prop where
  short : t.length < optionMaxSize
  newline : ch '\n' ∉ t
  cr : ch '\r' ∉ t
  terminator : 0 ∉ t

instance (t : Text) : Decidable (Line t) :=
  decidable_of_iff (t.length < optionMaxSize ∧ ch '\n' ∉ t ∧ ch '\r' ∉ t ∧ 0 ∉ t)
    ⟨fun ⟨h₁, h₂, h₃, h₄⟩ => ⟨h₁, h₂, h₃, h₄⟩, fun ⟨h₁, h₂, h₃, h₄⟩ => ⟨h₁, h₂, h₃, h₄⟩⟩

theorem Line.sublist {s t : Text} (h : Line t) (hst : s.Sublist t) : Line s where
  short := lt_of_le_of_lt hst.length_le h.short
  newline := fun hmem => h.newline (hst.subset hmem)
  cr := fun hmem => h.cr (hst.subset hmem)
  terminator := fun hmem => h.terminator (hst.subset hmem)

theorem decimal_line {n : Nat} (h : n ≤ 9999) : (decimal n).length ≤ 4 ∧ Line (decimal n) := by
  have hlength : (decimal n).length ≤ 4 := by
    have hmono := decimal_length_mono h
    have hfour : (decimal 9999).length = 4 := by decide
    omega
  have hbyte (c : UInt8) (hc : isDigit c = false) : c ∉ decimal n := fun hmem => by
    rw [decimal_digits hmem] at hc
    cases hc
  refine ⟨hlength, ?_, hbyte _ (by decide), hbyte _ (by decide), hbyte _ (by decide)⟩
  exact lt_of_le_of_lt hlength (by decide)

/-- A number that is printed reads as itself. -/
theorem printInt_back {x : Int} (hmin : -1 ≤ x) (hmax : x ≤ 9999) :
    strToInt (printInt x) = (x, true) ∧ (printInt x).length ≤ 4 ∧ Line (printInt x) := by
  rcases Int.lt_or_le x 0 with hneg | hpos
  · obtain rfl : x = -1 := by omega
    decide
  · have hbound : x ≤ intMax := hmax.trans (by decide)
    rw [printInt_pos hpos]
    exact ⟨strToInt_decimal hpos hbound, decimal_line (by omega)⟩

theorem parseInt_printInt {x : Int} (minval maxval : Int) (hmin : minval ≤ x) (hmax : x ≤ maxval)
    (hlow : -1 ≤ minval) (hhigh : maxval ≤ 9999) :
    parseInt (printInt x) minval maxval = .ok x := by
  have hback := (printInt_back (x := x) (by omega) (by omega)).1
  rw [parseInt, hback]
  dsimp only
  rw [if_neg (by simp; omega)]

/-! ### Values -/

/-- How many values an option has that is one of several names. -/
def Choice.count : Choice → Int
  | .aaaMode => 3
  | .replaygain => 6
  | .shuffle => 3
  | .startView => 7

/-- The chunks of a buffer for some seconds. -/
def chunksOf (sec : Nat) : Nat := (sec * secondSize + chunkSize / 2) / chunkSize

variable (env : Expr.Env)

/-- The values that a command can set. -/
def Opt.Valid : (opt : Opt) → opt.Value → Prop
  | .flag _, _ => True
  | .choice c, val => 0 ≤ val ∧ val < c.count
  | .number n, val => n.minval ≤ val ∧ val ≤ n.maxval
  | .bufferSeconds, chunks => ∃ sec, 1 ≤ sec ∧ sec ≤ 300 ∧ chunks = chunksOf sec
  | .charset _, val => Line val
  | .passwd, val => ∀ passwd ∈ val, 6 ≤ passwd.length ∧ Line passwd
  | .softvolState, (l, r) => 0 ≤ l ∧ l ≤ 100 ∧ 0 ≤ r ∧ r ≤ 100
  | .libAddFilter, val => Line val ∧ (val ≠ [] → ∃ e, Expr.exprParse env val = .ok e)
  | .format f, val => Line val ∧ (f ≠ .clippedText → trackFormatValid env val = true)
  | .color _, val => -1 ≤ val ∧ val ≤ 255
  | .attr _, val => val ∈ singleAttrs

theorem chunksOf_back (sec : Nat) :
    (chunksOf sec * chunkSize + secondSize / 2) / secondSize = sec := by
  simp only [chunksOf, chunkSize, secondSize]
  omega

theorem choice_back (c : Choice) {val : Int} (hmin : 0 ≤ val) (hmax : val < c.count) :
    (Opt.choice c).parse env (nameAt c.names val) = .ok val ∧ Line (nameAt c.names val) := by
  have hall : ∀ i : Fin 7,
      (i.val < Choice.aaaMode.count → parseEnum (nameAt Choice.aaaMode.names i.val) 0 2
        Choice.aaaMode.names = .ok i.val ∧ Line (nameAt Choice.aaaMode.names i.val)) ∧
      (i.val < Choice.replaygain.count → parseEnum (nameAt Choice.replaygain.names i.val) 0 5
        Choice.replaygain.names = .ok i.val ∧ Line (nameAt Choice.replaygain.names i.val)) ∧
      (i.val < Choice.shuffle.count → parseShuffle (nameAt Choice.shuffle.names i.val) =
        .ok i.val ∧ Line (nameAt Choice.shuffle.names i.val)) ∧
      (i.val < Choice.startView.count → parseEnum (nameAt Choice.startView.names i.val) 0
        (ResumeFile.nrViews - 1) Choice.startView.names = .ok i.val ∧
        Line (nameAt Choice.startView.names i.val)) := by
    decide +kernel
  obtain ⟨n, rfl⟩ := Int.eq_ofNat_of_zero_le hmin
  have hn : n < 7 := by
    cases c <;> simp only [Choice.count] at hmax <;> omega
  obtain ⟨haaa, hreplaygain, hshuffle, hview⟩ := hall ⟨n, hn⟩
  cases c with
  | aaaMode => exact haaa hmax
  | replaygain => exact hreplaygain hmax
  | shuffle => exact hshuffle hmax
  | startView => exact hview hmax

theorem color_back {val : Int} (hmin : -1 ≤ val) (hmax : val ≤ 255) :
    parseEnum (getColor val) (-1) 255 colorEnumNames = .ok val ∧ Line (getColor val) := by
  by_cases hname : val < 16
  · have hall : ∀ i : Fin 17, parseEnum (getColor ((i.val : Int) - 1)) (-1) 255 colorEnumNames =
        .ok ((i.val : Int) - 1) ∧ Line (getColor ((i.val : Int) - 1)) := by
      decide +kernel
    obtain ⟨n, hn⟩ := Int.eq_ofNat_of_zero_le (show 0 ≤ val + 1 by omega)
    obtain rfl : val = (n : Int) - 1 := by omega
    exact hall ⟨n, by omega⟩
  · obtain ⟨hback, -, hline⟩ := printInt_back hmin (by omega)
    rw [getColor, if_neg hname]
    refine ⟨?_, hline⟩
    rw [parseEnum, ResumeFile.parseEnum, hback]
    dsimp only
    rw [if_pos rfl, if_neg (by omega)]

theorem softvolState_back {l r : Int} (hl : 0 ≤ l ∧ l ≤ 100) (hr : 0 ≤ r ∧ r ≤ 100) :
    parseSoftvolState (printInt l ++ ch ' ' :: printInt r) = .ok (l, r) ∧
      Line (printInt l ++ ch ' ' :: printInt r) := by
  obtain ⟨hlback, hllength, hlline⟩ := printInt_back (x := l) (by omega) (by omega)
  obtain ⟨hrback, hrlength, hrline⟩ := printInt_back (x := r) (by omega) (by omega)
  have hspace {x : Int} (hx : 0 ≤ x) : ch ' ' ∉ printInt x := fun h => by
    rw [printInt_pos hx] at h
    exact absurd (decimal_digits h) (by decide)
  have hlength : (printInt l ++ ch ' ' :: printInt r).length ≤ 9 := by
    rw [List.length_append, List.length_cons]
    omega
  constructor
  · have hskip : skipSpaces (ch ' ' :: printInt r) = printInt r := by
      rw [Autosave.skipSpaces_space]
      exact skipSpaces_of_head (Autosave.head_ne_space (hspace hr.1))
    rw [parseSoftvolState, List.take_of_length_le (hlength.trans (by decide))]
    simp only [Sequence.takeWhile_split _ (hspace hl.1), Sequence.dropWhile_split _ (hspace hl.1),
      hskip, hlback, hrback]
    rw [if_neg]
    simp only [List.mem_append, List.mem_cons, true_or, or_true, not_true, Bool.not_true,
      Bool.false_eq_true, false_or]
    omega
  · have hbyte (c : UInt8) (hc : c ≠ ch ' ') (h₁ : c ∉ printInt l) (h₂ : c ∉ printInt r) :
        c ∉ printInt l ++ ch ' ' :: printInt r := by
      simp [h₁, h₂, hc]
    exact ⟨lt_of_le_of_lt hlength (by decide), hbyte _ (by decide) hlline.newline hrline.newline,
      hbyte _ (by decide) hlline.cr hrline.cr,
      hbyte _ (by decide) hlline.terminator hrline.terminator⟩

theorem attr_back {attr : Attr} (h : attr ∈ singleAttrs) :
    setAttr (getAttr attr) = attr ∧ Line (getAttr attr) := by
  have hall : ∀ attr ∈ singleAttrs, setAttr (getAttr attr) = attr ∧ Line (getAttr attr) := by
    decide +kernel
  exact hall attr h

/-- What is shown of a value is parsed as the value. -/
theorem Opt.parse_shown (opt : Opt) {val : opt.Value} (h : opt.Valid env val) :
    opt.parse env (opt.shown val) = .ok val ∧ Line (opt.shown val) := by
  cases opt with
  | flag f =>
    have hall : ∀ val : Bool, parseBool (nameAt boolNames val.toNat) = .ok val ∧
        Line (nameAt boolNames val.toNat) := by
      decide
    exact hall val
  | choice c => exact choice_back env c h.1 h.2
  | number n =>
    have hrange : -1 ≤ n.minval ∧ n.maxval ≤ 9999 := by
      cases n <;> decide
    exact ⟨parseInt_printInt _ _ h.1 h.2 hrange.1 hrange.2,
      (printInt_back (hrange.1.trans h.1) (h.2.trans hrange.2)).2.2⟩
  | bufferSeconds =>
    obtain ⟨sec, hmin, hmax, rfl⟩ := h
    have hback := parseInt_printInt (x := sec) 1 300 (by omega) (by omega) (by decide)
      (by decide)
    rw [printInt_pos (by omega), Int.natAbs_natCast] at hback
    rw [Opt.shown, chunksOf_back, Opt.parse, hback]
    exact ⟨rfl, (decimal_line (by omega)).2⟩
  | charset c => exact ⟨rfl, h⟩
  | passwd =>
    cases val with
    | none => exact ⟨rfl, by decide⟩
    | some passwd =>
      obtain ⟨hlength, hline⟩ := h passwd rfl
      refine ⟨?_, hline⟩
      rw [Opt.shown, Opt.parse, parsePasswd, if_neg, if_neg]
      · rfl
      · exact Nat.not_lt.mpr hlength
      · exact Nat.ne_of_gt (Nat.lt_of_lt_of_le (by decide) hlength)
  | softvolState => exact softvolState_back ⟨h.1, h.2.1⟩ h.2.2
  | libAddFilter =>
    obtain ⟨hline, hparses⟩ := h
    refine ⟨?_, hline⟩
    rw [Opt.shown, Opt.parse]
    split
    · rename_i hne
      obtain ⟨e, he⟩ := hparses fun hnil => hne (congrArg List.length hnil)
      rw [he]
    · rfl
  | format f =>
    obtain ⟨hline, hvalid⟩ := h
    refine ⟨?_, hline⟩
    by_cases hf : f = .clippedText
    · subst hf
      rfl
    · rw [Opt.shown]
      cases f with
      | clippedText => exact absurd rfl hf
      | _ => exact if_pos (hvalid hf)
  | color i => exact color_back h.1 h.2
  | attr i =>
    obtain ⟨hback, hline⟩ := attr_back h
    exact ⟨congrArg Except.ok hback, hline⟩

theorem parseInt_range {buf : Text} {minval maxval val : Int}
    (h : parseInt buf minval maxval = .ok val) : minval ≤ val ∧ val ≤ maxval := by
  rw [parseInt] at h
  dsimp only at h
  split at h
  · cases h
  · rename_i hrange
    cases h
    omega

/-- There are no more names than values. -/
theorem parseEnum_range {buf : Text} {minval maxval val : Int} {names : List String}
    (hnames : minval + names.length ≤ maxval + 1)
    (h : parseEnum buf minval maxval names = .ok val) : minval ≤ val ∧ val ≤ maxval := by
  rw [parseEnum] at h
  split at h
  case h_2 => cases h
  case h_1 hval =>
    cases h
    rw [ResumeFile.parseEnum] at hval
    dsimp only at hval
    split at hval
    · split at hval
      · cases hval
      · rename_i hrange
        cases hval
        omega
    · obtain ⟨_, hfound, rfl⟩ := Option.map_eq_some_iff.mp hval
      obtain ⟨i, hi, hcast⟩ := Option.bind_eq_some_iff.mp hfound
      have hlength := (List.findIdx?_eq_some_iff_findIdx_eq.mp hi).1
      cases hcast
      omega

theorem parseSoftvolState_range {buf : Text} {val : Int × Int}
    (h : parseSoftvolState buf = .ok val) :
    0 ≤ val.1 ∧ val.1 ≤ 100 ∧ 0 ≤ val.2 ∧ val.2 ≤ 100 := by
  rw [parseSoftvolState] at h
  dsimp only at h
  split at h
  · cases h
  · rename_i hrange
    cases h
    simp only [not_or] at hrange
    dsimp only
    omega

theorem map_ok {ε α β : Type} {f : α → β} {x : Except ε α} {b : β} (h : x.map f = .ok b) :
    ∃ a, x = .ok a ∧ f a = b := by
  cases x with
  | error e => cases h
  | ok a => exact ⟨a, rfl, Except.ok.inj h⟩

/-- Each parser checks what it lets through. -/
theorem Opt.valid_parse (opt : Opt) {buf : Text} (hbuf : Line buf) {val : opt.Value}
    (h : opt.parse env buf = .ok val) : opt.Valid env val := by
  cases opt with
  | flag f => trivial
  | choice c =>
    cases c with
    | shuffle =>
      obtain ⟨tmp, htmp, rfl⟩ := map_ok h
      obtain ⟨hmin, hmax⟩ := parseEnum_range (by decide) htmp
      have hmode (tmp : Int) (hmin : 0 ≤ tmp) (hmax : tmp ≤ 4) :
          0 ≤ (if tmp = 3 then 0 else if tmp = 4 then 1 else tmp) ∧
            (if tmp = 3 then 0 else if tmp = 4 then 1 else tmp) < 3 := by
        split
        · decide
        split
        · decide
        · omega
      exact hmode tmp hmin hmax
    | aaaMode | replaygain | startView =>
      obtain ⟨hmin, hmax⟩ := parseEnum_range (by decide) h
      exact ⟨hmin, Int.lt_of_le_sub_one hmax⟩
  | number n => exact parseInt_range h
  | bufferSeconds =>
    obtain ⟨sec, hsec, rfl⟩ := map_ok h
    have hrange := parseInt_range hsec
    exact ⟨sec.toNat, by omega, by omega, rfl⟩
  | charset c =>
    cases h
    exact hbuf
  | passwd =>
    rw [Opt.parse, parsePasswd] at h
    split at h
    · cases h
      intro passwd hmem
      cases hmem
    split at h
    · cases h
    · rename_i hlength
      cases h
      rintro passwd ⟨⟩
      exact ⟨Nat.not_lt.mp hlength, hbuf⟩
  | softvolState => exact parseSoftvolState_range h
  | libAddFilter =>
    rw [Opt.parse] at h
    split at h
    · split at h
      · rename_i e he
        cases h
        exact ⟨hbuf, fun _ => ⟨e, he⟩⟩
      · cases h
    · rename_i hempty
      cases h
      exact ⟨hbuf, fun hne => absurd (List.length_eq_zero_iff.mp (not_not.mp hempty)) hne⟩
  | format f =>
    by_cases hf : f = .clippedText
    · subst hf
      cases h
      exact ⟨hbuf, fun hne => absurd rfl hne⟩
    · have hif : (if trackFormatValid env buf then Except.ok buf
          else Except.error (some (ascii "invalid format string"))) = .ok val := by
        cases f with
        | clippedText => exact absurd rfl hf
        | _ => exact h
      split at hif
      · rename_i hvalid
        cases hif
        exact ⟨hbuf, fun _ => hvalid⟩
      · cases hif
  | color i =>
    have hnames : (-1 : Int) + colorEnumNames.length ≤ 255 + 1 := by decide
    exact parseEnum_range hnames h
  | attr i =>
    cases h
    exact setAttr_single buf

/-! ### Options that change others -/

namespace Values

variable {s t : Values}

theorem put_self (s : Values) (opt : Opt) (val : opt.Value) : s.put opt val opt = val :=
  Function.update_self ..

theorem put_of_ne (s : Values) {opt o : Opt} (val : opt.Value) (h : o ≠ opt) :
    s.put opt val o = s o :=
  Function.update_of_ne h ..

theorem put_same {opt : Opt} {val : opt.Value} (h : s opt = val) : s.put opt val = s := by
  subst h
  exact Function.update_eq_self ..

def expandAll (s : Values) : Values :=
  ((s.put (.flag (.autoExpandAlbums .follow)) true).put
    (.flag (.autoExpandAlbums .search)) true).put (.flag (.autoExpandAlbums .selcur)) true

theorem expandAll_auto (s : Values) (a : AutoExpand) :
    s.expandAll (.flag (.autoExpandAlbums a)) = true := by
  cases a <;> simp [expandAll, put, Function.update]

theorem expandAll_of_ne (s : Values) {o : Opt} (h : ∀ a, o ≠ .flag (.autoExpandAlbums a)) :
    s.expandAll o = s o := by
  rw [expandAll, put_of_ne _ _ (h .selcur), put_of_ne _ _ (h .search), put_of_ne _ _ (h .follow)]

theorem setAutoExpandAlbumsInt_on (n : Nat) (a : AutoExpand) (s : Values) :
    setAutoExpandAlbumsInt (n + 1) a true s = s.put (.flag (.autoExpandAlbums a)) true := by
  rw [setAutoExpandAlbumsInt]
  simp [put_self]

theorem setShowAllTracksInt_on (n : Nat) (s : Values) :
    setShowAllTracksInt (n + 1) true s = s.put (.flag .showAllTracks) true := by
  rw [setShowAllTracksInt]
  split
  · rename_i h
    exact (put_same h).symm
  · simp [put_self]

/-- Albums that are not expanded are shown with all tracks. -/
theorem setAutoExpandAlbumsInt_eq (a : AutoExpand) (value : Bool) (s : Values) :
    setAutoExpandAlbumsInt callDepth a value s =
      if value = false ∧ s (.flag .showAllTracks) = false then
        (s.put (.flag (.autoExpandAlbums a)) value).put (.flag .showAllTracks) true
      else s.put (.flag (.autoExpandAlbums a)) value := by
  rw [callDepth, setAutoExpandAlbumsInt]
  simp only [put_self, put_of_ne s value (show (Opt.flag .showAllTracks) ≠
    .flag (.autoExpandAlbums a) by simp), setShowAllTracksInt_on, Bool.and_eq_true,
    Bool.not_eq_true']

/-- Albums whose tracks are not all shown are expanded. -/
theorem setShowAllTracksInt_eq (value : Bool) (s : Values) :
    setShowAllTracksInt callDepth value s =
      if s (.flag .showAllTracks) = value then s
      else if value then s.put (.flag .showAllTracks) value
      else (s.put (.flag .showAllTracks) value).expandAll := by
  have hon (a : AutoExpand) (s : Values) :
      (if !s (.flag (.autoExpandAlbums a)) then setAutoExpandAlbumsInt 1 a true s else s) =
        s.put (.flag (.autoExpandAlbums a)) true := by
    split
    · exact setAutoExpandAlbumsInt_on 0 a s
    · rename_i h
      exact (put_same (by simpa using h)).symm
  rw [callDepth, setShowAllTracksInt]
  simp only [put_self, hon]
  cases value <;> rfl

/-! ### Valid options -/

/-- Albums are expanded where their tracks are not all shown. -/
structure Valid (s : Values) : Prop where
  value : ∀ opt : Opt, opt.Valid env (s opt)
  expanded : s (.flag .showAllTracks) = true ∨ ∀ a, s (.flag (.autoExpandAlbums a)) = true

/-- An option that changes no other one. -/
def Plain (opt : Opt) : Prop :=
  opt ≠ .flag .showAllTracks ∧ ∀ a, opt ≠ .flag (.autoExpandAlbums a)

theorem set_plain {opt : Opt} (h : Plain opt) (s : Values) (buf : Text) :
    s.set env opt buf = match opt.parse env buf with
      | .ok val => (s.put opt val, none)
      | .error msg => (s, msg) := by
  cases opt with
  | flag f =>
    cases f with
    | showAllTracks => exact absurd rfl h.1
    | autoExpandAlbums a => exact absurd rfl (h.2 a)
    | _ => rfl
  | _ => rfl

variable {env}

/-- A flag has no value that is not valid. -/
theorem value_of_flags (hs : ∀ opt : Opt, opt.Valid env (s opt))
    (hkeep : ∀ opt, (∀ f, opt ≠ .flag f) → t opt = s opt) (opt : Opt) :
    opt.Valid env (t opt) := by
  cases opt with
  | flag f => trivial
  | _ =>
    rw [hkeep _ fun f h => Opt.noConfusion h]
    exact hs _

theorem put_flag (s : Values) (f : Flag) (val : Bool) {opt : Opt} (h : ∀ f, opt ≠ .flag f) :
    s.put (.flag f) val opt = s opt :=
  put_of_ne s val (h f)

namespace Valid

theorem put (hs : s.Valid env) (opt : Opt) (val : opt.Value) (hval : opt.Valid env val)
    (hopt : Plain opt) : (s.put opt val).Valid env where
  value o := by
    by_cases ho : o = opt
    · subst ho
      rwa [put_self]
    · rw [put_of_ne s val ho]
      exact hs.value o
  expanded := by
    rw [put_of_ne s val hopt.1.symm]
    exact hs.expanded.imp_right fun hall a => by rw [put_of_ne s val (hopt.2 a).symm, hall a]

theorem setAutoExpandAlbumsInt (hs : s.Valid env) (a : AutoExpand) (value : Bool) :
    (setAutoExpandAlbumsInt callDepth a value s).Valid env := by
  have hshow : (Opt.flag .showAllTracks) ≠ .flag (.autoExpandAlbums a) := by simp
  rw [setAutoExpandAlbumsInt_eq]
  split
  · refine ⟨value_of_flags hs.value fun opt h => ?_, .inl (put_self ..)⟩
    rw [put_flag _ _ _ h, put_flag _ _ _ h]
  · rename_i hoff
    refine ⟨value_of_flags hs.value fun opt h => put_flag _ _ _ h, ?_⟩
    rw [put_of_ne s value hshow]
    rcases hs.expanded with hall | hexpanded
    · exact .inl hall
    cases hshown : s (.flag .showAllTracks) with
    | true => exact .inl rfl
    | false =>
      have hvalue : value = true := by simpa [hshown] using hoff
      refine .inr fun b => ?_
      by_cases hb : b = a
      · rw [hb, put_self, hvalue]
      · have hne : Opt.flag (.autoExpandAlbums b) ≠ .flag (.autoExpandAlbums a) := by
          simpa using hb
        rw [put_of_ne s value hne, hexpanded b]

theorem setShowAllTracksInt (hs : s.Valid env) (value : Bool) :
    (setShowAllTracksInt callDepth value s).Valid env := by
  rw [setShowAllTracksInt_eq]
  split
  · exact hs
  split
  · rename_i hvalue
    refine ⟨value_of_flags hs.value fun opt h => put_flag _ _ _ h, .inl ?_⟩
    rw [put_self, hvalue]
  · refine ⟨value_of_flags hs.value fun opt h => ?_, .inr (expandAll_auto _)⟩
    rw [expandAll_of_ne _ fun a => h _, put_flag _ _ _ h]

theorem orFalse {set : Bool → Values} (h : ∀ value, (set value).Valid env)
    (value : Except (Option Text) Bool) : (orFalse set value).1.Valid env := by
  cases value <;> exact h _

theorem set (hs : s.Valid env) (opt : Opt) {buf : Text} (hbuf : Line buf) :
    (s.set env opt buf).1.Valid env := by
  by_cases hplain : Plain opt
  · rw [set_plain env hplain]
    cases hparse : opt.parse env buf with
    | error msg => exact hs
    | ok val => exact hs.put opt val (opt.valid_parse env hbuf hparse) hplain
  · by_cases hshow : opt = .flag .showAllTracks
    · subst hshow
      exact orFalse (hs.setShowAllTracksInt ·) _
    · obtain ⟨a, rfl⟩ : ∃ a, opt = .flag (.autoExpandAlbums a) := by
        by_contra hno
        exact hplain ⟨hshow, fun a h => hno ⟨a, h⟩⟩
      exact orFalse (hs.setAutoExpandAlbumsInt a ·) _

theorem toggleFlag (hs : s.Valid env) {f : Flag} (hf : Plain (.flag f)) :
    (s.toggleFlag f).Valid env :=
  hs.put _ _ trivial hf

theorem toggle (hs : s.Valid env) {opt : Opt} (h : s.toggle opt = some t) : t.Valid env := by
  have hplain {f : Flag} (h₁ : f ≠ .showAllTracks) (h₂ : ∀ a, f ≠ .autoExpandAlbums a) :
      Plain (.flag f) :=
    ⟨fun h => h₁ (Opt.flag.inj h), fun a h => h₂ a (Opt.flag.inj h)⟩
  have hchoice (c : Choice) : Plain (.choice c) := ⟨fun h => Opt.noConfusion h,
    fun _ h => Opt.noConfusion h⟩
  have hlibrary : Plain (.flag .playLibrary) := hplain (by decide) fun _ h => Flag.noConfusion h
  cases opt with
  | flag f =>
    cases f with
    | showAllTracks =>
      cases h
      exact hs.setShowAllTracksInt _
    | autoExpandAlbums a =>
      cases h
      exact hs.setAutoExpandAlbumsInt a _
    | playSorted =>
      cases h
      have hsorted := hs.toggleFlag (hplain (f := .playSorted) (by decide)
        fun _ h => Flag.noConfusion h)
      rw [togglePlaySorted]
      split
      · exact hsorted.put _ _ trivial hlibrary
      · exact hsorted
    | _ =>
      cases h
      exact hs.toggleFlag (hplain (by decide) fun _ h => Flag.noConfusion h)
  | choice c =>
    cases c with
    | aaaMode =>
      cases h
      have hlib := hs.put (.flag .playLibrary) true trivial hlibrary
      exact hlib.put (.choice .aaaMode) _
        ⟨Int.emod_nonneg _ (by decide), Int.emod_lt_of_pos _ (by decide)⟩ (hchoice _)
    | replaygain =>
      cases h
      exact hs.put (.choice .replaygain) _
        ⟨Int.emod_nonneg _ (by decide), Int.emod_lt_of_pos _ (by decide)⟩ (hchoice _)
    | shuffle =>
      cases h
      have hnext := hs.put (.choice .shuffle) ((s (.choice .shuffle) + 1) % 3)
        ⟨Int.emod_nonneg _ (by decide), Int.emod_lt_of_pos _ (by decide)⟩ (hchoice _)
      rw [toggleShuffle]
      split
      · exact hnext.put (.choice .shuffle) _ ⟨le_rfl, by decide⟩ (hchoice _)
      · exact hnext
    | startView => cases h
  | _ => cases h

/-- Setting an option to what is shown of it brings it back, and leaves alone what is back
already. -/
theorem set_get (hs : s.Valid env) (opt : Opt) (t : Values) :
    (t.set env opt (s.get opt)).1 opt = s opt ∧
      ∀ o, t o = s o → (t.set env opt (s.get opt)).1 o = s o := by
  obtain ⟨hparse, hline⟩ := opt.parse_shown env (hs.value opt)
  have hget : s.get opt = opt.shown (s opt) :=
    List.take_of_length_le (Nat.le_sub_one_of_lt hline.short)
  rw [hget]
  by_cases hplain : Plain opt
  · rw [set_plain env hplain, hparse]
    refine ⟨put_self .., fun o ho => ?_⟩
    by_cases heq : o = opt
    · subst heq
      exact put_self ..
    · exact (put_of_ne t _ heq).trans ho
  by_cases hshow : opt = .flag .showAllTracks
  · subst hshow
    have hset : (t.set env (.flag .showAllTracks) (Opt.shown _ (s (.flag .showAllTracks)))).1 =
        Values.setShowAllTracksInt callDepth (s (.flag .showAllTracks)) t := by
      exact congrArg (fun r => (Values.orFalse _ r).1) hparse
    rw [hset, setShowAllTracksInt_eq]
    split
    · rename_i h
      exact ⟨h, fun o ho => ho⟩
    split
    · refine ⟨put_self .., fun o ho => ?_⟩
      by_cases heq : o = .flag .showAllTracks
      · subst heq
        exact put_self ..
      · exact (put_of_ne t _ heq).trans ho
    · rename_i hoff
      have hexpanded := hs.expanded.resolve_left hoff
      refine ⟨(expandAll_of_ne _ (by simp)).trans (put_self ..), fun o ho => ?_⟩
      by_cases hauto : ∃ a, o = .flag (.autoExpandAlbums a)
      · obtain ⟨a, rfl⟩ := hauto
        rw [expandAll_auto, hexpanded a]
      · rw [expandAll_of_ne _ fun a h => hauto ⟨a, h⟩]
        by_cases heq : o = .flag .showAllTracks
        · subst heq
          exact put_self ..
        · exact (put_of_ne t _ heq).trans ho
  · obtain ⟨a, rfl⟩ : ∃ a, opt = .flag (.autoExpandAlbums a) := by
      by_contra hno
      exact hplain ⟨hshow, fun a h => hno ⟨a, h⟩⟩
    have hset : (t.set env (.flag (.autoExpandAlbums a))
        (Opt.shown _ (s (.flag (.autoExpandAlbums a))))).1 =
        Values.setAutoExpandAlbumsInt callDepth a (s (.flag (.autoExpandAlbums a))) t := by
      exact congrArg (fun r => (Values.orFalse _ r).1) hparse
    have hput (o : Opt) (ho : t o = s o) :
        t.put (.flag (.autoExpandAlbums a)) (s (.flag (.autoExpandAlbums a))) o = s o := by
      by_cases heq : o = .flag (.autoExpandAlbums a)
      · subst heq
        exact put_self ..
      · exact (put_of_ne t _ heq).trans ho
    rw [hset, setAutoExpandAlbumsInt_eq]
    split
    · rename_i hoff
      -- then the tracks are all shown in `s`
      have hall := hs.expanded.resolve_right fun h => by simp [h a] at hoff
      refine ⟨(put_of_ne _ _ (by simp)).trans (put_self ..), fun o ho => ?_⟩
      by_cases heq : o = .flag .showAllTracks
      · subst heq
        rw [hoff.2, hall] at ho
        cases ho
      · exact (put_of_ne _ _ heq).trans (hput o ho)
    · exact ⟨put_self .., hput⟩

end Valid

end Values

/-! ### Names -/

theorem mem_addedOptions (opt : Opt) : opt ∈ addedOptions := by
  have hsimple {o : Opt} (h : o ∈ simpleOptions) : o ∈ addedOptions := by
    simp only [addedOptions, List.mem_append]
    exact .inl (.inl (.inl h))
  cases opt with
  | flag f =>
    apply hsimple
    cases f with
    | autoExpandAlbums a => cases a <;> decide
    | _ => decide
  | choice c =>
    apply hsimple
    cases c <;> decide
  | number n =>
    apply hsimple
    cases n <;> decide
  | charset c =>
    apply hsimple
    cases c <;> decide
  | bufferSeconds | passwd | softvolState | libAddFilter => exact hsimple (by decide)
  | format f =>
    have hmem : f ∈ formatIds := by
      cases f <;> decide
    simp [addedOptions, hmem]
  | color i => simp [addedOptions]
  | attr i => simp [addedOptions]

theorem mem_optionAdd {opt o : Opt} {l : List Opt} : o ∈ optionAdd opt l ↔ o = opt ∨ o ∈ l := by
  induction l with
  | nil => simp [optionAdd]
  | cons a l ih =>
    rw [optionAdd]
    split
    · simp
    · simp only [List.mem_cons, ih]
      tauto

theorem mem_optionHead (opt : Opt) : opt ∈ optionHead := by
  have hfold (added head : List Opt) (h : opt ∈ added ∨ opt ∈ head) :
      opt ∈ added.foldl (fun head o => optionAdd o head) head := by
    induction added generalizing head with
    | nil => exact h.resolve_left List.not_mem_nil
    | cons a added ih =>
      apply ih
      rcases h with h | h
      · rcases List.mem_cons.mp h with rfl | h
        · exact .inr (mem_optionAdd.mpr (.inl rfl))
        · exact .inl h
      · exact .inr (mem_optionAdd.mpr (.inr h))
  exact hfold _ _ (.inl (mem_addedOptions opt))

/-- The bytes of a string constant; they are quicker to work out than its characters. -/
def bytes (s : String) : Text := s.toByteArray.data.toList

theorem bytes_ofList (l : List Char) :
    bytes (String.ofList l) = l.flatMap String.utf8EncodeChar := by
  rw [bytes, String.toByteArray_ofList, List.utf8Encode, List.data_toByteArray]

theorem utf8EncodeChar_ascii {c : Char} (h : ∀ b ∈ String.utf8EncodeChar c, b < 128) :
    String.utf8EncodeChar c = [ch c] := by
  revert h
  fun_cases String.utf8EncodeChar c
  · exact fun _ => rfl
  -- what is longer starts with a byte from `0xC0` on
  all_goals
    intro h
    have hhead := h _ List.mem_cons_self
    rw [UInt8.lt_iff_toNat_lt, UInt8.toNat_ofNat'] at hhead
    simp at hhead
    omega

/-- In ASCII a byte is a character. -/
theorem ascii_eq_bytes {s : String} (h : ∀ b ∈ bytes s, b < 128) : ascii s = bytes s := by
  obtain ⟨l, rfl⟩ : ∃ l, s = String.ofList l := ⟨s.toList, String.ofList_toList.symm⟩
  rw [bytes_ofList] at h ⊢
  rw [ascii, String.toList_ofList]
  induction l with
  | nil => rfl
  | cons c l ih =>
    rw [List.flatMap_cons] at h ⊢
    rw [utf8EncodeChar_ascii fun b hb => h b (List.mem_append_left _ hb), List.map_cons,
      ih fun b hb => h b (List.mem_append_right _ hb), List.singleton_append]

/-- A byte of the name of an option. -/
def isNameByte (c : UInt8) : Bool := isAlpha c || isDigit c || c = ch '_'

/-- A name as one number, so that names are quick to compare. -/
def nameKey (name : Text) : Nat := name.foldl (fun n c => n * 256 + c.toNat) 0

/-- As a `Bool`, and so the same computation wherever it is evaluated. -/
def distinct : List Nat → Bool
  | [] => true
  | key :: keys => keys.all (fun k => !Nat.beq key k) && distinct keys

theorem nodup_of_distinct {keys : List Nat} (h : distinct keys = true) : keys.Nodup := by
  induction keys with
  | nil => exact List.nodup_nil
  | cons key keys ih =>
    rw [distinct, Bool.and_eq_true] at h
    refine List.nodup_cons.mpr ⟨fun hmem => ?_, ih h.2⟩
    have hkey := List.all_eq_true.mp h.1 key hmem
    rw [Nat.beq_refl] at hkey
    cases hkey

theorem words_distinct :
    (addedOptions.all fun opt => !(bytes opt.word).isEmpty && (bytes opt.word).all isNameByte) &&
      distinct (addedOptions.map fun opt => nameKey (bytes opt.word)) := by
  decide +kernel

theorem Opt.word_bytes (opt : Opt) :
    bytes opt.word ≠ [] ∧ ∀ c ∈ bytes opt.word, isNameByte c = true := by
  have hall := (Bool.and_eq_true ..).mp words_distinct
  have hword := List.all_eq_true.mp hall.1 opt (mem_addedOptions opt)
  rw [Bool.and_eq_true, Bool.not_eq_true', List.isEmpty_eq_false_iff] at hword
  exact ⟨hword.1, List.all_eq_true.mp hword.2⟩

theorem Opt.name_eq (opt : Opt) : opt.name = bytes opt.word := by
  have hlow : ∀ c : UInt8, isNameByte c → c < 128 := forall_byte (by decide +kernel)
  exact ascii_eq_bytes fun c hc => hlow c (opt.word_bytes.2 c hc)

theorem Opt.name_plain (opt : Opt) : opt.name ≠ [] ∧ ch ' ' ∉ opt.name ∧ ch '=' ∉ opt.name ∧
    ch '\n' ∉ opt.name ∧ ch '\r' ∉ opt.name ∧ 0 ∉ opt.name := by
  obtain ⟨hne, hbyte⟩ := opt.word_bytes
  rw [opt.name_eq]
  have hnot (c : UInt8) (hc : isNameByte c = false) : c ∉ bytes opt.word := fun hmem => by
    rw [hbyte c hmem] at hc
    cases hc
  exact ⟨hne, hnot _ (by decide), hnot _ (by decide), hnot _ (by decide), hnot _ (by decide),
    hnot _ (by decide)⟩

theorem name_injective : Function.Injective Opt.name := by
  intro a b hab
  rw [a.name_eq, b.name_eq] at hab
  have hkeys := nodup_of_distinct ((Bool.and_eq_true ..).mp words_distinct).2
  exact List.inj_on_of_nodup_map hkeys (mem_addedOptions a) (mem_addedOptions b)
    (congrArg nameKey hab)

/-- A byte of a text in a format. -/
def isTextByte (c : UInt8) : Bool := 32 ≤ c && c < 127

theorem texts_short :
    formatIds.all (fun f => (f.texts.all fun text => (bytes text).all isTextByte) &&
      (f.texts.map fun text => (bytes text).length).sum < optionMaxSize) = true := by
  decide +kernel

theorem default_line (f : FormatId) : Line f.default := by
  by_cases hclipped : f = .clippedText
  · rw [hclipped]
    decide
  have hdefault : f.default = f.texts.flatMap ascii := by
    cases f with
    | clippedText => exact absurd rfl hclipped
    | _ => rfl
  have hmem : f ∈ formatIds := by
    cases f <;> decide
  have hcheck := List.all_eq_true.mp texts_short f hmem
  rw [Bool.and_eq_true, decide_eq_true_eq] at hcheck
  obtain ⟨htexts, hlength⟩ := hcheck
  have htext (text : String) (ht : text ∈ f.texts) (c : UInt8) (hc : c ∈ bytes text) :
      isTextByte c = true :=
    List.all_eq_true.mp (List.all_eq_true.mp htexts text ht) c hc
  have hlow : ∀ c : UInt8, isTextByte c → c < 128 := forall_byte (by decide +kernel)
  have hflat : f.default = f.texts.flatMap bytes :=
    hdefault.trans (List.flatMap_congr fun text ht =>
      ascii_eq_bytes fun c hc => hlow c (htext text ht c hc))
  have hbyte (c : UInt8) (hc : isTextByte c = false) : c ∉ f.default := fun hmem => by
    rw [hflat] at hmem
    obtain ⟨text, ht, hmem⟩ := List.mem_flatMap.mp hmem
    rw [htext text ht c hmem] at hc
    cases hc
  refine ⟨?_, hbyte _ (by decide), hbyte _ (by decide), hbyte _ (by decide)⟩
  rw [hflat, List.length_flatMap]
  exact hlength

theorem optionFind_name (opt : Opt) : optionFind opt.name = some opt := by
  unfold optionFind
  have hcmp (o : Opt) : strcmp opt.name o.name = 0 ↔ opt.name = o.name :=
    strcmp_eq_zero opt.name_plain.2.2.2.2.2 o.name_plain.2.2.2.2.2
  cases hfind : optionHead.find? fun o => strcmp opt.name o.name = 0 with
  | none =>
    have hnone := List.find?_eq_none.mp hfind opt (mem_optionHead opt)
    exact absurd ((hcmp opt).mpr rfl) (by simpa using hnone)
  | some o =>
    have hname : strcmp opt.name o.name = 0 := by simpa using List.find?_some hfind
    rw [name_injective ((hcmp o).mp hname)]

/-! ### The file -/

namespace Values

variable {env} {s : Values}

theorem optionSet_name (s : Values) (opt : Opt) (value : Text) :
    s.optionSet env opt.name value = s.set env opt value := by
  rw [optionSet, optionFind_name]
  rfl

theorem findCommand_set :
    ∃ c, findCommand (ascii "set") commands = .ok c ∧ c.name = ascii "set" := by
  have hname : (findCommand (ascii "set") commands).toOption.map Commands.Command.name =
      some (ascii "set") := by
    decide +kernel
  cases hfind : findCommand (ascii "set") commands with
  | error e =>
    rw [hfind] at hname
    cases hname
  | ok c =>
    rw [hfind] at hname
    exact ⟨c, rfl, Option.some.inj hname⟩

/-- A line does what `set` does. -/
theorem runCommand_setLine (s t : Values) (opt : Opt) :
    t.runCommand env (s.setLine opt) = (t.set env opt (s.get opt)).1 := by
  obtain ⟨hne, hspace, hequals, -⟩ := opt.name_plain
  have hline : s.setLine opt = ascii "set" ++ ch ' ' :: (opt.name ++ ch '=' :: s.get opt) := by
    have hset : ascii "set " = ascii "set" ++ [ch ' '] := by decide
    rw [setLine, hset, List.append_assoc, List.append_assoc]
    rfl
  have hskip : skipSpaces (opt.name ++ ch '=' :: s.get opt) = opt.name ++ ch '=' :: s.get opt := by
    apply skipSpaces_of_head
    rw [Autosave.head_append hne]
    exact Autosave.head_ne_space hspace
  have hparse : parseCommand (s.setLine opt) =
      some (ascii "set", some (opt.name ++ ch '=' :: s.get opt)) := by
    rw [hline, Autosave.parseCommand_word _ (by decide) (by decide) (by decide), hskip, if_neg]
    simp
  obtain ⟨c, hc, hname⟩ := findCommand_set
  have hvalue : optionValue (opt.name ++ ch '=' :: s.get opt) = some (opt.name, s.get opt) := by
    rw [optionValue, Sequence.dropWhile_split _ hequals, Sequence.takeWhile_split _ hequals]
  rw [runCommand, hparse]
  dsimp only
  rw [hc]
  show runFound env t (opt.name ++ ch '=' :: s.get opt) c = _
  rw [runFound, if_pos hname, cmdSet, hvalue, Option.elim_some, optionSet_name]

theorem forEachLineLoop_rows {rows : List Text}
    (h : ∀ row ∈ rows, ch '\n' ∉ row ∧ ch '\r' ∉ row ∧ 0 ∉ row) {fuel : Nat}
    (hfuel : (rows.flatMap fun row => row ++ [ch '\n']).length ≤ fuel) :
    Pl.forEachLineLoop fuel (rows.flatMap fun row => row ++ [ch '\n']) = rows := by
  induction rows generalizing fuel with
  | nil => cases fuel <;> rfl
  | cons row rows ih =>
    obtain ⟨hnewline, hcr, hzero⟩ := h row List.mem_cons_self
    have hstrip : Pl.stripCr row = row := if_neg fun hlast => hcr (List.mem_of_getLast? hlast)
    rw [List.flatMap_cons, List.length_append, List.length_append, List.length_singleton] at hfuel
    cases fuel with
    | zero => omega
    | succ fuel =>
      rw [List.flatMap_cons, List.append_assoc, List.singleton_append,
        Pl.forEachLineLoop_append hnewline, hstrip, Pl.toLine_of_notMem hzero,
        ih (fun r hr => h r (List.mem_cons_of_mem row hr)) (by omega)]

theorem Valid.get_line (hs : s.Valid env) (opt : Opt) : Line (s.get opt) :=
  (opt.parse_shown env (hs.value opt)).2.sublist (List.take_sublist ..)

theorem Valid.setLine_plain (hs : s.Valid env) (opt : Opt) : ch '\n' ∉ s.setLine opt ∧
    ch '\r' ∉ s.setLine opt ∧ 0 ∉ s.setLine opt := by
  obtain ⟨-, -, -, hnewline, hcr, hzero⟩ := opt.name_plain
  have hget := hs.get_line opt
  have hbyte (c : UInt8) (hword : c ∉ ascii "set ") (hequals : c ≠ ch '=')
      (hname : c ∉ opt.name) (hvalue : c ∉ s.get opt) : c ∉ s.setLine opt := by
    rw [setLine]
    simp [hword, hequals, hname, hvalue]
  exact ⟨hbyte _ (by decide) (by decide) hnewline hget.newline,
    hbyte _ (by decide) (by decide) hcr hget.cr,
    hbyte _ (by decide) (by decide) hzero hget.terminator⟩

/-- The lines that are run bring their options back, and keep what is back already. -/
theorem Valid.run_setLines (hs : s.Valid env) (opts : List Opt) (t : Values) (o : Opt)
    (ho : o ∈ opts ∨ t o = s o) : (opts.map s.setLine).foldl (runCommand env) t o = s o := by
  induction opts generalizing t with
  | nil => exact ho.resolve_left List.not_mem_nil
  | cons opt opts ih =>
    obtain ⟨hback, hkeep⟩ := hs.set_get opt t
    rw [List.map_cons, List.foldl_cons, runCommand_setLine]
    apply ih
    rcases ho with ho | ho
    · rcases List.mem_cons.mp ho with rfl | ho
      · exact .inr hback
      · exact .inl ho
    · exact .inr (hkeep o ho)

/-- The file brings all options back, whatever they are when it is read. -/
theorem Valid.sourceFile_optionsExit (hs : s.Valid env) (t : Values) :
    t.sourceFile env s.optionsExit = s := by
  have hrows : s.optionsExit = (optionHead.map s.setLine).flatMap fun row => row ++ [ch '\n'] := by
    rw [optionsExit, List.flatMap_map]
  have hplain : ∀ row ∈ optionHead.map s.setLine, ch '\n' ∉ row ∧ ch '\r' ∉ row ∧ 0 ∉ row := by
    intro row hrow
    obtain ⟨opt, -, rfl⟩ := List.mem_map.mp hrow
    exact hs.setLine_plain opt
  have hlines : Pl.bufferForEachLine s.optionsExit = optionHead.map s.setLine := by
    rw [Pl.bufferForEachLine, hrows]
    exact forEachLineLoop_rows hplain (Nat.le_refl _)
  funext o
  rw [sourceFile, hlines]
  exact hs.run_setLines optionHead t o (.inl (mem_optionHead o))

/-! ### Runs -/

theorem parseCommand_suffix {buf cmd arg : Text} (h : parseCommand buf = some (cmd, some arg)) :
    arg <:+ buf := by
  rw [parseCommand] at h
  split at h
  · cases h
  · have harg := (Prod.mk.inj (Option.some.inj h)).2
    split at harg
    · cases harg
    · cases harg
      exact (List.dropWhile_suffix _).trans
        ((List.dropWhile_suffix _).trans (List.dropWhile_suffix _))

theorem optionValue_suffix {arg name value : Text} (h : optionValue arg = some (name, value)) :
    value <:+ arg := by
  rw [optionValue] at h
  split at h
  · cases h
  · rename_i c rest hdrop
    cases h
    have hsuffix : c :: value <:+ arg := hdrop ▸ List.dropWhile_suffix _
    exact (List.suffix_cons c value).trans hsuffix

theorem Valid.optionSet (hs : s.Valid env) (name : Text) {value : Text} (hvalue : Line value) :
    (s.optionSet env name value).1.Valid env := by
  have hfound (found : Option Opt) (t : Values × Option Text) (ht : t.1.Valid env) :
      (found.elim t fun opt => s.set env opt value).1.Valid env := by
    cases found with
    | none => exact ht
    | some opt => exact hs.set opt hvalue
  exact hfound _ _ hs

theorem Valid.cmdSet (hs : s.Valid env) {arg : Text} (harg : Line arg) :
    (s.cmdSet env arg).Valid env := by
  have hfound (found : Option (Text × Text)) (hline : ∀ p ∈ found, Line p.2) :
      (found.elim s fun p => (s.optionSet env p.1 p.2).1).Valid env := by
    cases found with
    | none => exact hs
    | some p =>
      rw [Option.elim_some]
      exact hs.optionSet p.1 (hline p rfl)
  exact hfound _ fun _ hp => harg.sublist (optionValue_suffix hp).sublist

theorem Valid.cmdToggle (hs : s.Valid env) (arg : Text) : (s.cmdToggle arg).Valid env := by
  have hfound (found : Option Opt) : ((found.bind s.toggle).getD s).Valid env := by
    cases htoggle : found.bind s.toggle with
    | none => exact hs
    | some t =>
      obtain ⟨opt, -, ht⟩ := Option.bind_eq_some_iff.mp htoggle
      exact hs.toggle ht
  exact hfound _

theorem Valid.runFound (hs : s.Valid env) {arg : Text} (harg : Line arg) (c : Commands.Command) :
    (s.runFound env arg c).Valid env := by
  rw [Values.runFound]
  split
  · exact hs.cmdSet harg
  split
  · exact hs.cmdToggle arg
  · exact hs

/-- Every command keeps the options valid. -/
theorem Valid.runCommand (hs : s.Valid env) {buf : Text} (hbuf : Line buf) :
    (s.runCommand env buf).Valid env := by
  rw [Values.runCommand]
  split
  case h_2 => exact hs
  case h_1 cmd arg hparse =>
    have harg := hbuf.sublist (parseCommand_suffix hparse).sublist
    have hfound (found : Option Commands.Command) :
        (found.elim s (s.runFound env arg)).Valid env := by
      cases found with
      | none => exact hs
      | some c => exact hs.runFound harg c
    exact hfound _

variable (env) in
/-- The commands of a session. -/
def run (s : Values) (cmds : List Text) : Values := cmds.foldl (runCommand env) s

theorem Valid.run (hs : s.Valid env) {cmds : List Text} (hcmds : ∀ cmd ∈ cmds, Line cmd) :
    (s.run env cmds).Valid env := by
  induction cmds generalizing s with
  | nil => exact hs
  | cons cmd cmds ih =>
    exact ih (hs.runCommand (hcmds cmd List.mem_cons_self)) fun c hc =>
      hcmds c (List.mem_cons_of_mem cmd hc)

variable (env) in
/-- The later sessions: what each starts with before it reads the file of the one before, and
its commands. -/
def sessions (s : Values) : List (Values × List Text) → Values
  | [] => s
  | (fresh, cmds) :: rest => sessions ((fresh.sourceFile env s.optionsExit).run env cmds) rest

theorem default_valid (opt : Opt)
    (hformat : ∀ f, opt = .format f → trackFormatValid env f.default = true) :
    opt.Valid env (defaults opt) := by
  cases opt with
  | flag f => trivial
  | choice c => cases c <;> exact ⟨le_rfl, by decide⟩
  | number n => cases n <;> exact ⟨by decide, by decide⟩
  | bufferSeconds => exact ⟨10, by decide, by decide, by decide⟩
  | charset c =>
    have hline : Line (ascii "ISO-8859-1") := by decide
    exact hline
  | passwd =>
    intro passwd h
    cases h
  | softvolState => exact ⟨le_rfl, by decide, le_rfl, by decide⟩
  | libAddFilter => exact ⟨by decide, fun h => absurd rfl h⟩
  | format f => exact ⟨default_line f, fun _ => hformat f rfl⟩
  | color i =>
    have hall : ∀ i : Fin colorNames.length, -1 ≤ colors.getD i 0 ∧ colors.getD i 0 ≤ 255 := by
      decide
    exact hall i
  | attr i =>
    show (if i.val = 10 then {bold := true} else {}) ∈ singleAttrs
    split <;> decide

/-- What the program starts with can be set, if its own check takes its formats. -/
theorem defaults_valid (hformats : ∀ f : FormatId, trackFormatValid env f.default = true) :
    defaults.Valid env where
  value opt := default_valid opt fun f _ => hformats f
  expanded := .inl rfl

/-- Restarts do not show: after any commands in any number of sessions the options are what
they would be after the same commands in one. -/
theorem sessions_seamless (hs : s.Valid env) (cmds : List Text)
    (later : List (Values × List Text))
    (hlines : ∀ cmd ∈ cmds ++ later.flatMap Prod.snd, Line cmd) :
    (s.run env cmds).sessions env later = s.run env (cmds ++ later.flatMap Prod.snd) ∧
      ((s.run env cmds).sessions env later).Valid env := by
  have hlater (s : Values) (hs : s.Valid env) (later : List (Values × List Text))
      (hlines : ∀ cmd ∈ later.flatMap Prod.snd, Line cmd) :
      s.sessions env later = s.run env (later.flatMap Prod.snd) := by
    induction later generalizing s with
    | nil => rfl
    | cons session rest ih =>
      obtain ⟨fresh, cmds⟩ := session
      rw [List.flatMap_cons] at hlines ⊢
      have hcmds : ∀ cmd ∈ cmds, Line cmd := fun c hc => hlines c (List.mem_append_left _ hc)
      rw [sessions, hs.sourceFile_optionsExit, ih _ (hs.run hcmds) fun c hc =>
        hlines c (List.mem_append_right _ hc)]
      exact (List.foldl_append ..).symm
  have hall : (s.run env cmds).sessions env later = s.run env (cmds ++ later.flatMap Prod.snd) := by
    rw [hlater _ (hs.run fun c hc => hlines c (List.mem_append_left _ hc)) later fun c hc =>
      hlines c (List.mem_append_right _ hc)]
    exact (List.foldl_append ..).symm
  exact ⟨hall, hall ▸ hs.run hlines⟩

/-- The defaults, with formats that print nothing. -/
def silent : Values
  | .format _ => []
  | opt => defaults opt

theorem silent_valid : silent.Valid Expr.plainEnv where
  value opt := by
    cases opt with
    | format f =>
      have hempty : Line [] ∧ trackFormatValid Expr.plainEnv [] = true := by decide
      exact ⟨hempty.1, fun _ => hempty.2⟩
    | _ => exact default_valid _ fun f h => by cases h
  expanded := .inl rfl

/-- The second session reverses the first one in part. -/
theorem sessions_seamless_toggled :
    (silent.run Expr.plainEnv [ascii "set show_all_tracks=false"]).sessions Expr.plainEnv
        [(defaults, [ascii "toggle auto_expand_albums_follow"])] =
      silent.run Expr.plainEnv
        [ascii "set show_all_tracks=false", ascii "toggle auto_expand_albums_follow"] :=
  (sessions_seamless silent_valid [ascii "set show_all_tracks=false"]
    [(defaults, [ascii "toggle auto_expand_albums_follow"])] (by decide)).1

end Values

end GracefulMusic.Options
