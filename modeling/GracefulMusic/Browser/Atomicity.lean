import GracefulMusic.Browser.Loading
import GracefulMusic.Library.TreeOrder

/-! What a load leaves behind.

A load that fails before the old list is freed changes nothing. The loads that fail after
that, and directories that browser_up has passed when the load above them fails, are kept
apart from it. -/
namespace GracefulMusic.Browser

/-! ### Order -/

/-- Parent directory, directories, files, lines of a playlist. -/
def rank (e : Entry) : Nat :=
  match e.type with
  | .dir => if strcmp e.name (ascii "../") = 0 then 0 else 1
  | .file => 2
  | .plline => 3

/-- By name, but for the lines of a playlist, which are in the order of the file. -/
def Before (a b : Entry) : Prop :=
  rank a < rank b ∨ rank a = rank b ∧ (a.type = .plline ∨ strcmp a.name b.name ≤ 0)

theorem rank_plline {a : Entry} : rank a = 3 ↔ a.type = .plline := by
  rw [rank]
  cases a.type with
  | dir =>
    dsimp only
    split <;> simp
  | file => simp
  | plline => simp

theorem Before.trans {a b c : Entry} (hab : Before a b) (hbc : Before b c) : Before a c := by
  rcases hab with hab | ⟨hab, hnames⟩
  · rcases hbc with hbc | ⟨hbc, -⟩
    · exact .inl (Nat.lt_trans hab hbc)
    · exact .inl (hbc ▸ hab)
  · rcases hbc with hbc | ⟨hbc, hnames'⟩
    · exact .inl (hab ▸ hbc)
    · refine .inr ⟨hab.trans hbc, ?_⟩
      rcases hnames with hline | hle
      · exact .inl hline
      · rcases hnames' with hline | hle'
        · exact .inl (rank_plline.mp (hab.trans (rank_plline.mpr hline)))
        · exact .inr (strcmp_trans a.noNul b.noNul c.noNul hle hle')

theorem rank_dir {e : Entry} (h : e.type = .dir) :
    rank e = if strcmp e.name (ascii "../") = 0 then 0 else 1 := by rw [rank, h]

theorem rank_file {e : Entry} (h : e.type = .file) : rank e = 2 := by rw [rank, h]

/-- What `entry_cmp` says of two entries of a directory. -/
theorem entryCmp_before {a b : Entry} (ha : a.type ≠ .plline) (hb : b.type ≠ .plline) :
    (entryCmp a b < 0 → Before a b) ∧ (0 ≤ entryCmp a b → Before b a) := by
  have hswap := strcmp_swap a.name b.name
  rw [entryCmp]
  cases hatype : a.type with
  | plline => exact absurd hatype ha
  | file =>
    cases hbtype : b.type with
    | plline => exact absurd hbtype hb
    | dir =>
      have hrank : rank b < rank a := by
        rw [rank_file hatype, rank_dir hbtype]
        split <;> omega
      rw [if_neg (by decide), if_pos rfl]
      exact ⟨fun h => absurd h (by decide), fun _ => .inl hrank⟩
    | file =>
      have hrank : rank a = rank b := by rw [rank_file hatype, rank_file hbtype]
      constructor
      · intro h
        exact .inr ⟨hrank, .inr (le_of_lt h)⟩
      · intro h
        have h : 0 ≤ strcmp a.name b.name := h
        exact .inr ⟨hrank.symm, .inr (by omega)⟩
  | dir =>
    cases hbtype : b.type with
    | plline => exact absurd hbtype hb
    | file =>
      have hrank : rank a < rank b := by
        rw [rank_file hbtype, rank_dir hatype]
        split <;> omega
      rw [if_pos rfl, if_pos rfl]
      exact ⟨fun _ => .inl hrank, fun h => absurd h (by decide)⟩
    | dir =>
      have hra := rank_dir hatype
      have hrb := rank_dir hbtype
      rw [if_pos rfl, if_neg (by decide)]
      by_cases hadots : strcmp a.name (ascii "../") = 0
      · rw [if_pos hadots] at hra ⊢
        refine ⟨fun _ => ?_, fun h => absurd h (by decide)⟩
        by_cases hbdots : strcmp b.name (ascii "../") = 0
        · rw [if_pos hbdots] at hrb
          have haname := (strcmp_eq_zero a.noNul (by decide)).mp hadots
          have hbname := (strcmp_eq_zero b.noNul (by decide)).mp hbdots
          refine .inr ⟨hra.trans hrb.symm, .inr ?_⟩
          rw [haname, hbname]
          decide
        · rw [if_neg hbdots] at hrb
          exact .inl (by omega)
      · rw [if_neg hadots] at hra ⊢
        by_cases hbdots : strcmp b.name (ascii "../") = 0
        · rw [if_pos hbdots] at hrb ⊢
          exact ⟨fun h => absurd h (by decide), fun _ => .inl (by omega)⟩
        · rw [if_neg hbdots] at hrb ⊢
          constructor
          · intro h
            exact .inr ⟨hra.trans hrb.symm, .inr (le_of_lt h)⟩
          · intro h
            exact .inr ⟨hrb.trans hra.symm, .inr (by omega)⟩

/-- A directory that is being read. -/
structure Sorted (entries : List Entry) : Prop where
  ordered : entries.Pairwise Before
  read : ∀ e ∈ entries, e.type ≠ .plline

/-- What is in front of the last row that is not passed is before it. -/
theorem before_of_last {entries : List Entry} (h : entries.Pairwise Before) {e : Entry}
    (hlast : ∀ hne : entries ≠ [], Before (entries.getLast hne) e) :
    ∀ other ∈ entries, Before other e := by
  induction entries using List.reverseRecOn with
  | nil => exact fun other hother => absurd hother List.not_mem_nil
  | append_singleton front last ih =>
    have hlast := hlast (by simp)
    rw [List.getLast_append_singleton] at hlast
    obtain ⟨-, -, hacross⟩ := List.pairwise_append.mp h
    intro other hother
    rcases List.mem_append.mp hother with hfront | hother
    · exact (hacross other hfront last List.mem_cons_self).trans hlast
    · rw [List.mem_singleton.mp hother]
      exact hlast

theorem Sorted.insert {entries : List Entry} (h : Sorted entries) {e : Entry}
    (he : e.type ≠ .plline) : Sorted (insertEntry entries e) := by
  have hsplit := List.rdropWhile_append_rtakeWhile
    (p := fun other => decide (entryCmp e other < 0)) (l := entries)
  have hread := h.read
  have hordered := h.ordered
  rw [← hsplit] at hread hordered
  obtain ⟨hfront, hback, hacross⟩ := List.pairwise_append.mp hordered
  have hafter : ∀ other ∈ entries.rtakeWhile fun other => decide (entryCmp e other < 0),
      Before e other := by
    intro other hother
    have hlt : entryCmp e other < 0 :=
      of_decide_eq_true
        (List.mem_rtakeWhile_imp (p := fun other => decide (entryCmp e other < 0)) hother)
    exact (entryCmp_before he (hread _ (List.mem_append_right _ hother))).1 hlt
  have hbefore : ∀ other ∈ entries.rdropWhile fun other => decide (entryCmp e other < 0),
      Before other e := by
    apply before_of_last hfront
    intro hne
    have hlast := List.rdropWhile_last_not (fun other => decide (entryCmp e other < 0)) entries hne
    have hmem := hread _ (List.mem_append_left _ (List.getLast_mem hne))
    apply (entryCmp_before he hmem).2
    simpa using hlast
  constructor
  · apply List.pairwise_append.mpr
    refine ⟨hfront, List.pairwise_cons.mpr ⟨hafter, hback⟩, ?_⟩
    intro a ha b hb
    rcases List.mem_cons.mp hb with hb | hb
    · rw [hb]
      exact hbefore a ha
    · exact hacross a ha b hb
  · intro other hother
    rcases List.mem_append.mp hother with hother | hother
    · exact hread other (List.mem_append_left _ hother)
    · rcases List.mem_cons.mp hother with hother | hother
      · rwa [hother]
      · exact hread other (List.mem_append_right _ hother)

theorem dirEntry_type {o : Options} {dirname : Text} {name : FileName} {kind : FileKind}
    {e : Entry} (h : dirEntry o dirname name kind = some e) : e.type ≠ .plline := by
  rw [dirEntry] at h
  split_ifs at h
  all_goals
    rw [← Option.some.inj h]
    exact EntryType.noConfusion

theorem dirEntries_sorted (o : Options) (dirname : Text)
    (names : List (FileName × Option FileKind)) : (dirEntries o dirname names).Pairwise Before := by
  have hread : ∀ e ∈ (dirRead dirname names).filterMap fun entry =>
      dirEntry o dirname entry.1 entry.2, e.type ≠ .plline := by
    intro e he
    obtain ⟨entry, -, hentry⟩ := List.mem_filterMap.mp he
    exact dirEntry_type hentry
  have hsorted : ∀ (read entries : List Entry), Sorted entries → (∀ e ∈ read, e.type ≠ .plline) →
      Sorted (read.foldl insertEntry entries) := by
    intro read
    induction read with
    | nil => exact fun entries h _ => h
    | cons e read ih =>
      intro entries h hread
      obtain ⟨he, hread⟩ := List.forall_mem_cons.mp hread
      exact ih _ (h.insert he) hread
  have hnil : Sorted [] := ⟨List.Pairwise.nil, fun e he => absurd he List.not_mem_nil⟩
  exact (hsorted _ [] hnil hread).ordered

theorem plEntries_sorted (buf : Text) : (plEntries buf).Pairwise Before := by
  rw [plEntries]
  split
  · exact List.Pairwise.nil
  · apply List.pairwise_cons.mpr
    constructor
    · intro e he
      obtain ⟨line, -, hline⟩ := List.mem_map.mp he
      rw [← hline]
      left
      show rank parentDir < 3
      decide
    · apply List.pairwise_map.mpr
      exact List.pairwise_of_forall fun _ _ => .inr ⟨rfl, .inl rfl⟩

variable {fs : FileSystem} {o : Options}

theorem listing_sorted {name : Text} {entries : List Entry}
    (h : listing fs o name = .ok entries) : entries.Pairwise Before := by
  unfold listing at h
  split at h
  · cases h
  · split at h
    · cases hmap : fs.mmapFile name with
      | error e => rw [hmap] at h; cases h
      | ok buf =>
        rw [hmap] at h
        cases h
        exact plEntries_sorted buf
    · split at h
      · cases hopen : dirOpen fs name with
        | error e => rw [hopen] at h; cases h
        | ok names =>
          rw [hopen] at h
          cases h
          exact dirEntries_sorted o name names
      · cases h

/-! ### Windows -/

theorem gotoTop_frame {w w' : Window Entry} (h : w.gotoTop = some w') :
    w'.rows = w.rows ∧ w'.selectable = w.selectable ∧ w'.nrRows = w.nrRows := by
  obtain ⟨sel, -, hw⟩ := Option.bind_eq_some_iff.mp h
  rw [← Option.some.inj hw]
  exact ⟨rfl, rfl, rfl⟩

theorem setSel_frame {w w' : Window Entry} {scrollOffset i : Nat}
    (h : w.setSel scrollOffset i = some w') :
    w'.rows = w.rows ∧ w'.selectable = w.selectable ∧ w'.nrRows = w.nrRows := by
  rw [Window.setSel] at h
  by_cases hempty : w.top = w.head ∨ i = w.head
  · rw [if_pos hempty] at h
    cases h
  · rw [if_neg hempty] at h
    by_cases hsame : w.sel = i
    · rw [if_pos hsame] at h
      rw [← Option.some.inj h]
      exact ⟨rfl, rfl, rfl⟩
    · rw [if_neg hsame] at h
      simp only [Option.bind_eq_bind, Option.bind_eq_some_iff] at h
      obtain ⟨topNr, -, selNr, -, h⟩ := h
      split_ifs at h
      all_goals
        rw [← Option.some.inj h]
        exact ⟨rfl, rfl, rfl⟩

/-- Top and selection are entries of the list, or its head where there are none. -/
structure Placed (w : Window Entry) : Prop where
  nrRows : 0 < w.nrRows
  selectable : w.selectable = fun _ => true
  places : if w.rows = [] then w.top = w.head ∧ w.sel = w.head
    else w.top < w.head ∧ w.sel < w.head

theorem Placed.of_good {w : Window Entry} (h : w.Good) (hsel : w.selectable = fun _ => true) :
    Placed w := by
  refine ⟨h.nrRows, hsel, ?_⟩
  have hshows := h.shows
  rw [Window.Shows] at hshows
  split at hshows
  · rwa [if_pos ‹_›]
  · rw [if_neg ‹_›]
    exact ⟨hshows.1, hshows.2.1⟩

/-- A window of a new list, wherever it pointed before. -/
theorem setContents_spec {w : Window Entry} (hnr : 0 < w.nrRows)
    (hsel : w.selectable = fun _ => true) (rows : List Entry) :
    ∃ w', w.setContents rows = some w' ∧ w'.Good ∧ w'.rows = rows ∧
      w'.selectable = fun _ => true := by
  have hsafe : ({w with rows} : Window Entry).Idle ∨
      0 < ({w with rows} : Window Entry).nrSelectable 0 w.nrRows := by
    cases rows with
    | nil =>
      left
      exact ⟨rfl, congrFun hsel none⟩
    | cons e rows =>
      right
      apply Window.nrSelectable_pos.mpr
      exact ⟨0, Nat.le_refl 0, hnr, Nat.succ_pos _, congrFun hsel _⟩
  obtain ⟨w', hw', hgood⟩ := Window.gotoTop_good (w := {w with rows}) hnr hsafe
  obtain ⟨hrows, hselectable, -⟩ := gotoTop_frame hw'
  exact ⟨w', hw', hgood, hrows, hselectable.trans hsel⟩

/-! ### Loads -/

/-- The window shows the entries, which are in order, and the directory is a path. -/
structure Intact (s : Browser) : Prop where
  attached : s.dangling = false
  placed : Placed s.window
  ordered : s.window.rows.Pairwise Before
  absolute : s.browserDir.head? = some slash

/-- A directory that can be opened can be changed into. -/
def Searchable (fs : FileSystem) (o : Options) (name : Text) : Prop :=
  ∀ entries, listing fs o name = .ok entries → fs.stat name = .ok .dir → fs.chdir name = none

theorem browserLoad_error {name : Text} {e : Errno} (s : Browser)
    (h : listing fs o name = .error e) : browserLoad fs o s name = some (s, some e) := by
  rw [browserLoad, doBrowserLoad, h]

/-- The window after a load is at the top of the new list. -/
structure Loaded (name : Text) (entries : List Entry) (t : Browser) : Prop where
  good : t.window.Good
  selectable : t.window.selectable = fun _ => true
  rows : t.window.rows = entries
  attached : t.dangling = false
  browserDir : t.browserDir = name

theorem browserLoad_ok {s : Browser} (h : Placed s.window) {name : Text}
    (hsearch : Searchable fs o name) {entries : List Entry}
    (hlisting : listing fs o name = .ok entries) :
    ∃ t, browserLoad fs o s name = some (t, none) ∧ Loaded name entries t := by
  have hchdir : (if fs.stat name = .ok .dir then fs.chdir name else none) = none := by
    split
    · exact hsearch entries hlisting ‹_›
    · rfl
  obtain ⟨w, hw, hgood, hrows, hsel⟩ := setContents_spec (w := (replaceList s entries).window)
    h.nrRows h.selectable entries
  refine ⟨⟨w, false, name⟩, ?_, hgood, hsel, hrows, rfl, rfl⟩
  rw [browserLoad, doBrowserLoad, hlisting, hchdir]
  show ((replaceList s entries).window.setContents entries).map _ = _
  rw [hw]
  rfl

theorem Loaded.intact {name : Text} {entries : List Entry} {t : Browser}
    (h : Loaded name entries t) (hlisting : listing fs o name = .ok entries)
    (habsolute : name.head? = some slash) : Intact t where
  attached := h.attached
  placed := Placed.of_good h.good h.selectable
  ordered := by
    rw [h.rows]
    exact listing_sorted hlisting
  absolute := by rw [h.browserDir]; exact habsolute

/-- A load that reports a failure leaves everything as it was. -/
theorem browserLoad_spec {s : Browser} (h : Intact s) {name : Text}
    (habsolute : name.head? = some slash) (hsearch : Searchable fs o name) :
    ∃ t error, browserLoad fs o s name = some (t, error) ∧ Intact t ∧ (error ≠ none → t = s) := by
  cases hlisting : listing fs o name with
  | error e => exact ⟨s, some e, browserLoad_error s hlisting, h, fun _ => rfl⟩
  | ok entries =>
    obtain ⟨t, hload, ht⟩ := browserLoad_ok h.placed hsearch hlisting
    exact ⟨t, none, hload, ht.intact hlisting habsolute, fun hne => absurd rfl hne⟩

/-- Whichever row is selected after a load. -/
theorem Loaded.selectRow {name : Text} {entries : List Entry} {t : Browser}
    (h : Loaded name entries t) (hlisting : listing fs o name = .ok entries)
    (habsolute : name.head? = some slash) (p : Entry → Bool) :
    ∃ u, selectRow o t p = some u ∧ Intact u := by
  have hintact := h.intact hlisting habsolute
  rw [Browser.selectRow]
  split
  · exact ⟨t, rfl, hintact⟩
  · rename_i i hi
    have hrow : i < t.window.head := (List.findIdx?_eq_some_iff_findIdx_eq.mp hi).1
    obtain ⟨w, hw, hgood⟩ := h.good.setSel o.scrollOffset hrow
    obtain ⟨hrows, hsel, -⟩ := setSel_frame hw
    rw [hw]
    refine ⟨_, rfl, ?_⟩
    constructor
    · exact h.attached
    · exact Placed.of_good hgood (hsel.trans h.selectable)
    · show w.rows.Pairwise Before
      rw [hrows]
      exact hintact.ordered
    · exact hintact.absolute

/-! ### Going up -/

theorem head_dropLast {path : Text} {c : UInt8} (h : path.head? = some c) (hlong : 2 ≤ path.length) :
    path.dropLast.head? = some c := by
  cases path with
  | nil => cases h
  | cons d path =>
    cases path with
    | nil => exact absurd hlong (by simp)
    | cons d' path => exact h

theorem above_spec {dir : Text} (habsolute : dir.head? = some slash) (hne : dir ≠ [slash]) :
    ∃ new pos, above dir = some (new, pos) ∧ new.head? = some slash ∧ new.length < dir.length := by
  obtain ⟨rest, rfl⟩ : ∃ rest, dir = slash :: rest := by
    cases dir with
    | nil => cases habsolute
    | cons c rest =>
      obtain rfl := Option.some.inj habsolute
      exact ⟨rest, rfl⟩
  cases hsplit : splitSlash (slash :: rest) with
  | none =>
    rw [splitSlash] at hsplit
    split at hsplit
    · cases hsplit
    · rw [if_pos rfl] at hsplit
      cases hsplit
  | some pair =>
    obtain ⟨front, behind⟩ := pair
    have heq := splitSlash_eq hsplit
    have hlength := splitSlash_length hsplit
    refine ⟨if front = [] then [slash] else front, behind, by rw [above, hsplit]; rfl, ?_⟩
    split
    · refine ⟨rfl, ?_⟩
      have hrest : rest ≠ [] := fun h => hne (by rw [h])
      have hpos := List.length_pos_iff.mpr hrest
      show 0 + 1 < rest.length + 1
      omega
    · rename_i hfront
      refine ⟨?_, hlength⟩
      have hhead : (front ++ slash :: behind).head? = front.head? :=
        List.head?_append_of_ne_nil front hfront
      rw [← hhead, ← heq]
      rfl

/-- Going up from a directory ends in one that is there. -/
inductive Reaches (fs : FileSystem) (o : Options) : Text → Prop where
  | found {dir new pos : Text} {entries : List Entry} : dir ≠ [slash] →
    above dir = some (new, pos) → listing fs o new = .ok entries → Searchable fs o new →
    Reaches fs o dir
  | vanished {dir new pos : Text} : dir ≠ [slash] → above dir = some (new, pos) →
    listing fs o new = .error .enoent → Reaches fs o new → Reaches fs o dir

/-- The directory above can be changed into, or, where it has vanished, one above it. -/
def UpSound (fs : FileSystem) (o : Options) (dir : Text) : Prop :=
  ∀ new pos, dir ≠ [slash] → above dir = some (new, pos) →
    Searchable fs o new ∧ (listing fs o new = .error .enoent → Reaches fs o new)

theorem browserUpLoop_found {s : Browser} (h : Intact s) {new pos : Text} {entries : List Entry}
    (hne : s.browserDir ≠ [slash]) (habove : above s.browserDir = some (new, pos))
    (hlisting : listing fs o new = .ok entries) (hsearch : Searchable fs o new) (fuel : Nat)
    (error : Option Errno) :
    ∃ t, browserUpLoop fs o (fuel + 1) s error = some (t, none) ∧ Intact t := by
  obtain ⟨new', pos', habove', habsolute, -⟩ := above_spec h.absolute hne
  obtain ⟨rfl, rfl⟩ := Prod.mk.inj (Option.some.inj (habove.symm.trans habove'))
  obtain ⟨t, hload, ht⟩ := browserLoad_ok h.placed hsearch hlisting
  obtain ⟨u, hselect, hu⟩ := ht.selectRow hlisting habsolute (isOldPosition pos)
  refine ⟨u, ?_, hu⟩
  rw [browserUpLoop, if_neg hne, habove]
  dsimp only
  rw [hload]
  dsimp only
  rw [hselect]
  rfl

theorem browserUpLoop_reaches {dir : Text} (hreach : Reaches fs o dir) {s : Browser} {fuel : Nat}
    (h : Intact s) (hdir : s.browserDir = dir) (hfuel : dir.length < fuel) (error : Option Errno) :
    ∃ t, browserUpLoop fs o fuel s error = some (t, none) ∧ Intact t := by
  induction hreach generalizing s fuel error with
  | found hne habove hlisting hsearch =>
    obtain ⟨fuel, rfl⟩ : ∃ k, fuel = k + 1 := ⟨fuel - 1, by omega⟩
    rw [← hdir] at hne habove
    exact browserUpLoop_found h hne habove hlisting hsearch fuel error
  | vanished hne habove hlisting hreach ih =>
    obtain ⟨fuel, rfl⟩ : ∃ k, fuel = k + 1 := ⟨fuel - 1, by omega⟩
    rw [← hdir] at hne habove hfuel
    obtain ⟨new', pos', habove', habsolute, hlength⟩ := above_spec h.absolute hne
    obtain ⟨rfl, rfl⟩ := Prod.mk.inj (Option.some.inj (habove.symm.trans habove'))
    rw [browserUpLoop, if_neg hne, habove]
    dsimp only
    rw [browserLoad_error s hlisting]
    dsimp only
    rw [if_pos rfl]
    apply ih _ rfl (by omega)
    exact ⟨h.attached, h.placed, h.ordered, habsolute⟩

theorem browserUp_spec {s : Browser} (h : Intact s) (hsound : UpSound fs o s.browserDir) :
    ∃ t error, browserUp fs o s = some (t, error) ∧ Intact t ∧ (error ≠ none → t = s) := by
  rw [browserUp]
  by_cases hroot : s.browserDir = [slash]
  · refine ⟨s, none, ?_, h, fun _ => rfl⟩
    rw [browserUpLoop, if_pos hroot]
  · obtain ⟨new, pos, habove, habsolute, hlength⟩ := above_spec h.absolute hroot
    obtain ⟨hsearch, hreach⟩ := hsound new pos hroot habove
    cases hlisting : listing fs o new with
    | ok entries =>
      obtain ⟨t, hup, ht⟩ := browserUpLoop_found h hroot habove hlisting hsearch _ none
      exact ⟨t, none, hup, ht, fun hne => absurd rfl hne⟩
    | error e =>
      rw [browserUpLoop, if_neg hroot, habove]
      dsimp only
      rw [browserLoad_error s hlisting]
      dsimp only
      by_cases hvanished : e = .enoent
      · rw [hvanished] at hlisting
        rw [if_pos hvanished]
        have hpassed : Intact {s with browserDir := new} :=
          ⟨h.attached, h.placed, h.ordered, habsolute⟩
        obtain ⟨t, hup, ht⟩ :=
          browserUpLoop_reaches (hreach hlisting) hpassed rfl hlength (some e)
        exact ⟨t, none, hup, ht, fun hne => absurd rfl hne⟩
      · rw [if_neg hvanished]
        exact ⟨s, some e, rfl, h, fun _ => rfl⟩

/-! ### Operations -/

theorem fullname_head {path : Text} (h : path.head? = some slash) (name : Text) :
    (fullname path name).head? = some slash := by
  cases path with
  | nil => cases h
  | cons c path =>
    obtain rfl := Option.some.inj h
    rw [fullname]
    cases path with
    | nil => rfl
    | cons d path => split <;> rfl

theorem stripSlash_head {path : Text} (h : path.head? = some slash) (hlong : 2 ≤ path.length) :
    (stripSlash path).head? = some slash := by
  rw [stripSlash]
  split
  · exact head_dropLast h hlong
  · exact h

/-- What is loaded for an entry can be changed into, if it is a directory. -/
def EnterSound (fs : FileSystem) (o : Options) (dir : Text) (e : Entry) : Prop :=
  match e.type with
  | .dir =>
    if e.name = ascii "../" then UpSound fs o dir
    else Searchable fs o (stripSlash (fullname dir e.name))
  | .file => cmusIsPlaylist (fullname dir e.name) = true → Searchable fs o (fullname dir e.name)
  | .plline => True

theorem enterEntry_spec {s : Browser} (h : Intact s) {e : Entry}
    (hsound : e.name ≠ [] → EnterSound fs o s.browserDir e) :
    ∃ t error, enterEntry fs o s e = some (t, error) ∧ Intact t ∧ (error ≠ none → t = s) := by
  rw [enterEntry]
  by_cases hempty : e.name = []
  · rw [if_pos hempty]
    exact ⟨s, none, rfl, h, fun _ => rfl⟩
  · have hsound := hsound hempty
    have hfull := fullname_head h.absolute e.name
    rw [if_neg hempty]
    cases htype : e.type with
    | plline => exact ⟨s, none, rfl, h, fun _ => rfl⟩
    | file =>
      rw [EnterSound, htype] at hsound
      dsimp only
      split
      · exact browserLoad_spec h hfull (hsound ‹_›)
      · exact ⟨s, none, rfl, h, fun _ => rfl⟩
    | dir =>
      rw [EnterSound, htype] at hsound
      dsimp only at hsound ⊢
      rw [browserCd]
      split
      · rw [if_pos ‹_›] at hsound
        exact browserUp_spec h hsound
      · rw [if_neg ‹_›] at hsound
        apply browserLoad_spec h _ hsound
        apply stripSlash_head hfull
        have hpos := List.length_pos_iff.mpr hempty
        rw [fullname, List.length_append, List.length_cons]
        omega

theorem browserReload_spec {s : Browser} (h : Intact s)
    (hsearch : Searchable fs o s.browserDir) :
    ∃ t error, browserReload fs o s = some (t, error) ∧ Intact t ∧ (error ≠ none → t = s) := by
  rw [browserReload, selected, h.attached, if_neg (by decide), Option.bind_some]
  cases hlisting : listing fs o s.browserDir with
  | error e =>
    rw [browserLoad_error s hlisting]
    exact ⟨s, some e, rfl, h, fun _ => rfl⟩
  | ok entries =>
    obtain ⟨t, hload, ht⟩ := browserLoad_ok h.placed hsearch hlisting
    rw [hload]
    dsimp only
    cases s.window.rows[s.window.sel]? with
    | none => exact ⟨t, none, rfl, ht.intact hlisting h.absolute, fun hne => absurd rfl hne⟩
    | some e =>
      obtain ⟨u, hselect, hu⟩ :=
        ht.selectRow hlisting h.absolute fun row => decide (strcmp row.name e.name = 0)
      dsimp only
      rw [hselect]
      exact ⟨u, none, rfl, hu, fun hne => absurd rfl hne⟩

/-- The selected row leaves the window and the list. -/
theorem Placed.removeSelected {w : Window Entry} (h : Placed w) (hrow : w.sel < w.head) :
    ∃ w', w.rowVanishes w.sel = some w' ∧ Placed (w'.remove w.sel) ∧ w'.rows = w.rows := by
  have hplaces := h.places
  rw [if_neg (Window.head_pos_iff.mp (Nat.zero_lt_of_lt hrow))] at hplaces
  have hany (i : Nat) : w.selectableAt i = true := by
    rw [Window.selectableAt, h.selectable]
  have hother : w.head = 1 ∨
      0 < w.nrSelectable 0 w.sel + w.nrSelectable (w.sel + 1) w.head := by
    by_cases hone : w.head = 1
    · exact .inl hone
    · right
      by_cases hfirst : w.sel = 0
      · have hbelow : 0 < w.nrSelectable (w.sel + 1) w.head :=
          Window.nrSelectable_pos.mpr ⟨1, by omega, by omega, by omega, hany 1⟩
        omega
      · have habove : 0 < w.nrSelectable 0 w.sel :=
          Window.nrSelectable_pos.mpr ⟨0, by omega, by omega, by omega, hany 0⟩
        omega
  obtain ⟨top, sel, hvanishes, hnew⟩ :=
    Window.rowVanishes_spec hplaces.1 hplaces.2 hrow fun _ => hother
  have hhead : (({w with top, sel} : Window Entry).remove w.sel).head + 1 = w.head :=
    Window.remove_head (w := {w with top, sel}) hrow
  refine ⟨_, hvanishes, ⟨h.nrRows, h.selectable, ?_⟩, rfl⟩
  have htop : (({w with top, sel} : Window Entry).remove w.sel).top =
      if w.sel < top then top - 1 else top := rfl
  have hsel : (({w with top, sel} : Window Entry).remove w.sel).sel =
      if w.sel < sel then sel - 1 else sel := rfl
  generalize ({w with top, sel} : Window Entry).remove w.sel = removed at hhead htop hsel ⊢
  rw [htop, hsel]
  by_cases hempty : removed.head = 0
  · rw [if_pos (Window.head_eq_zero_iff.mp hempty)]
    rw [if_pos (by omega)] at hnew
    rw [hnew.1, hnew.2, if_pos (by omega)]
    omega
  · rw [if_neg (fun h => hempty (Window.head_eq_zero_iff.mpr h))]
    rw [if_neg (by omega)] at hnew
    constructor <;> split <;> omega

/-- The file of the selected row is gone, and so is the row. -/
theorem deleteEntry_spec {s : Browser} (h : Intact s) {e : Entry}
    (hsel : s.window.rows[s.window.sel]? = some e) :
    ∃ t, deleteEntry fs s e = some t ∧ Intact t := by
  obtain ⟨hrow, -⟩ := List.getElem?_eq_some_iff.mp hsel
  obtain ⟨w, hvanishes, hplaced, hrows⟩ := h.placed.removeSelected hrow
  rw [deleteEntry]
  split
  · rw [hvanishes]
    refine ⟨_, rfl, h.attached, hplaced, ?_, h.absolute⟩
    show (w.rows.eraseIdx s.window.sel).Pairwise Before
    rw [hrows]
    exact h.ordered.sublist (List.eraseIdx_sublist ..)
  · exact ⟨s, rfl, h⟩

/-- No load of the operation opens a directory that cannot be changed into, and none fails
after others have led out of directories that vanished. Where the window is moved, it shows
rows. -/
def Sound (s : Browser) (i : Input) : Prop :=
  match i.op with
  | .enter => ∀ e, s.window.rows[s.window.sel]? = some e → e.name ≠ [] →
      EnterSound i.fs i.options s.browserDir e
  | .up => UpSound i.fs i.options s.browserDir
  | .chdir dir => Searchable i.fs i.options dir.val
  | .reload => Searchable i.fs i.options s.browserDir
  | .delete _ => True
  | .moved nrRows top sel => Placed {s.window with nrRows, top, sel}

/-- An operation whose last load fails changes nothing. -/
def FailsClean (s : Browser) (i : Input) : Prop :=
  ∀ t e, operate s i = some (t, some e) → t = s

theorem operate_spec {s : Browser} (h : Intact s) {i : Input} (hsound : Sound s i) :
    ∃ t error, operate s i = some (t, error) ∧ Intact t ∧ (error ≠ none → t = s) := by
  have hselected : selected s = some s.window.rows[s.window.sel]? := by
    rw [selected, h.attached, if_neg (by decide)]
  rw [operate]
  rw [Sound] at hsound
  cases hop : i.op with
  | enter =>
    rw [hop] at hsound
    dsimp only
    rw [hselected, Option.bind_some]
    cases hrow : s.window.rows[s.window.sel]? with
    | none => exact ⟨s, none, rfl, h, fun _ => rfl⟩
    | some e => exact enterEntry_spec h (hsound e hrow)
  | up =>
    rw [hop] at hsound
    exact browserUp_spec h hsound
  | chdir dir =>
    rw [hop] at hsound
    exact browserLoad_spec h dir.2 hsound
  | reload =>
    rw [hop] at hsound
    exact browserReload_spec h hsound
  | delete answer =>
    dsimp only
    rw [hselected, Option.bind_some]
    cases hrow : s.window.rows[s.window.sel]? with
    | none => exact ⟨s, none, rfl, h, fun _ => rfl⟩
    | some e =>
      cases answer with
      | false => exact ⟨s, none, rfl, h, fun _ => rfl⟩
      | true =>
        obtain ⟨t, hdelete, ht⟩ : ∃ t, deleteEntry i.fs s e = some t ∧ Intact t :=
          deleteEntry_spec h hrow
        dsimp only
        rw [if_pos rfl, hdelete]
        exact ⟨t, none, rfl, ht, fun hne => absurd rfl hne⟩
  | moved nrRows top sel =>
    rw [hop] at hsound
    exact ⟨_, none, rfl, ⟨h.attached, hsound, h.ordered, h.absolute⟩, fun hne => absurd rfl hne⟩

theorem step_intact (s : Browser) (i : Input) (h : Intact s) (hsound : Sound s i) :
    ∃ t, step s i = some t ∧ Intact t := by
  obtain ⟨t, error, ht, hintact, -⟩ := operate_spec h hsound
  exact ⟨t, by rw [step, ht]; rfl, hintact⟩

theorem failsClean (s : Browser) (i : Input) (h : Intact s) (hsound : Sound s i) :
    FailsClean s i := by
  obtain ⟨t, error, ht, -, hclean⟩ := operate_spec h hsound
  intro u e hu
  obtain ⟨rfl, rfl⟩ := Prod.mk.inj (Option.some.inj (ht.symm.trans hu))
  exact hclean (Option.some_ne_none e)

/-! ### Runs -/

theorem doBrowserLoad_rows (fs : FileSystem) (o : Options) {s : Browser}
    (h : s.window.rows.Pairwise Before) (name : Text) :
    (doBrowserLoad fs o s name).1.window.rows.Pairwise Before ∧
      (doBrowserLoad fs o s name).1.window.nrRows = s.window.nrRows ∧
      (doBrowserLoad fs o s name).1.window.selectable = s.window.selectable := by
  rw [doBrowserLoad]
  split
  · exact ⟨h, rfl, rfl⟩
  · rename_i entries hlisting
    exact ⟨listing_sorted hlisting, rfl, rfl⟩

/-- The browser starts intact, whatever the loads come to. -/
theorem browserInit_intact {s : Browser} (hnr : 0 < s.window.nrRows)
    (hsel : s.window.selectable = fun _ => true) (hrows : s.window.rows = []) {cwd : Option Text}
    (hcwd : ∀ dir, cwd = some dir → dir.head? = some slash) :
    ∃ t, browserInit fs o cwd s = some t ∧ Intact t := by
  have hdir : (cwd.getD [slash]).head? = some slash := by
    cases cwd with
    | none => rfl
    | some dir => exact hcwd dir rfl
  have hnil : s.window.rows.Pairwise Before := by
    rw [hrows]
    exact List.Pairwise.nil
  simp only [browserInit]
  generalize cwd.getD [slash] = dir at hdir
  obtain ⟨hordered, hnr', hsel'⟩ := doBrowserLoad_rows fs o hnil dir
  generalize doBrowserLoad fs o s dir = load at hordered hnr' hsel'
  by_cases hfailed : load.2 = none
  · simp only [if_pos hfailed]
    obtain ⟨w, hw, hgood, hwrows, hwsel⟩ :=
      setContents_spec (by omega) (hsel'.trans hsel) load.1.window.rows
    rw [hw]
    refine ⟨_, rfl, rfl, Placed.of_good hgood hwsel, ?_, hdir⟩
    show w.rows.Pairwise Before
    rw [hwrows]
    exact hordered
  · obtain ⟨hordered', hnr'', hsel''⟩ := doBrowserLoad_rows fs o hordered [slash]
    simp only [if_neg hfailed]
    obtain ⟨w, hw, hgood, hwrows, hwsel⟩ := setContents_spec (by omega)
      ((hsel''.trans hsel').trans hsel) (doBrowserLoad fs o load.1 [slash]).1.window.rows
    rw [hw]
    refine ⟨_, rfl, rfl, Placed.of_good hgood hwsel, ?_, rfl⟩
    show w.rows.Pairwise Before
    rw [hwrows]
    exact hordered'

/-- As long as no load fails after the old list was freed, or after vanished directories,
the window shows the entries in order, and what fails changes nothing. -/
theorem browser_atomic (s : Browser) (history : List Input) (h : Intact s)
    (hsound : Runs.Along step Sound s history) :
    Runs.Always step Intact s history ∧ Runs.Along step FailsClean s history := by
  constructor
  · exact Runs.always_of_along step_intact h hsound
  · apply Runs.Along.imp failsClean _ h hsound
    intro s i t hs hi ht
    obtain ⟨u, hu, hintact⟩ := step_intact s i hs hi
    obtain rfl := Option.some.inj (hu.symm.trans ht)
    exact hintact

/-! ### Directories that cannot be changed into, or that vanished -/

def sampleOptions : Options := ⟨false, 2, [ascii "mp3"]⟩

theorem name_noNul : 0 ∉ ascii "d/" := by decide

/-- The root directory with a directory in it. -/
def rootView : Browser where
  window := ⟨[⟨.dir, ascii "d/", name_noNul⟩], fun _ => true, 2, 0, 0⟩
  dangling := false
  browserDir := [slash]

theorem rootView_intact : Intact rootView where
  attached := rfl
  placed := ⟨Nat.succ_pos 1, rfl, ⟨Nat.one_pos, Nat.one_pos⟩⟩
  ordered := List.pairwise_singleton ..
  absolute := rfl

theorem file_noNul : 0 ∉ ascii "a.mp3" := by decide

/-- Every directory has one file and can be read; in one of them nothing can be looked up. -/
def lockedFs (locked : Text) : FileSystem where
  stat _ := .ok .dir
  mmapFile _ := .error .enotdir
  opendir name := .ok [(⟨ascii "a.mp3", file_noNul⟩, if name = locked then none else some .reg)]
  chdir name := if name = locked then some (.other 13) else none
  unlink _ := none

/-- The directory above has vanished, and the next one cannot be read. -/
def vanishedFs : FileSystem where
  stat name := if name = ascii "/h/x" then .error .enoent else .ok .dir
  mmapFile _ := .error .enotdir
  opendir _ := .error (.other 13)
  chdir _ := none
  unlink _ := none

def lockedEnter : Input := ⟨lockedFs (ascii "/d"), sampleOptions, .enter⟩

def passedView : Browser := {rootView with browserDir := ascii "/h/x/y"}

def vanishedUp : Input := ⟨vanishedFs, sampleOptions, .up⟩

/-- A directory that cannot be searched leaves the window with freed entries, and
`browser_up` leaves a name that does not belong to the list. -/
theorem browser_left_behind :
    ((operate rootView lockedEnter).map
          (fun r => (r.1.dangling, r.1.window.rows.length, r.1.browserDir, r.2)) =
        some (true, 0, [slash], some (.other 13)) ∧
      ¬ Runs.Always step Intact rootView [lockedEnter] ∧ ¬ FailsClean rootView lockedEnter) ∧
    (operate passedView vanishedUp).map (fun r => (r.1.dangling, r.1.browserDir, r.2)) =
        some (false, ascii "/h/x", some (.other 13)) ∧
      ¬ FailsClean passedView vanishedUp := by
  have hlocked : (operate rootView lockedEnter).map
        (fun r => (r.1.dangling, r.1.window.rows.length, r.1.browserDir, r.2)) =
      some (true, 0, [slash], some (.other 13)) := by
    decide +kernel
  have hvanished : (operate passedView vanishedUp).map
        (fun r => (r.1.dangling, r.1.browserDir, r.2)) =
      some (false, ascii "/h/x", some (.other 13)) := by
    decide +kernel
  obtain ⟨r, hr, hlockedRun⟩ := Option.map_eq_some_iff.mp hlocked
  obtain ⟨r', hr', hvanishedRun⟩ := Option.map_eq_some_iff.mp hvanished
  have hdangling : r.1.dangling = true := congrArg Prod.fst hlockedRun
  have herror : r.2 = some (.other 13) := congrArg (fun x => x.2.2.2) hlockedRun
  have hdir : r'.1.browserDir = ascii "/h/x" := congrArg (fun x => x.2.1) hvanishedRun
  have herror' : r'.2 = some (.other 13) := congrArg (fun x => x.2.2) hvanishedRun
  refine ⟨⟨hlocked, ?_, ?_⟩, hvanished, ?_⟩
  · intro halways
    obtain ⟨-, t, ht, hintact⟩ := halways
    rw [step, hr] at ht
    obtain rfl := Option.some.inj ht
    exact absurd (hdangling.symm.trans hintact.attached) (by decide)
  · intro hclean
    have hsame := hclean r.1 (.other 13) (by rw [hr, ← herror])
    rw [hsame] at hdangling
    exact absurd hdangling (by decide)
  · intro hclean
    have hsame := hclean r'.1 (.other 13) (by rw [hr', ← herror'])
    rw [hsame] at hdir
    exact absurd hdir (by decide)

/-- Into a directory, and up again. -/
theorem browser_atomic_example :
    Intact rootView ∧
      Runs.Always step Intact rootView [⟨lockedFs [], sampleOptions, .enter⟩,
        ⟨lockedFs [], sampleOptions, .up⟩] ∧
      Runs.Along step FailsClean rootView [⟨lockedFs [], sampleOptions, .enter⟩,
        ⟨lockedFs [], sampleOptions, .up⟩] := by
  have hsearch (name : Text) (hname : name ≠ []) :
      Searchable (lockedFs []) sampleOptions name := by
    intro entries _ _
    exact if_neg hname
  refine ⟨rootView_intact, browser_atomic rootView _ rootView_intact ⟨?_, ?_⟩⟩
  · intro e he hne
    obtain rfl := Option.some.inj he
    exact hsearch _ (by decide)
  · intro t ht
    have hdir : (step rootView ⟨lockedFs [], sampleOptions, .enter⟩).map (·.browserDir) =
        some (ascii "/d") := by
      decide +kernel
    rw [ht, Option.map_some, Option.some.injEq] at hdir
    refine ⟨?_, fun _ _ => trivial⟩
    intro new pos hne habove
    rw [hdir] at habove
    have hnew : above (ascii "/d") = some ([slash], ascii "d") := by decide
    obtain ⟨rfl, -⟩ := Prod.mk.inj (Option.some.inj (hnew.symm.trans habove))
    refine ⟨hsearch _ (by decide), fun hmissing => ?_⟩
    cases hmissing

end GracefulMusic.Browser
