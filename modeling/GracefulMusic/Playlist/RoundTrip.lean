import GracefulMusic.Playlist.Files

/-! What is saved as a playlist is read back.

Each name is a line of the file, and no name is taken for a comment or for the head of
another format. A name of a CD is taken for a path. -/
namespace GracefulMusic.Pl
open GracefulMusic.Expr (isHttpUrl)

/-! ### Lines -/

theorem isHttpUrl_iff {name : Text} : isHttpUrl name = true ↔ ascii "http://" <+: name :=
  List.isPrefixOf_iff_prefix

theorem isCueUrl_iff {name : Text} : isCueUrl name = true ↔ ascii "cue://" <+: name :=
  List.isPrefixOf_iff_prefix

theorem isCddaUrl_iff {name : Text} : isCddaUrl name = true ↔ ascii "cdda://" <+: name :=
  List.isPrefixOf_iff_prefix

/-- The first byte of a name. -/
theorem TrackName.head (n : TrackName) : ∃ c rest, n.text = c :: rest ∧
    (c = slash ∧ NormalPath n.text ∨ c = ch 'h' ∨ c = ch 'c') := by
  rcases n.held with ⟨hpath, -, -⟩ | hurl | hurl | hurl
  · have hnormal := hpath
    obtain ⟨components, -, hjoin⟩ := hpath
    exact ⟨slash, _, hjoin, .inl ⟨rfl, hnormal⟩⟩
  · obtain ⟨rest, hrest⟩ := isHttpUrl_iff.mp hurl
    exact ⟨ch 'h', _, hrest.symm, .inr (.inl rfl)⟩
  · obtain ⟨rest, hrest⟩ := isCueUrl_iff.mp hurl
    exact ⟨ch 'c', _, hrest.symm, .inr (.inr rfl)⟩
  · obtain ⟨rest, hrest⟩ := isCddaUrl_iff.mp hurl
    exact ⟨ch 'c', _, hrest.symm, .inr (.inr rfl)⟩

/-- A name that begins with a slash is a path. -/
theorem TrackName.path_of_head (n : TrackName) (hhead : n.text.head? = some slash) :
    NormalPath n.text ∧ ch '\n' ∉ n.text ∧ n.text.getLast? ≠ some (ch '\r') := by
  rcases n.held with hpath | hurl | hurl | hurl
  · exact hpath
  · obtain ⟨rest, hrest⟩ := isHttpUrl_iff.mp hurl
    rw [← hrest] at hhead
    exact absurd (Option.some.inj hhead) (by decide)
  · obtain ⟨rest, hrest⟩ := isCueUrl_iff.mp hurl
    rw [← hrest] at hhead
    exact absurd (Option.some.inj hhead) (by decide)
  · obtain ⟨rest, hrest⟩ := isCddaUrl_iff.mp hurl
    rw [← hrest] at hhead
    exact absurd (Option.some.inj hhead) (by decide)

theorem toLine_of_notMem {s : Text} (h : 0 ∉ s) : toLine s = s :=
  List.takeWhile_eq_self_iff.mpr fun _ hc => decide_eq_true fun h0 => h (h0 ▸ hc)

theorem stripCr_subset (s : Text) : ∀ c ∈ stripCr s, c ∈ s := by
  intro c hc
  rw [stripCr] at hc
  split at hc
  · exact List.mem_of_mem_dropLast hc
  · exact hc

theorem forEachLineLoop_append {row rest : Text} (hrow : ch '\n' ∉ row) (fuel : Nat) :
    forEachLineLoop (fuel + 1) (row ++ ch '\n' :: rest) =
      toLine (stripCr row) :: forEachLineLoop fuel rest := by
  have hpos : ∀ c ∈ row, decide (c ≠ ch '\n') = true := by
    intro c hc
    exact decide_eq_true (fun h => hrow (h ▸ hc))
  have htake : (row ++ ch '\n' :: rest).takeWhile (· ≠ ch '\n') = row := by
    rw [List.takeWhile_append_of_pos hpos]
    simp
  have hdrop : (row ++ ch '\n' :: rest).drop (row.length + 1) = rest := by
    rw [← List.drop_drop, List.drop_left]
    rfl
  rw [forEachLineLoop, if_neg (by simp)]
  dsimp only
  rw [htake, hdrop]

/-- The lines of a saved playlist are its names. -/
theorem bufferForEachLine_save {names : List TrackName} (h : ∀ n ∈ names, ch '\n' ∉ n.text)
    {fuel : Nat} (hfuel : (savePlaylist (names.map TrackName.text)).length ≤ fuel) :
    forEachLineLoop fuel (savePlaylist (names.map TrackName.text)) =
      names.map fun n => stripCr n.text := by
  induction names generalizing fuel with
  | nil => cases fuel <;> rfl
  | cons n names ih =>
    have hsave : savePlaylist ((n :: names).map TrackName.text) =
        n.text ++ ch '\n' :: savePlaylist (names.map TrackName.text) := by
      simp [savePlaylist]
    rw [hsave, List.length_append, List.length_cons] at hfuel
    obtain ⟨fuel, rfl⟩ : ∃ k, fuel = k + 1 := ⟨fuel - 1, by omega⟩
    rw [hsave, forEachLineLoop_append (h n List.mem_cons_self),
      ih (fun m hm => h m (List.mem_cons_of_mem _ hm)) (by omega), List.map_cons,
      toLine_of_notMem fun h0 => n.noNul (stripCr_subset _ _ h0)]

theorem rtakeWhile_append {p : UInt8 → Bool} {front t : Text} (ht : ∀ c ∈ t, p c = true)
    (hfront : front = [] ∨ ∃ c, front.getLast? = some c ∧ p c = false) :
    (front ++ t).rtakeWhile p = t ∧ (front ++ t).rdropWhile p = front := by
  have ht' : ∀ c ∈ t.reverse, p c = true := fun c hc => ht c (List.mem_reverse.mp hc)
  rw [List.rtakeWhile, List.rdropWhile, List.reverse_append, List.takeWhile_append_of_pos ht',
    List.dropWhile_append_of_pos ht']
  rcases hfront with rfl | ⟨c, hlast, hc⟩
  · simp
  · obtain ⟨init, rfl⟩ := List.getLast?_eq_some_iff.mp hlast
    rw [show (init ++ [c]).reverse = c :: init.reverse by simp,
      List.takeWhile_cons_of_neg (by simp [hc]), List.dropWhile_cons_of_neg (by simp [hc])]
    simp

/-- A name that ends in a carriage return has another character. -/
theorem TrackName.two_le (n : TrackName) (h : n.text.getLast? = some (ch '\r')) :
    2 ≤ n.text.length := by
  obtain ⟨c, rest, htext, hc⟩ := n.head
  cases rest with
  | nil =>
    exfalso
    rw [htext] at h
    have hcr : c = ch '\r' := Option.some.inj h
    rcases hc with ⟨rfl, -⟩ | rfl | rfl <;> exact absurd hcr (by decide)
  | cons d rest =>
    rw [htext, List.length_cons, List.length_cons]
    omega

theorem forEachLineReverseLoop_append {front row : Text} (hrow : ch '\n' ∉ row)
    (hcr : row.getLast? = some (ch '\r') → 2 ≤ front.length + row.length)
    (hfront : front = [] ∨ front.getLast? = some (ch '\n')) (fuel : Nat) :
    forEachLineReverseLoop (fuel + 1) (front ++ (row ++ [ch '\n'])) =
      toLine (stripCr row) :: forEachLineReverseLoop fuel front := by
  have hne : front ++ (row ++ [ch '\n']) ≠ [] := by simp
  have hlast : (front ++ (row ++ [ch '\n'])).getLast? = some (ch '\n') := by
    rw [← List.append_assoc, List.getLast?_concat]
  have hdrop : (front ++ (row ++ [ch '\n'])).dropLast = front ++ row := by
    rw [← List.append_assoc, List.dropLast_concat]
  -- the carriage return goes with the newline
  have hstrip : (if 2 < (front ++ (row ++ [ch '\n'])).length ∧
      (front ++ (row ++ [ch '\n'])).getLast? = some (ch '\n') ∧
      (front ++ row).getLast? = some (ch '\r') then (front ++ row).dropLast else front ++ row) =
      front ++ stripCr row := by
    rw [stripCr]
    by_cases hend : row.getLast? = some (ch '\r')
    · have hrow0 : row ≠ [] := by
        intro heq
        subst heq
        cases hend
      have hlong := hcr hend
      rw [if_pos hend, if_pos, List.dropLast_append_of_ne_nil hrow0]
      refine ⟨?_, hlast, by rw [List.getLast?_append_of_ne_nil _ hrow0, hend]⟩
      simp only [List.length_append, List.length_singleton]
      omega
    · rw [if_neg hend, if_neg]
      intro h
      obtain ⟨-, -, hend'⟩ := h
      cases row with
      | nil =>
        rw [List.append_nil] at hend'
        rcases hfront with rfl | hnl
        · cases hend'
        · rw [hnl] at hend'
          exact absurd (Option.some.inj hend') (by decide)
      | cons c row =>
        rw [List.getLast?_append_of_ne_nil _ (List.cons_ne_nil c row)] at hend'
        exact hend hend'
  have hclean : ∀ c ∈ stripCr row, decide (c ≠ ch '\n') = true := by
    intro c hc
    exact decide_eq_true (fun h => hrow (h ▸ stripCr_subset _ _ hc))
  have hstop : front = [] ∨ ∃ c, front.getLast? = some c ∧ decide (c ≠ ch '\n') = false :=
    hfront.imp_right fun hnl => ⟨_, hnl, by decide⟩
  obtain ⟨htake, hrest⟩ := rtakeWhile_append hclean hstop
  rw [forEachLineReverseLoop, if_neg hne]
  dsimp only
  rw [hdrop, hstrip, htake, hrest]

/-- Read backwards they are its names in reverse. -/
theorem bufferForEachLineReverse_save {names : List TrackName}
    (h : ∀ n ∈ names, ch '\n' ∉ n.text) {fuel : Nat}
    (hfuel : (savePlaylist (names.map TrackName.text)).length ≤ fuel) :
    forEachLineReverseLoop fuel (savePlaylist (names.map TrackName.text)) =
      (names.map fun n => stripCr n.text).reverse := by
  induction names using List.reverseRecOn generalizing fuel with
  | nil => cases fuel <;> rfl
  | append_singleton names n ih =>
    have hsave : savePlaylist ((names ++ [n]).map TrackName.text) =
        savePlaylist (names.map TrackName.text) ++ (n.text ++ [ch '\n']) := by
      simp [savePlaylist]
    have hend : savePlaylist (names.map TrackName.text) = [] ∨
        (savePlaylist (names.map TrackName.text)).getLast? = some (ch '\n') := by
      rcases List.eq_nil_or_concat names with rfl | ⟨front, m, rfl⟩
      · exact .inl rfl
      · right
        rw [List.concat_eq_append, savePlaylist, List.map_append, List.flatMap_append]
        simp
    rw [hsave, List.length_append, List.length_append, List.length_singleton] at hfuel
    obtain ⟨fuel, rfl⟩ : ∃ k, fuel = k + 1 := ⟨fuel - 1, by omega⟩
    have hn := h n (List.mem_append_right _ List.mem_cons_self)
    have hcr (h : n.text.getLast? = some (ch '\r')) :
        2 ≤ (savePlaylist (names.map TrackName.text)).length + n.text.length := by
      have htwo := n.two_le h
      omega
    rw [hsave, forEachLineReverseLoop_append hn hcr hend,
      ih (fun m hm => h m (List.mem_append_left _ hm)) (by omega), List.map_append,
      List.reverse_append, toLine_of_notMem fun h0 => n.noNul (stripCr_subset _ _ h0)]
    rfl

theorem newline_notMem_lines (fuel : Nat) (buf : Text) :
    ∀ line ∈ forEachLineLoop fuel buf, ch '\n' ∉ line := by
  induction fuel generalizing buf with
  | zero => exact fun line hline => absurd hline List.not_mem_nil
  | succ fuel ih =>
    intro line hline
    rw [forEachLineLoop] at hline
    split at hline
    · cases hline
    · rcases List.mem_cons.mp hline with rfl | hline
      · intro hnl
        have hrow := stripCr_subset _ _ ((List.takeWhile_sublist _).subset hnl)
        exact absurd (List.mem_takeWhile_imp hrow) (by decide)
      · exact ih _ line hline

/-! ### Handlers -/

/-- A string that begins like a URL does so without its last carriage return. -/
theorem stripCr_append {front : Text} (hfront : front.getLast? ≠ some (ch '\r')) (rest : Text) :
    ∃ rest', stripCr (front ++ rest) = front ++ rest' := by
  rw [stripCr]
  split
  · rename_i hend
    have hne : rest ≠ [] := by
      intro heq
      subst heq
      rw [List.append_nil] at hend
      exact hfront hend
    exact ⟨rest.dropLast, List.dropLast_append_of_ne_nil hne⟩
  · exact ⟨rest, rfl⟩

theorem TrackName.plHandleLine (n : TrackName) :
    Pl.plHandleLine (stripCr n.text) = some (stripCr n.text) := by
  obtain ⟨c, rest, htext, hc⟩ := n.head
  have hplain : isSpace c = false ∧ c ≠ ch '#' ∧ c ≠ ch '\r' := by
    rcases hc with ⟨rfl, -⟩ | rfl | rfl <;> decide
  have hfirst : ([c] : Text).getLast? ≠ some (ch '\r') := by simpa using hplain.2.2
  obtain ⟨rest', hstrip⟩ := stripCr_append hfirst rest
  rw [htext, ← List.singleton_append, hstrip, List.singleton_append, Pl.plHandleLine,
    List.dropWhile_cons_of_neg (by rw [hplain.1]; decide)]
  exact if_neg hplain.2.1

/-- A saved playlist is not taken for one of the other format. -/
theorem plain_head (names : List TrackName) :
    ((savePlaylist (names.map TrackName.text)).take 10).map toLower ≠ ascii "[playlist]" := by
  cases names with
  | nil => decide
  | cons n names =>
    obtain ⟨c, rest, htext, hc⟩ := n.head
    have hsave : savePlaylist ((n :: names).map TrackName.text) =
        c :: (rest ++ ch '\n' :: savePlaylist (names.map TrackName.text)) := by
      simp [savePlaylist, htext]
    rw [hsave, List.take_succ_cons, List.map_cons]
    intro h
    have hhead : toLower c = ch '[' := (List.cons.inj h).1
    rcases hc with ⟨rfl, -⟩ | rfl | rfl <;> exact absurd hhead (by decide)

/-- The names that are asked for are the lines of the file. -/
theorem addPl_save (loc : Location) {names : List TrackName}
    (h : ∀ n ∈ names, ch '\n' ∉ n.text) :
    let asked := names.map fun n => handleLine (loc.filename ++ ascii "/..") (stripCr n.text)
    addPl loc.filename (savePlaylist (names.map TrackName.text)) false = asked ∧
      addPl loc.filename (savePlaylist (names.map TrackName.text)) true = asked.reverse := by
  have hlines : ∀ l : List TrackName,
      (l.map fun n => stripCr n.text).filterMap Pl.plHandleLine = l.map fun n => stripCr n.text := by
    intro l
    induction l with
    | nil => rfl
    | cons n l ih => rw [List.map_cons, List.filterMap_cons_some n.plHandleLine, ih]
  intro asked
  constructor
  · rw [addPl, cmusPlaylistForEach, if_neg (plain_head names), if_neg (by decide),
      bufferForEachLine, bufferForEachLine_save h (Nat.le_refl _), hlines, List.map_map]
    rfl
  · rw [addPl, cmusPlaylistForEach, if_neg (plain_head names), if_pos rfl,
      bufferForEachLineReverse, bufferForEachLineReverse_save h (Nat.le_refl _),
      ← List.map_reverse, hlines, List.map_map, ← List.map_reverse]
    rfl

theorem pathAbsoluteCwd_head {cwd : Text} (hcwd : cwd.head? = some slash) (line : Text) :
    (pathAbsoluteCwd line cwd).head? = some slash := by
  rw [pathAbsoluteCwd]
  split
  · rename_i habsolute
    exact pathStrip_head habsolute
  · exact pathStrip_head (head_append hcwd _)

/-- A name that is a line is asked for as it is, unless it is one of a CD or lost its
last carriage return. -/
theorem handleLine_eq_iff {cwd : Text} (hcwd : cwd.head? = some slash) (n : TrackName) :
    handleLine cwd (stripCr n.text) = n.text ↔
      isCddaUrl n.text = false ∧ n.text.getLast? ≠ some (ch '\r') := by
  by_cases hcr : n.text.getLast? = some (ch '\r')
  · apply iff_of_false _ (fun h => h.2 hcr)
    intro heq
    rw [handleLine] at heq
    split at heq
    · rw [stripCr, if_pos hcr] at heq
      have hlen := congrArg List.length heq
      have := n.two_le hcr
      rw [List.length_dropLast] at hlen
      omega
    · have hhead := pathAbsoluteCwd_head hcwd (stripCr n.text)
      rw [heq] at hhead
      exact (n.path_of_head hhead).2.2 hcr
  · rw [show stripCr n.text = n.text from if_neg hcr, and_iff_left hcr]
    constructor
    · intro heq
      by_contra hcdda
      obtain ⟨rest, hrest⟩ := isCddaUrl_iff.mp (Bool.eq_true_of_not_eq_false hcdda)
      have hplain : (isHttpUrl n.text || isCueUrl n.text) = false := by
        rw [← hrest]
        rfl
      rw [handleLine, if_neg (by rw [hplain]; decide)] at heq
      have hhead := pathAbsoluteCwd_head hcwd n.text
      rw [heq, ← hrest] at hhead
      exact absurd (Option.some.inj hhead) (by decide)
    · intro hcdda
      rw [handleLine]
      split
      · rfl
      · rename_i hplain
        rw [Bool.not_eq_true, Bool.or_eq_false_iff] at hplain
        rcases n.held with ⟨hpath, -, -⟩ | hurl | hurl | hurl
        · obtain ⟨components, -, hjoin⟩ := id hpath
          rw [pathAbsoluteCwd, if_pos (by rw [hjoin]; rfl), pathStrip_normal hpath]
        · rw [hplain.1] at hurl
          cases hurl
        · rw [hplain.2] at hurl
          cases hurl
        · rw [hcdda] at hurl
          cases hurl

/-- What is asked for has no newline, or is an absolute path. -/
theorem asked_newline (loc : Location) (buf : Text) :
    ∀ name ∈ addPl loc.filename buf false, ch '\n' ∉ name ∨ name.head? = some slash := by
  intro name hname
  obtain ⟨line, hline, rfl⟩ := List.mem_map.mp hname
  rw [handleLine]
  split
  · left
    obtain ⟨raw, hraw, hhandled⟩ := List.mem_filterMap.mp hline
    have hclean := newline_notMem_lines _ buf raw hraw
    split at hhandled
    · rw [plsHandleLine] at hhandled
      split at hhandled
      · cases hhandled
      · split at hhandled
        · cases hhandled
        · rename_i c value hvalue
          obtain rfl := Option.some.inj hhandled
          intro hnl
          apply hclean
          apply (List.dropWhile_sublist fun c => decide (c ≠ ch '=')).subset
          rw [hvalue]
          exact List.mem_cons_of_mem _ hnl
    · rw [plHandleLine] at hhandled
      split at hhandled
      · cases hhandled
      · split at hhandled
        · cases hhandled
        · rwa [← Option.some.inj hhandled]
  · right
    exact pathAbsoluteCwd_head (head_append loc.absolute _) line

/-! ### The round trip -/

/-- The names of a saved playlist are read back, in order or in reverse, exactly where
none is a name of a CD, none has a newline and none ends in a carriage return. -/
theorem playlist_round_trip (loc : Location) (names : List TrackName) :
    (addPl loc.filename (savePlaylist (names.map TrackName.text)) false =
        names.map TrackName.text ∧
      addPl loc.filename (savePlaylist (names.map TrackName.text)) true =
        (names.map TrackName.text).reverse) ↔
      ∀ n ∈ names, isCddaUrl n.text = false ∧ ch '\n' ∉ n.text ∧
        n.text.getLast? ≠ some (ch '\r') := by
  have hcwd : (loc.filename ++ ascii "/..").head? = some slash := head_append loc.absolute _
  constructor
  · intro ⟨hforward, _⟩
    have hclean : ∀ n ∈ names, ch '\n' ∉ n.text := by
      intro n hn
      have hasked : n.text ∈ addPl loc.filename (savePlaylist (names.map TrackName.text)) false := by
        rw [hforward]
        exact List.mem_map_of_mem hn
      rcases asked_newline loc _ _ hasked with hnl | hhead
      · exact hnl
      · exact (n.path_of_head hhead).2.1
    rw [(addPl_save loc hclean).1] at hforward
    intro n hn
    obtain ⟨hcdda, hcr⟩ := (handleLine_eq_iff hcwd n).mp (List.map_inj_left.mp hforward n hn)
    exact ⟨hcdda, hclean n hn, hcr⟩
  · intro h
    obtain ⟨hforward, hreverse⟩ := addPl_save loc fun n hn => (h n hn).2.1
    have hasked : (names.map fun n => handleLine (loc.filename ++ ascii "/..") (stripCr n.text)) =
        names.map TrackName.text := by
      apply List.map_congr_left
      intro n hn
      exact (handleLine_eq_iff hcwd n).mpr ⟨(h n hn).1, (h n hn).2.2⟩
    exact ⟨hforward.trans hasked, by rw [hreverse, hasked]⟩

/-- A track of a CD is asked for as a file beside the playlist. -/
theorem cdda_name_rewritten :
    addPl (ascii "/music/cd.pl") (savePlaylist [ascii "cdda://a1b2/3"]) false =
        [ascii "/music/cdda:/a1b2/3"] ∧
      isCddaUrl (ascii "cdda://a1b2/3") = true ∧
      addPl (ascii "/music/cd.pl") (savePlaylist [ascii "cue:///music/a.cue/3"]) false =
        [ascii "cue:///music/a.cue/3"] := by
  decide +kernel

end GracefulMusic.Pl
