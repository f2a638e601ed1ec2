import GracefulMusic.Paths

/-! What `path_strip` makes of an absolute path (`path.c`).

A path names the directories from the root on that its components lead through. At the
root `..` stays there. The loop goes from one component to the next with the directories so
far, each with its slash, in front of the index. -/
namespace GracefulMusic

/-- A component leads to a directory, nowhere or back. -/
def resolveStep (dirs : List Text) (component : Text) : List Text :=
  if component = [] ∨ component = [ch '.'] then dirs
  else if component = [ch '.', ch '.'] then dirs.dropLast
  else dirs ++ [component]

/-- The lexical meaning of an absolute path. -/
def resolve (path : Text) : List Text := (path.splitOn slash).foldl resolveStep []

/-- Directories from the root on, each with its slash. -/
def dirPath (dirs : List Text) : Text := slash :: dirs.flatMap (· ++ [slash])

theorem dirPath_concat (dirs : List Text) (s : Text) :
    dirPath (dirs ++ [s]) = dirPath dirs ++ s ++ [slash] := by
  simp [dirPath]

theorem dirPath_getLast? (dirs : List Text) : (dirPath dirs).getLast? = some slash := by
  rcases List.eq_nil_or_concat dirs with rfl | h
  · rfl
  · obtain ⟨init, s, rfl⟩ := h
    rw [List.concat_eq_append, dirPath_concat, List.getLast?_concat]

theorem joinPath_concat (dirs : List Text) (s : Text) :
    joinPath (dirs ++ [s]) = dirPath dirs ++ s := by
  rw [joinPath, dirPath, List.cons_append]
  congr 1
  induction dirs with
  | nil => rw [List.nil_append, List.intercalate_singleton]; rfl
  | cons d dirs ih =>
    obtain ⟨e, rest, he⟩ : ∃ e rest, dirs ++ [s] = e :: rest :=
      List.exists_cons_of_ne_nil (List.append_ne_nil_of_right_ne_nil dirs (List.cons_ne_nil s []))
    rw [List.cons_append, he, List.intercalate_cons_cons, ← he, ih, List.flatMap_cons]
    simp

/-- One directory back, and the root stays. -/
theorem pathUp_dirPath {dirs : List Text} (h : ∀ s ∈ dirs, slash ∉ s) :
    pathUp (dirPath dirs) = dirPath dirs.dropLast := by
  rcases List.eq_nil_or_concat dirs with rfl | hconcat
  · rfl
  · obtain ⟨init, s, rfl⟩ := hconcat
    rw [List.concat_eq_append] at h ⊢
    have hs : slash ∉ s := h s (by simp)
    have hparent : (dirPath init ++ s).rdropWhile (· ≠ slash) = dirPath init := by
      rw [List.rdropWhile, List.reverse_append, List.dropWhile_append_of_pos (by
        intro c hc
        exact decide_eq_true fun heq => hs (heq ▸ List.mem_reverse.mp hc))]
      obtain ⟨front, hfront⟩ := List.getLast?_eq_some_iff.mp (dirPath_getLast? init)
      rw [hfront, List.reverse_append, List.reverse_singleton, List.singleton_append,
        List.dropWhile_cons_of_neg (by simp)]
      simp
    rw [pathUp, dirPath_concat, List.dropLast_concat, List.dropLast_concat, hparent]
    exact if_neg (List.cons_ne_nil _ _)

/-- The slash behind the last directory is dropped, but not that of the root. -/
def stripEnd (done : Text) : Text :=
  if done.length > 1 ∧ done.getLast? = some slash then done.dropLast else done

theorem stripEnd_dirPath (dirs : List Text) : stripEnd (dirPath dirs) = joinPath dirs := by
  rcases List.eq_nil_or_concat dirs with rfl | h
  · rfl
  · obtain ⟨init, s, rfl⟩ := h
    have hlong : (dirPath (init ++ [s])).length > 1 := by
      rw [dirPath_concat, List.length_append, List.length_append, dirPath, List.length_cons,
        List.length_singleton]
      omega
    rw [List.concat_eq_append, stripEnd, if_pos ⟨hlong, dirPath_getLast? _⟩, dirPath_concat,
      List.dropLast_concat, joinPath_concat]

theorem stripEnd_component {s : Text} (hs : Component s) (dirs : List Text) :
    stripEnd (dirPath dirs ++ s) = joinPath (dirs ++ [s]) := by
  rw [stripEnd, if_neg, joinPath_concat]
  intro h
  have hlast := h.2
  rw [List.getLast?_append_of_ne_nil _ hs.nonempty] at hlast
  exact hs.noSlash (List.mem_of_getLast? hlast)

/-! ### One component after the other -/

/-- A path is a component and nothing, or a slash with more behind it. -/
theorem component_split (rest : Text) : ∃ s, slash ∉ s ∧
    (rest = s ∧ rest.splitOn slash = [s] ∨
      ∃ more, rest = s ++ slash :: more ∧ rest.splitOn slash = s :: more.splitOn slash) := by
  by_cases h : slash ∈ rest
  · obtain ⟨s, more, hrest, hs⟩ := List.eq_append_cons_of_mem h
    refine ⟨s, hs, .inr ⟨more, hrest, ?_⟩⟩
    rw [hrest, List.splitOn_append_cons_self_of_not_mem hs]
  · exact ⟨rest, h, .inl ⟨rfl, List.splitOn_eq_singleton h⟩⟩

theorem component_cases {s : Text} (hs : slash ∉ s) :
    s = [] ∨ s = [ch '.'] ∨ s = [ch '.', ch '.'] ∨ Component s := by
  by_cases hnil : s = []
  · exact .inl hnil
  by_cases hdot : s = [ch '.']
  · exact .inr (.inl hdot)
  by_cases hdots : s = [ch '.', ch '.']
  · exact .inr (.inr (.inl hdots))
  · exact .inr (.inr (.inr ⟨hnil, hs, hdot, hdots⟩))

theorem resolveStep_component {s : Text} (hs : Component s) (dirs : List Text) :
    resolveStep dirs s = dirs ++ [s] := by
  rw [resolveStep, if_neg (not_or.mpr ⟨hs.nonempty, hs.notDot⟩), if_neg hs.notDots]

theorem resolveStep_components {dirs : List Text} (h : ∀ s ∈ dirs, Component s) {s : Text}
    (hs : slash ∉ s) : ∀ t ∈ resolveStep dirs s, Component t := by
  rcases component_cases hs with rfl | rfl | rfl | hcomponent
  · exact h
  · exact h
  · exact fun t ht => h t (List.mem_of_mem_dropLast ht)
  · rw [resolveStep_component hcomponent]
    intro t ht
    rcases List.mem_append.mp ht with ht | ht
    · exact h t ht
    · rw [List.mem_singleton.mp ht]
      exact hcomponent

/-- Slashes in a row make empty components. -/
theorem foldl_resolveStep_slashes (rest : Text) (dirs : List Text) :
    ((rest.dropWhile (· = slash)).splitOn slash).foldl resolveStep dirs =
      (rest.splitOn slash).foldl resolveStep dirs := by
  induction rest with
  | nil => rfl
  | cons c rest ih =>
    by_cases hc : c = slash
    · subst hc
      rw [List.dropWhile_cons_of_pos (by simp), ih]
      have hsplit : (slash :: rest).splitOn slash = [] :: rest.splitOn slash :=
        List.splitOn_append_cons_self_of_not_mem List.not_mem_nil rest
      rw [hsplit, List.foldl_cons]
      rfl
    · rw [List.dropWhile_cons_of_neg (by simpa using hc)]

theorem pathStripLoop_nil (fuel : Nat) (done : Text) : pathStripLoop fuel done [] = done := by
  cases fuel <;> rfl

/-- The loop ends with the directory that is named by the rest of the path. -/
theorem pathStripLoop_resolve {fuel : Nat} {dirs : List Text} {rest : Text}
    (hdirs : ∀ s ∈ dirs, Component s) (hfuel : rest.length ≤ fuel) :
    stripEnd (pathStripLoop fuel (dirPath dirs) rest) =
      joinPath ((rest.splitOn slash).foldl resolveStep dirs) := by
  induction fuel generalizing dirs rest with
  | zero =>
    obtain rfl := List.eq_nil_of_length_eq_zero (Nat.le_zero.mp hfuel)
    exact stripEnd_dirPath dirs
  | succ fuel ih =>
    have hdone : dirPath dirs ≠ [] := List.cons_ne_nil _ _
    have hup : pathUp (dirPath dirs) = dirPath dirs.dropLast :=
      pathUp_dirPath fun s hs => (hdirs s hs).noSlash
    have hdropLast : ∀ s ∈ dirs.dropLast, Component s :=
      fun s hs => hdirs s (List.mem_of_mem_dropLast hs)
    obtain ⟨s, hs, hend | hmore⟩ := component_split rest
    · obtain ⟨rfl, hsplit⟩ := hend
      rw [hsplit]
      show _ = joinPath (resolveStep dirs rest)
      rcases component_cases hs with rfl | rfl | rfl | hcomponent
      · exact stripEnd_dirPath dirs
      · rw [pathStripLoop, if_neg (by decide), if_pos ⟨hdone, rfl⟩]
        exact stripEnd_dirPath dirs
      · rw [pathStripLoop, if_neg (by decide), if_pos ⟨hdone, rfl⟩]
        show stripEnd (if _ then _ else _) = _
        rw [if_neg (by decide), if_pos ⟨rfl, .inl rfl⟩, hup]
        show stripEnd (pathStripLoop fuel (dirPath dirs.dropLast) []) = joinPath dirs.dropLast
        rw [pathStripLoop_nil, stripEnd_dirPath]
      · have hstep := pathStripLoop_component hcomponent hdone (.inl rfl) fuel
        rw [List.append_nil, (pathSkip_component hs (dirPath dirs) []).2] at hstep
        rw [hstep, pathStripLoop_nil, stripEnd_component hcomponent,
          resolveStep_component hcomponent]
    · obtain ⟨more, rfl, hsplit⟩ := hmore
      rw [List.length_append, List.length_cons] at hfuel
      rw [hsplit, List.foldl_cons]
      rcases component_cases hs with rfl | rfl | rfl | hcomponent
      · rw [List.nil_append, pathStripLoop.eq_def]
        dsimp only
        rw [if_pos rfl, ih hdirs, foldl_resolveStep_slashes]
        · rfl
        · exact Nat.le_trans (List.length_dropWhile_le ..) (by omega)
      · rw [List.singleton_append, pathStripLoop.eq_def]
        dsimp only
        rw [if_neg (by decide), if_pos ⟨hdone, rfl⟩, if_pos rfl, ih hdirs (by omega)]
        rfl
      · rw [List.cons_append, List.singleton_append, pathStripLoop.eq_def]
        dsimp only
        rw [if_neg (by decide), if_pos ⟨hdone, rfl⟩, if_neg (by decide), if_pos ⟨rfl, .inr rfl⟩,
          hup]
        show stripEnd (pathStripLoop fuel (dirPath dirs.dropLast) more) = _
        rw [ih hdropLast (by omega)]
        rfl
      · have hpos := List.length_pos_iff.mpr hcomponent.nonempty
        rw [pathStripLoop_component hcomponent hdone (.inr rfl), (pathSkip_component hs _ more).1,
          ← dirPath_concat, ih, resolveStep_component hcomponent]
        · exact resolveStep_component hcomponent dirs ▸ resolveStep_components hdirs hs
        · show more.length ≤ fuel
          omega

/-! ### The loop ends -/

theorem length_pathSkip_lt {done : Text} {c : UInt8} (rest : Text) (hc : c ≠ slash) :
    (pathSkip done (c :: rest)).2.length < (c :: rest).length := by
  have hdrop : (rest.dropWhile fun c => decide (c ≠ slash)).length ≤ rest.length :=
    List.length_dropWhile_le ..
  rw [pathSkip, List.dropWhile_cons_of_pos (by simpa using hc), List.length_drop, List.length_cons]
  omega

/-- A round for each byte is enough, so that more change nothing. -/
theorem pathStripLoop_fuel {fuel fuel' : Nat} {done rest : Text} (hfuel : rest.length ≤ fuel)
    (hfuel' : rest.length ≤ fuel') : pathStripLoop fuel done rest =
      pathStripLoop fuel' done rest := by
  induction fuel generalizing fuel' done rest with
  | zero =>
    obtain rfl := List.eq_nil_of_length_eq_zero (Nat.le_zero.mp hfuel)
    rw [pathStripLoop_nil, pathStripLoop_nil]
  | succ fuel ih =>
    cases rest with
    | nil => rw [pathStripLoop_nil, pathStripLoop_nil]
    | cons c rest =>
      rw [List.length_cons] at hfuel hfuel'
      obtain ⟨fuel', rfl⟩ : ∃ n, fuel' = n + 1 := ⟨fuel' - 1, by omega⟩
      have hrec : ∀ {done' rest' : Text}, rest'.length ≤ rest.length →
          pathStripLoop fuel done' rest' = pathStripLoop fuel' done' rest' :=
        fun hlen => ih (by omega) (by omega)
      rw [pathStripLoop.eq_def, pathStripLoop.eq_def (fuel' + 1)]
      dsimp only
      split
      · exact hrec (List.length_dropWhile_le ..)
      rename_i hc
      have hskip := Nat.lt_succ_iff.mp (@length_pathSkip_lt done c rest hc)
      split
      · cases rest with
        | nil => rfl
        | cons d rest' =>
          dsimp only
          split
          · exact hrec (Nat.le_succ _)
          split
          · refine hrec ?_
            rw [List.length_drop, List.length_cons]
            omega
          · exact hrec hskip
      · exact hrec hskip

/-! ### The whole path -/

theorem pathStrip_eq_stripEnd (rest : Text) :
    pathStrip (slash :: rest) = stripEnd (pathStripLoop (rest.length + 1) (dirPath []) rest) := rfl

theorem resolve_slash (rest : Text) :
    resolve (slash :: rest) = (rest.splitOn slash).foldl resolveStep [] := by
  have hsplit : (slash :: rest).splitOn slash = [] :: rest.splitOn slash :=
    List.splitOn_append_cons_self_of_not_mem List.not_mem_nil rest
  rw [resolve, hsplit, List.foldl_cons]
  rfl

theorem pathStrip_eq_joinPath {path : Text} (h : path.head? = some slash) :
    pathStrip path = joinPath (resolve path) := by
  obtain ⟨rest, rfl⟩ : ∃ rest, path = slash :: rest := ⟨path.tail, (List.cons_head?_tail h).symm⟩
  rw [pathStrip_eq_stripEnd, resolve_slash]
  exact pathStripLoop_resolve (fun _ hs => absurd hs List.not_mem_nil) (Nat.le_succ _)

theorem foldl_resolveStep_components {components dirs : List Text}
    (hcomponents : ∀ s ∈ components, slash ∉ s) (hdirs : ∀ s ∈ dirs, Component s) :
    ∀ s ∈ components.foldl resolveStep dirs, Component s := by
  induction components generalizing dirs with
  | nil => exact hdirs
  | cons s components ih =>
    have hs := hcomponents s List.mem_cons_self
    exact ih (fun t ht => hcomponents t (List.mem_cons_of_mem _ ht))
      (resolveStep_components hdirs hs)

theorem not_mem_of_mem_splitOn {path s : Text} (h : s ∈ path.splitOn slash) : slash ∉ s := by
  induction hn : path.length using Nat.strong_induction_on generalizing path with
  | _ n ih =>
    obtain ⟨t, ht, hend | hmore⟩ := component_split path
    · rw [hend.2] at h
      rw [List.mem_singleton.mp h]
      exact ht
    · obtain ⟨more, hpath, hsplit⟩ := hmore
      rw [hsplit] at h
      rcases List.mem_cons.mp h with rfl | h
      · exact ht
      · refine ih more.length ?_ h rfl
        rw [← hn, hpath, List.length_append, List.length_cons]
        omega

theorem resolve_components (path : Text) : ∀ s ∈ resolve path, Component s :=
  foldl_resolveStep_components (fun _ hs => not_mem_of_mem_splitOn hs)
    fun _ hs => absurd hs List.not_mem_nil

theorem foldl_resolveStep_append {components : List Text} (h : ∀ s ∈ components, Component s)
    (dirs : List Text) : components.foldl resolveStep dirs = dirs ++ components := by
  induction components generalizing dirs with
  | nil => rw [List.foldl_nil, List.append_nil]
  | cons s components ih =>
    rw [List.foldl_cons, resolveStep_component (h s List.mem_cons_self),
      ih fun t ht => h t (List.mem_cons_of_mem _ ht), List.append_assoc]
    rfl

/-- A path that is made of directories leads to them. -/
theorem resolve_joinPath {components : List Text} (h : ∀ s ∈ components, Component s) :
    resolve (joinPath components) = components := by
  rw [joinPath, resolve_slash]
  cases components with
  | nil => rfl
  | cons s components =>
    rw [List.splitOn_intercalate slash (fun t ht => (h t ht).noSlash) (List.cons_ne_nil _ _),
      foldl_resolveStep_append h, List.nil_append]

/-! ### Normal forms -/

theorem pathStrip_isNormal {path : Text} (h : path.head? = some slash) :
    NormalPath (pathStrip path) :=
  ⟨resolve path, resolve_components path, pathStrip_eq_joinPath h⟩

theorem pathAbsoluteCwd_head {src cwd : Text} (hcwd : cwd.head? = some slash) :
    ∃ path, path.head? = some slash ∧ pathAbsoluteCwd src cwd = pathStrip path := by
  rw [pathAbsoluteCwd]
  split
  · rename_i hsrc
    exact ⟨src, hsrc, rfl⟩
  · exact ⟨cwd ++ slash :: src, head_append hcwd _, rfl⟩

/-- `path_strip` ends and gives the normal form of what an absolute path leads to, and so
does `path_absolute_cwd`. -/
theorem pathStrip_lexical {path : Text} (h : path.head? = some slash) :
    (∀ fuel, path.length ≤ fuel → pathStripLoop fuel (path.take 1) (path.drop 1) =
      pathStripLoop path.length (path.take 1) (path.drop 1)) ∧
    NormalPath (pathStrip path) ∧ resolve (pathStrip path) = resolve path ∧
    pathStrip (pathStrip path) = pathStrip path ∧
    ∀ src, NormalPath (pathAbsoluteCwd src path) ∧
      (src.head? ≠ some slash →
        resolve (pathAbsoluteCwd src path) = resolve (path ++ slash :: src)) := by
  have hnormal := pathStrip_isNormal h
  have hresolve : ∀ {p : Text}, p.head? = some slash → resolve (pathStrip p) = resolve p := by
    intro p hp
    rw [pathStrip_eq_joinPath hp, resolve_joinPath (resolve_components p)]
  refine ⟨fun fuel hfuel => ?_, hnormal, hresolve h, pathStrip_normal hnormal,
    fun src => ⟨?_, fun hsrc => ?_⟩⟩
  · have hlen : (path.drop 1).length ≤ path.length := by
      rw [List.length_drop]
      omega
    exact pathStripLoop_fuel (Nat.le_trans hlen hfuel) hlen
  · obtain ⟨p, hp, heq⟩ := @pathAbsoluteCwd_head src path h
    rw [heq]
    exact pathStrip_isNormal hp
  · rw [pathAbsoluteCwd, if_neg hsrc]
    exact hresolve (head_append h _)

theorem pathStrip_lexical_music : resolve (pathStrip (ascii "/..//music/./a/../b/")) =
    resolve (ascii "/..//music/./a/../b/") :=
  (@pathStrip_lexical (ascii "/..//music/./a/../b/") rfl).2.2.1

end GracefulMusic
