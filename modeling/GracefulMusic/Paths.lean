import GracefulMusic.Text

/-! Paths (`path.c`).

`path_strip` works in place; `done` is the string before its index, `rest` from there on. -/
namespace GracefulMusic

def slash : UInt8 := ch '/'

/-- Where `..` leads: back over one component, but not before the first byte. -/
def pathUp (done : Text) : Text :=
  let parent := done.dropLast.rdropWhile (· ≠ slash)
  if parent = [] then done.take 1 else parent

/-- To the component behind the next slash. -/
def pathSkip (done rest : Text) : Text × Text :=
  let component := rest.takeWhile (· ≠ slash)
  let behind := rest.dropWhile (· ≠ slash)
  (done ++ component ++ behind.take 1, behind.drop 1)

/-- Each round leaves less of the string behind the index. -/
def pathStripLoop : Nat → Text → Text → Text
  | 0, done, _ => done
  | _ + 1, done, [] => done
  | fuel + 1, done, c :: rest =>
    if c = slash then pathStripLoop fuel done (rest.dropWhile (· = slash))
    else if done ≠ [] ∧ c = ch '.' then
      match rest with
      | [] => done
      | d :: rest' =>
        if d = slash then pathStripLoop fuel done rest'
        else if d = ch '.' ∧ (rest' = [] ∨ rest'.head? = some slash) then
          -- aaa/bbb/../ccc becomes aaa/ccc
          pathStripLoop fuel (pathUp done) (rest'.drop 1)
        else pathStripLoop fuel (pathSkip done (c :: rest)).1 (pathSkip done (c :: rest)).2
    else pathStripLoop fuel (pathSkip done (c :: rest)).1 (pathSkip done (c :: rest)).2

def pathStrip (str : Text) : Text :=
  let start := if str.head? = some slash then 1 else 0
  let done := pathStripLoop str.length (str.take start) (str.drop start)
  if done.length > 1 ∧ done.getLast? = some slash then done.dropLast else done

def pathAbsoluteCwd (src cwd : Text) : Text :=
  if src.head? = some slash then pathStrip src else pathStrip (cwd ++ slash :: src)

example : pathStrip (ascii "/music//a/./b/../../c/") = ascii "/music/c" := by decide

/-! ### Normalised paths -/

/-- A component that stands for itself. -/
structure Component (s : Text) : Prop where
  nonempty : s ≠ []
  noSlash : slash ∉ s
  notDot : s ≠ [ch '.']
  notDots : s ≠ [ch '.', ch '.']

def joinPath (components : List Text) : Text := slash :: List.intercalate [slash] components

/-- The path is absolute and leads straight down. -/
def NormalPath (path : Text) : Prop :=
  ∃ components, (∀ s ∈ components, Component s) ∧ path = joinPath components

theorem pathSkip_component {s : Text} (hs : slash ∉ s) (done rest : Text) :
    pathSkip done (s ++ slash :: rest) = (done ++ s ++ [slash], rest) ∧
      pathSkip done s = (done ++ s, []) := by
  have hpos : ∀ c ∈ s, decide (c ≠ slash) = true := by
    intro c hc
    exact decide_eq_true (fun h => hs (h ▸ hc))
  constructor
  · rw [pathSkip, List.takeWhile_append_of_pos hpos, List.dropWhile_append_of_pos hpos]
    simp
  · rw [pathSkip]
    have htake : s.takeWhile (· ≠ slash) = s := List.takeWhile_eq_self_iff.mpr hpos
    have hdrop : s.dropWhile (· ≠ slash) = [] := List.dropWhile_eq_nil_iff.mpr hpos
    rw [htake, hdrop]
    simp

/-- A component is passed over. -/
theorem pathStripLoop_component {s : Text} (hs : Component s) {done rest : Text} (hdone : done ≠ [])
    (hrest : rest = [] ∨ rest.head? = some slash) (fuel : Nat) :
    pathStripLoop (fuel + 1) done (s ++ rest) =
      pathStripLoop fuel (pathSkip done (s ++ rest)).1 (pathSkip done (s ++ rest)).2 := by
  obtain ⟨c, s, rfl⟩ := List.exists_cons_of_ne_nil hs.nonempty
  have hc : c ≠ slash := fun h => hs.noSlash (h ▸ List.mem_cons_self)
  rw [List.cons_append, pathStripLoop.eq_def]
  dsimp only
  rw [if_neg hc]
  by_cases hdot : c = ch '.'
  · subst hdot
    rw [if_pos ⟨hdone, rfl⟩]
    cases s with
    | nil => exact absurd rfl hs.notDot
    | cons d s =>
      have hd : d ≠ slash := fun h => hs.noSlash (h ▸ List.mem_cons_of_mem _ List.mem_cons_self)
      rw [List.cons_append]
      dsimp only
      rw [if_neg hd, if_neg]
      intro h
      obtain ⟨rfl, hend⟩ := h
      cases s with
      | nil => exact hs.notDots rfl
      | cons e s =>
        rcases hend with hnil | hslash
        · cases hnil
        · apply hs.noSlash
          rw [← Option.some.inj hslash]
          exact List.mem_cons_of_mem _ (List.mem_cons_of_mem _ List.mem_cons_self)
  · rw [if_neg (fun h => hdot h.2)]

theorem pathStripLoop_components {components : List Text} (h : ∀ s ∈ components, Component s)
    {done : Text} (hdone : done ≠ []) {fuel : Nat}
    (hfuel : (List.intercalate [slash] components).length ≤ fuel) :
    pathStripLoop fuel done (List.intercalate [slash] components) =
      done ++ List.intercalate [slash] components := by
  have hnil : ∀ (fuel : Nat) (done : Text), pathStripLoop fuel done [] = done := by
    intro fuel done
    cases fuel <;> rfl
  induction components generalizing done fuel with
  | nil =>
    rw [List.intercalate_nil, List.append_nil]
    exact hnil fuel done
  | cons s components ih =>
    have hs := h s List.mem_cons_self
    have hpos := List.length_pos_iff.mpr hs.nonempty
    cases components with
    | nil =>
      rw [List.intercalate_singleton] at hfuel ⊢
      obtain ⟨fuel, rfl⟩ : ∃ n, fuel = n + 1 := ⟨fuel - 1, by omega⟩
      have hstep := pathStripLoop_component hs hdone (.inl rfl) fuel
      rw [List.append_nil, (pathSkip_component hs.noSlash done []).2] at hstep
      rw [hstep]
      exact hnil fuel _
    | cons t components =>
      rw [List.intercalate_cons_cons] at hfuel ⊢
      rw [List.append_assoc, List.singleton_append, List.length_append, List.length_cons] at hfuel
      obtain ⟨fuel, rfl⟩ : ∃ n, fuel = n + 1 := ⟨fuel - 1, by omega⟩
      rw [List.append_assoc, List.singleton_append,
        pathStripLoop_component hs hdone (.inr rfl) fuel, (pathSkip_component hs.noSlash done _).1,
        ih (fun u hu => h u (List.mem_cons_of_mem _ hu)) (by simp) (by omega)]
      simp

theorem getLast_intercalate {components : List Text} (h : ∀ s ∈ components, Component s) :
    (List.intercalate [slash] components).getLast? ≠ some slash := by
  induction components with
  | nil => simp
  | cons s components ih =>
    have hs := h s List.mem_cons_self
    cases components with
    | nil =>
      rw [List.intercalate_singleton]
      intro hlast
      exact hs.noSlash (List.mem_of_getLast? hlast)
    | cons t components =>
      have ht := h t (List.mem_cons_of_mem _ List.mem_cons_self)
      have hne : List.intercalate [slash] (t :: components) ≠ [] := by
        cases components with
        | nil =>
          rw [List.intercalate_singleton]
          exact ht.nonempty
        | cons u components =>
          rw [List.intercalate_cons_cons]
          exact List.append_ne_nil_of_left_ne_nil
            (List.append_ne_nil_of_left_ne_nil ht.nonempty _) _
      rw [List.intercalate_cons_cons, List.getLast?_append_of_ne_nil _ hne]
      exact ih fun u hu => h u (List.mem_cons_of_mem _ hu)

theorem pathStrip_slash (rest : Text) : pathStrip (slash :: rest) =
    let done := pathStripLoop (rest.length + 1) [slash] rest
    if done.length > 1 ∧ done.getLast? = some slash then done.dropLast else done := rfl

/-- A normalised path is left alone. -/
theorem pathStrip_normal {path : Text} (h : NormalPath path) : pathStrip path = path := by
  obtain ⟨components, hcomponents, rfl⟩ := h
  have hloop : pathStripLoop ((List.intercalate [slash] components).length + 1) [slash]
      (List.intercalate [slash] components) = joinPath components :=
    pathStripLoop_components hcomponents (by simp) (Nat.le_succ _)
  rw [joinPath, pathStrip_slash]
  dsimp only
  rw [hloop, if_neg]
  · rfl
  intro h
  obtain ⟨hlong, hlast⟩ := h
  have hne : List.intercalate [slash] components ≠ [] := by
    intro hnil
    rw [joinPath, hnil] at hlong
    exact absurd hlong (by decide)
  rw [joinPath, List.getLast?_cons_of_ne_nil hne] at hlast
  exact getLast_intercalate hcomponents hlast

/-! ### Absolute paths stay absolute -/

theorem pathUp_head {done : Text} (h : done.head? = some slash) :
    (pathUp done).head? = some slash := by
  obtain ⟨rest, rfl⟩ : ∃ rest, done = slash :: rest := by
    cases done with
    | nil => cases h
    | cons c rest => exact ⟨rest, by rw [Option.some.inj h]⟩
  unfold pathUp
  dsimp only
  split
  · rfl
  · rename_i hne
    have hprefix := (List.rdropWhile_prefix (p := fun c => decide (c ≠ slash))
      (slash :: rest).dropLast).trans (List.dropLast_prefix (slash :: rest))
    obtain ⟨c, parent, hparent⟩ := List.exists_cons_of_ne_nil hne
    rw [hparent] at hprefix ⊢
    obtain ⟨more, hmore⟩ := hprefix
    rw [List.cons_append] at hmore
    rw [(List.cons.inj hmore).1]
    rfl

theorem head_append {s : Text} (h : s.head? = some slash) (t : Text) :
    (s ++ t).head? = some slash := by
  rw [List.head?_append, h]
  rfl

theorem pathStripLoop_head (fuel : Nat) {done : Text} (h : done.head? = some slash) (rest : Text) :
    (pathStripLoop fuel done rest).head? = some slash := by
  induction fuel generalizing done rest with
  | zero => exact h
  | succ fuel ih =>
    cases rest with
    | nil => exact h
    | cons c rest =>
      have hskip : (pathStripLoop fuel (pathSkip done (c :: rest)).1
          (pathSkip done (c :: rest)).2).head? = some slash := by
        apply ih
        rw [pathSkip, List.append_assoc]
        exact head_append h _
      rw [pathStripLoop.eq_def]
      dsimp only
      split
      · exact ih h _
      split
      · cases rest with
        | nil => exact h
        | cons d rest' =>
          dsimp only
          split
          · exact ih h _
          split
          · exact ih (pathUp_head h) _
          · exact hskip
      · exact hskip

theorem pathStrip_head {str : Text} (h : str.head? = some slash) :
    (pathStrip str).head? = some slash := by
  obtain ⟨rest, rfl⟩ : ∃ rest, str = slash :: rest := by
    cases str with
    | nil => cases h
    | cons c rest => exact ⟨rest, by rw [Option.some.inj h]⟩
  have hstart : ([slash] : Text).head? = some slash := rfl
  have hdone := pathStripLoop_head (rest.length + 1) hstart rest
  rw [pathStrip_slash]
  dsimp only
  split
  · rename_i hlong
    rw [List.head?_dropLast, if_pos hlong.1]
    exact hdone
  · exact hdone

end GracefulMusic
