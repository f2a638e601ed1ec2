import GracefulMusic.Foundation.Seeking
import GracefulMusic.Text

/-! Searching in a view (`search.c`).

A searchable has a head and leads from each row to the next one, either way. A search looks at
one row after the other, from the selected one or from an end of the view. -/
namespace GracefulMusic.Searching
open Loops Seeking Sequence

inductive Direction where
  | forward
  | backward
deriving DecidableEq

/-- What is set while a search runs, with the conversion from the charset of the locale. -/
structure Options where
  wrapSearch : Bool
  searchRestricted : Bool
  usingUtf8 : Bool
  utf8Encode : Text → Option Text

/-- The operations are `none` where those of the source return 0. -/
structure Searchable (ι : Type) where
  head : ι
  getPrev : ι → Option ι
  getNext : ι → Option ι
  getCurrent : Option ι
  isMatch : ι → Text → Bool

/-- `search` from the beginning or not, and `search_next`. -/
inductive Request where
  | search (beginning : Bool)
  | searchNext
deriving DecidableEq

def wrapMessage : Direction → String
  | .forward => "search hit BOTTOM, continuing at TOP"
  | .backward => "search hit TOP, continuing at BOTTOM"

def searchText (opts : Options) (text : Text) : Text :=
  if opts.usingUtf8 then text else (opts.utf8Encode text).getD text

namespace Searchable
variable {ι : Type} [DecidableEq ι] (s : Searchable ι) (opts : Options) (dir : Direction)

omit [DecidableEq ι] in
def step : ι → Option ι :=
  match dir with
  | .forward => s.getNext
  | .backward => s.getPrev

omit [DecidableEq ι] in
def advance : ι × Bool → Option (ι × Bool)
  | (iter, wrapped) =>
    match s.step dir iter with
    | some iter => some (iter, wrapped)
    | none => if !opts.wrapSearch then none else (s.step dir s.head).map (·, true)

/-- The loop, with a bound on its turns. What is found comes with the message. -/
def scan (fuel : Nat) (text : Text) (start : ι × Bool) : Option (Option (ι × Option String)) :=
  (loop (seek (fun it => s.isMatch it.1 text) (fun it => it.1 = start.1) (s.advance opts dir))
    fuel start).map
      (·.map fun it => (it.1, if it.2 then some (wrapMessage dir) else none))

def doUSearch (fuel : Nat) (iter : ι) (text : Text) (skipCurrent : Bool) :
    Option (Option (ι × Option String)) :=
  if skipCurrent then
    match s.advance opts dir (iter, false) with
    | none => some none
    | some start => s.scan opts dir fuel text start
  else s.scan opts dir fuel text (iter, false)

/-- The search text is always in the encoding of the locale. -/
def doSearch (fuel : Nat) (iter : ι) (text : Text) (skipCurrent : Bool) :
    Option (Option (ι × Option String)) :=
  s.doUSearch opts dir fuel iter (searchText opts text) skipCurrent

def search (fuel : Nat) (text : Text) (beginning : Bool) : Option (Option (ι × Option String)) :=
  match if beginning then s.step dir s.head else s.getCurrent with
  | none => some none
  | some iter => s.doSearch opts dir fuel iter text false

def searchNext (fuel : Nat) (text : Text) : Option (Option (ι × Option String)) :=
  match s.getCurrent with
  | none => some none
  | some iter => s.doSearch opts dir fuel iter text true

def run (fuel : Nat) (text : Text) : Request → Option (Option (ι × Option String))
  | .search beginning => s.search opts dir fuel text beginning
  | .searchNext => s.searchNext opts dir fuel text

/-! ### What a search is about -/

/-- The rows in the order of the direction, and those that the way leads to. -/
structure Charted (all : List ι) (allowed : ι → Bool) : Prop where
  nodup : all.Nodup
  first : s.step dir s.head = all.find? allowed
  step : ∀ r ∈ all, s.step dir r = (behind all r).find? allowed
  current : ∀ r, s.getCurrent = some r → r ∈ all
  empty : s.getCurrent = none → all = []
  kind : all ≠ [] → ∃ r ∈ all, allowed r = true

/-- The rows ahead of a row: all of them where the search wraps around. -/
def ahead (all : List ι) (r : ι) : List ι := if opts.wrapSearch then all else behind all r

/-- The selected row and the rows ahead of it, or all rows from the beginning. -/
def covered (all : List ι) (allowed : ι → Bool) : Request → List ι
  | .search true => all.filter allowed
  | .search false =>
    match s.getCurrent with
    | none => all.filter allowed
    | some r => r :: (ahead opts all r).filter allowed
  | .searchNext =>
    match s.getCurrent with
    | none => all.filter allowed
    | some r => (ahead opts all r).filter allowed

/-- Found is a row if and only if one matches, and it is such a row. -/
def Answer (rows : List ι) (matched : ι → Bool) (res : Option (ι × Option String)) : Prop :=
  (res.isSome = true ↔ ∃ r ∈ rows, matched r = true) ∧
    ∀ found ∈ res, found.1 ∈ rows ∧ matched found.1 = true

/-- The search ends, with the answer. -/
def Settles (all : List ι) (allowed : ι → Bool) (text : Text) (req : Request) : Prop :=
  ∃ fuel res, s.run opts dir fuel text req = some res ∧
    Answer (s.covered opts all allowed req) (s.isMatch · (searchText opts text)) res

/-- The search begins at a row to which the way does not lead back, and finds nothing. -/
def Astray (all : List ι) (allowed : ι → Bool) (text : Text) (req : Request) : Prop :=
  opts.wrapSearch = true ∧ req = .search false ∧ (∃ r ∈ s.getCurrent, allowed r = false) ∧
    ∀ r ∈ s.covered opts all allowed req, s.isMatch r (searchText opts text) = false

/-! ### Searches that end -/

variable {s opts dir} {all : List ι} {allowed matched : ι → Bool} {text : Text} {a : ι}
  {wrapped : Bool} {rows rows' : List ι} {res : Option (ι × Option String)}

/-- Rows that are the places of the cells of a list. -/
theorem Charted.of_cells {α : Type} [DecidableEq α] {cells : List α} {place : α → ι}
    (hplace : Function.Injective place) (hcells : cells.Nodup)
    (hfirst : s.step dir s.head = (cells.find? (allowed ∘ place)).map place)
    (hstep : ∀ c ∈ cells,
      s.step dir (place c) = ((behind cells c).find? (allowed ∘ place)).map place)
    (hcurrent : ∀ r, s.getCurrent = some r → ∃ c ∈ cells, place c = r)
    (hempty : s.getCurrent = none → cells = [])
    (hkind : cells ≠ [] → ∃ c ∈ cells, allowed (place c) = true) :
    s.Charted dir (cells.map place) allowed where
  nodup := hcells.map hplace
  first := by rw [hfirst, List.find?_map]
  step r hr := by
    obtain ⟨c, hc, rfl⟩ := List.mem_map.mp hr
    rw [hstep c hc, behind_map hplace, List.find?_map]
  current r hr := List.mem_map.mpr (hcurrent r hr)
  empty hnone := by rw [hempty hnone, List.map_nil]
  kind hne := by
    obtain ⟨c, hc, hallow⟩ := hkind (by simpa using hne)
    exact ⟨place c, List.mem_map_of_mem hc, hallow⟩

theorem Charted.course (h : s.Charted dir all allowed) :
    Course all allowed opts.wrapSearch (s.advance opts dir) := by
  refine ⟨h.nodup, fun r hr wrapped => ?_⟩
  cases hahead : (behind all r).find? allowed <;> cases hwrap : opts.wrapSearch <;>
    simp [advance, onward, h.step r hr, h.first, hahead, hwrap]

omit [DecidableEq ι] in
theorem Answer.congr (h : Answer rows matched res) (hmem : ∀ r, r ∈ rows ↔ r ∈ rows') :
    Answer rows' matched res := by
  simpa only [Answer, hmem] using h

omit [DecidableEq ι] in
theorem answer_nothing : Answer [] matched none := by simp [Answer]

omit [DecidableEq ι] in
theorem answer_find? (l : List (ι × Bool)) (message : Bool → Option String) :
    Answer (l.map Prod.fst) matched
      ((l.find? fun it => matched it.1).map fun it => (it.1, message it.2)) := by
  constructor
  · simp
  · intro found hfound
    obtain ⟨it, hit, rfl⟩ := Option.map_eq_some_iff.mp hfound
    exact ⟨List.mem_map_of_mem (List.mem_of_find?_eq_some hit), by simpa using List.find?_some hit⟩

variable (wrapped) in
/-- The scan answers for the row at which it begins and those ahead. -/
theorem Charted.scan_answer (h : s.Charted dir all allowed) (ha : a ∈ all)
    (hend : opts.wrapSearch = false ∨ allowed a = true ∨
      ∃ r ∈ a :: (ahead opts all a).filter allowed, s.isMatch r text = true) :
    ∃ fuel res, s.scan opts dir fuel text (a, wrapped) = some res ∧
      Answer (a :: (ahead opts all a).filter allowed) (s.isMatch · text) res := by
  have hcourse : Course all allowed opts.wrapSearch (s.advance opts dir) := h.course
  have hvisited : ∀ r, r ∈ (visited all allowed opts.wrapSearch a wrapped).map Prod.fst ↔
      r ∈ a :: (ahead opts all a).filter allowed := fun r => hcourse.mem_visited ha
  have hend' : opts.wrapSearch = false ∨ allowed a = true ∨
      ∃ it ∈ visited all allowed opts.wrapSearch a wrapped, s.isMatch it.1 text = true := by
    refine hend.imp_right (·.imp_right ?_)
    rintro ⟨r, hr, hmatch⟩
    obtain ⟨it, hit, rfl⟩ := List.mem_map.mp ((hvisited r).mpr hr)
    exact ⟨it, hit, hmatch⟩
  refine ⟨(visited all allowed opts.wrapSearch a wrapped).length, _, ?_,
    (answer_find? (visited all allowed opts.wrapSearch a wrapped)
      fun wrapped => if wrapped then some (wrapMessage dir) else none).congr hvisited⟩
  simp only [scan]
  rw [hcourse.seek_visited (s.isMatch · text) ha hend' le_rfl, Option.map_some]

theorem Charted.scan_diverges (h : s.Charted dir all allowed) (hwrap : opts.wrapSearch = true)
    (ha : a ∈ all) (hallowed : allowed a = false)
    (hnone : ∀ r ∈ a :: (ahead opts all a).filter allowed, s.isMatch r text = false) (fuel : Nat) :
    s.scan opts dir fuel text (a, wrapped) = none := by
  have hcourse : Course all allowed opts.wrapSearch (s.advance opts dir) := h.course
  rw [hwrap] at hcourse
  have hvisited : ∀ it ∈ visited all allowed true a wrapped, s.isMatch it.1 text = false := by
    intro it hit
    refine hnone it.1 ?_
    rw [ahead, hwrap]
    exact (hcourse.mem_visited ha).mp (List.mem_map_of_mem hit)
  simp only [scan]
  rw [hcourse.seek_diverges (s.isMatch · text) ha hallowed
    (h.kind (List.ne_nil_of_mem ha)) hvisited, Option.map_none]

variable (opts text wrapped) in
/-- From the first of some last rows on. -/
theorem Charted.scan_first (h : s.Charted dir all allowed) {front : List ι}
    (hall : all = front ++ rows) (ha : rows.find? allowed = some a) :
    ∃ fuel res, s.scan opts dir fuel text (a, wrapped) = some res ∧
      Answer ((if opts.wrapSearch then all else rows).filter allowed) (s.isMatch · text) res := by
  have hcourse : Course all allowed opts.wrapSearch (s.advance opts dir) := h.course
  have hallow : allowed a = true := by simpa using List.find?_some ha
  have hmem : a ∈ all := by
    rw [hall]
    exact List.mem_append_right _ (List.mem_of_find?_eq_some ha)
  obtain ⟨fuel, res, hscan, hanswer⟩ := h.scan_answer wrapped hmem (.inr (.inl hallow))
  refine ⟨fuel, res, hscan, hanswer.congr fun r => ?_⟩
  cases hwrap : opts.wrapSearch with
  | false => simp [ahead, hwrap, hcourse.filter_of_find? hall ha]
  | true =>
    simp only [ahead, hwrap, if_true, List.mem_cons, List.mem_filter]
    refine ⟨?_, .inr⟩
    rintro (rfl | hr)
    · exact ⟨hmem, hallow⟩
    · exact hr

/-! ### Every search -/

theorem Charted.settles_beginning (h : s.Charted dir all allowed) :
    s.Settles opts dir all allowed text (.search true) := by
  cases hfirst : all.find? allowed with
  | none =>
    have hnil : all.filter allowed = [] := by
      simpa [List.filter_eq_nil_iff, List.find?_eq_none] using hfirst
    refine ⟨0, none, by simp [run, search, h.first, hfirst], ?_⟩
    simp only [covered, hnil]
    exact answer_nothing
  | some a =>
    obtain ⟨fuel, res, hscan, hanswer⟩ := h.scan_first opts (searchText opts text) false
      (List.nil_append all).symm hfirst
    refine ⟨fuel, res, ?_, by simpa [covered] using hanswer⟩
    simpa [run, search, h.first, hfirst, doSearch, doUSearch] using hscan

theorem Charted.settles_next (h : s.Charted dir all allowed) :
    s.Settles opts dir all allowed text .searchNext := by
  cases hcurrent : s.getCurrent with
  | none =>
    refine ⟨0, none, by simp [run, searchNext, hcurrent], ?_⟩
    simp only [covered, hcurrent, h.empty hcurrent]
    exact answer_nothing
  | some r =>
    have hr := h.current r hcurrent
    have hcourse : Course all allowed opts.wrapSearch (s.advance opts dir) := h.course
    obtain ⟨hall, -, -⟩ := hcourse.split hr
    have hadvance := hcourse.advance r hr false
    cases hahead : (behind all r).find? allowed with
    | some a =>
      have hsplit : all = (before all r ++ [r]) ++ behind all r := by simp [← hall]
      obtain ⟨fuel, res, hscan, hanswer⟩ := h.scan_first opts (searchText opts text) false
        hsplit hahead
      refine ⟨fuel, res, ?_, by simpa [covered, hcurrent, ahead] using hanswer⟩
      simpa [run, searchNext, hcurrent, doSearch, doUSearch, hadvance, onward, hahead] using hscan
    | none =>
      -- from the beginning, or not at all
      have hbehind : (behind all r).filter allowed = [] := by
        simpa [List.filter_eq_nil_iff, List.find?_eq_none] using hahead
      rw [onward, hahead] at hadvance
      cases hwrap : opts.wrapSearch with
      | false =>
        refine ⟨0, none, by simp [run, searchNext, hcurrent, doSearch, doUSearch, hadvance, hwrap], ?_⟩
        simp only [covered, hcurrent, ahead, hwrap, Bool.false_eq_true, if_false, hbehind]
        exact answer_nothing
      | true =>
        obtain ⟨b, hb, hallow⟩ := h.kind (List.ne_nil_of_mem hr)
        obtain ⟨a, ha⟩ : ∃ a, all.find? allowed = some a :=
          Option.isSome_iff_exists.mp (List.find?_isSome.mpr ⟨b, hb, hallow⟩)
        obtain ⟨fuel, res, hscan, hanswer⟩ := h.scan_first opts (searchText opts text) true
          (List.nil_append all).symm ha
        refine ⟨fuel, res, ?_, by simpa [covered, hcurrent, ahead, hwrap] using hanswer⟩
        simpa [run, searchNext, hcurrent, doSearch, doUSearch, hadvance, hwrap, ha] using hscan

theorem Charted.mem_of_covered (h : s.Charted dir all allowed) {req : Request}
    (ha : a ∈ s.covered opts all allowed req) : a ∈ all := by
  have hahead : ∀ r, ∀ b ∈ ahead opts all r, b ∈ all := fun r b hb => by
    unfold ahead at hb
    split at hb
    · exact hb
    · exact (List.dropWhile_sublist _).subset (List.mem_of_mem_tail hb)
  unfold covered at ha
  cases hcurrent : s.getCurrent with
  | none =>
    rw [h.empty hcurrent] at ha
    match req with
    | .search true => simp at ha
    | .search false => simp [hcurrent] at ha
    | .searchNext => simp [hcurrent] at ha
  | some r =>
    match req with
    | .search true => exact List.mem_of_mem_filter ha
    | .search false =>
      simp only [hcurrent] at ha
      obtain rfl | ha := List.mem_cons.mp ha
      · exact h.current a hcurrent
      · exact hahead r a (List.mem_of_mem_filter ha)
    | .searchNext =>
      simp only [hcurrent] at ha
      exact hahead r a (List.mem_of_mem_filter ha)

/-- A search that goes astray has no end. -/
theorem Charted.run_astray (h : s.Charted dir all allowed) {req : Request}
    (hastray : s.Astray opts all allowed text req) (fuel : Nat) :
    s.run opts dir fuel text req = none := by
  obtain ⟨hwrap, rfl, ⟨r, hcurrent, hallowed⟩, hnone⟩ := hastray
  have hcurrent : s.getCurrent = some r := hcurrent
  simp only [covered, hcurrent] at hnone
  simp only [run, search, hcurrent, Bool.false_eq_true, if_false, doSearch, doUSearch]
  exact h.scan_diverges hwrap (h.current r hcurrent) hallowed hnone fuel

theorem Charted.settles_selected (h : s.Charted dir all allowed)
    (hastray : ¬s.Astray opts all allowed text (.search false)) :
    s.Settles opts dir all allowed text (.search false) := by
  cases hcurrent : s.getCurrent with
  | none =>
    refine ⟨0, none, by simp [run, search, hcurrent], ?_⟩
    simp only [covered, hcurrent, h.empty hcurrent]
    exact answer_nothing
  | some r =>
    have hcovered : s.covered opts all allowed (.search false) =
        r :: (ahead opts all r).filter allowed := by simp [covered, hcurrent]
    have hend : opts.wrapSearch = false ∨ allowed r = true ∨
        ∃ b ∈ r :: (ahead opts all r).filter allowed,
          s.isMatch b (searchText opts text) = true := by
      by_contra hnone
      simp only [not_or, not_exists, not_and, Bool.not_eq_true, Bool.not_eq_false] at hnone
      obtain ⟨hwrap, hallowed, hnone⟩ := hnone
      exact hastray ⟨hwrap, rfl, ⟨r, hcurrent, hallowed⟩, by rwa [hcovered]⟩
    obtain ⟨fuel, res, hscan, hanswer⟩ := h.scan_answer false
      (h.current r hcurrent) hend
    refine ⟨fuel, res, ?_, hcovered ▸ hanswer⟩
    simpa [run, search, hcurrent, doSearch, doUSearch] using hscan

/-- A search settles unless it goes astray. -/
theorem Charted.settles_iff (h : s.Charted dir all allowed) (req : Request) :
    s.Settles opts dir all allowed text req ↔ ¬s.Astray opts all allowed text req := by
  constructor
  · rintro ⟨fuel, res, hres, -⟩ hastray
    rw [h.run_astray hastray] at hres
    cases hres
  · intro hastray
    match req with
    | .search true => exact h.settles_beginning
    | .search false => exact h.settles_selected hastray
    | .searchNext => exact h.settles_next

end Searchable
end GracefulMusic.Searching
