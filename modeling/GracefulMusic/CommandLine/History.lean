import GracefulMusic.Foundation.Successor
import GracefulMusic.Text

/-! Histories of lines (`history.c`).

The entries are in a list, newest first, and an address is all that the search position is. It
is read through where a search goes on, so it must be an entry still. -/
namespace GracefulMusic.CommandLine
open Sequence

/-- `xnew`: some address that is not in use. -/
structure Malloc (P : Type) where
  new : List P → P
  fresh : ∀ l, new l ∉ l

structure History (P : Type) where
  head : List P
  text : P → Text
  searchPos : Option P
  maxLines : Nat
  lines : Int

namespace History
variable {P : Type} [DecidableEq P] (malloc : Malloc P) (h : History P)

def addTail (line : Text) : History P :=
  if h.lines < h.maxLines then
    let new := malloc.new h.head
    {h with head := h.head ++ [new], text := Function.update h.text new line, lines := h.lines + 1}
  else h

/-- With the lines of the file. -/
def load (memory : P → Text) (file : List Text) (maxLines : Nat) : History P :=
  file.foldl (addTail malloc) ⟨[], memory, none, maxLines, 0⟩

/-- The entries behind the new one, without those that are identical. -/
def removeIdentical (text : P → Text) (line : Text) : List P → Int → List P × Int
  | [], lines => ([], lines)
  | item :: rest, lines =>
    if text item = line then removeIdentical text line rest (lines - 1)
    else
      let (kept, lines) := removeIdentical text line rest lines
      (item :: kept, lines)

def addLine (line : Text) : History P :=
  let new := malloc.new h.head
  let text := Function.update h.text new line
  let (kept, lines) := removeIdentical text line h.head (h.lines + 1)
  -- remove oldest if history is 'full'
  if lines > h.maxLines then
    {h with head := (new :: kept).dropLast, text, lines := lines - 1}
  else {h with head := new :: kept, text, lines}

def resetSearch : History P := {h with searchPos := none}

/-- The history and the text that is found; `none` reads through an entry that was freed. -/
def searchForward (text : Text) : Option (History P × Option Text) :=
  let items := match h.searchPos with
    | none => some h.head
    | some pos => if pos ∈ h.head then some (behind h.head pos) else none
  items.map fun items =>
    match items.find? fun item => text.isPrefixOf (h.text item) with
    | some item => ({h with searchPos := some item}, some (h.text item))
    | none => (h, none)

def searchBackward (text : Text) : Option (History P × Option Text) :=
  match h.searchPos with
  | none => some (h, none)
  | some pos =>
    if pos ∈ h.head then
      match (before h.head pos).reverse.find? fun item => text.isPrefixOf (h.text item) with
      | some item => some ({h with searchPos := some item}, some (h.text item))
      | none => some ({h with searchPos := none}, none)
    else none

/-! ### What holds of a history -/

/-- The lines, newest first. -/
def texts : List Text := h.head.map h.text

/-- The list, apart from the search position. -/
structure Listed : Prop where
  entries : h.head.Nodup
  distinct : h.texts.Nodup
  lines : h.lines = h.head.length
  room : h.head.length ≤ h.maxLines

/-- The search position is null or an entry. -/
def Placed : Prop := ∀ pos ∈ h.searchPos, pos ∈ h.head

instance : Decidable h.Placed := inferInstanceAs (Decidable (∀ pos ∈ h.searchPos, _))

/-- The search position outlives a line that is added: its text is another one, and it is not
the oldest entry of a full list that grows. -/
def Outlives (line : Text) : Prop := ∀ pos ∈ h.searchPos, h.text pos ≠ line ∧
  (h.head.length = h.maxLines → line ∉ h.texts → h.head.getLast? ≠ some pos)

instance (line : Text) : Decidable (h.Outlives line) :=
  inferInstanceAs (Decidable (∀ pos ∈ h.searchPos, _))

variable {malloc} {h} {line : Text}

/-! ### Adding -/

omit [DecidableEq P] in
theorem removeIdentical_eq (text : P → Text) (line : Text) (l : List P) (lines : Int) :
    removeIdentical text line l lines =
      (l.filter fun item => text item ≠ line,
        lines - l.length + (l.filter fun item => text item ≠ line).length) := by
  induction l generalizing lines with
  | nil => simp [removeIdentical]
  | cons item l ih =>
    rw [removeIdentical]
    by_cases hsame : text item = line
    · simp [hsame, ih]
      omega
    · simp [hsame, ih]
      omega

theorem text_new {item : P} (hitem : item ∈ h.head) :
    Function.update h.text (malloc.new h.head) line item = h.text item :=
  Function.update_of_ne (by rintro rfl; exact malloc.fresh h.head hitem) ..

/-- The entries that are not identical to the new one. -/
def others (h : History P) (line : Text) : List P := h.head.filter fun item => h.text item ≠ line

omit [DecidableEq P] in
variable (h line) in
theorem length_others_le : (h.others line).length ≤ h.head.length := List.length_filter_le ..

theorem addLine_eq (hlisted : h.Listed) : h.addLine malloc line =
    { h with
      head := (malloc.new h.head :: h.others line).take h.maxLines
      text := Function.update h.text (malloc.new h.head) line
      lines := min ((h.others line).length + 1) h.maxLines } := by
  have hothers : (h.head.filter fun item =>
      Function.update h.text (malloc.new h.head) line item ≠ line) = h.others line :=
    List.filter_congr fun item hitem => by rw [text_new hitem]
  have hlines := hlisted.lines
  have hroom := hlisted.room
  have hle := h.length_others_le line
  rw [addLine]
  simp only [removeIdentical_eq, hothers]
  split
  · rename_i hfull
    have hlength : (h.others line).length = h.maxLines := by omega
    rw [List.dropLast_eq_take, List.length_cons, Nat.add_sub_cancel, hlength]
    congr 1
    omega
  · rename_i hfits
    rw [List.take_of_length_le (by rw [List.length_cons]; omega)]
    congr 1
    omega

variable (malloc line) in
theorem texts_addLine (hlisted : h.Listed) : (h.addLine malloc line).texts =
    (line :: h.texts.filter (· ≠ line)).take h.maxLines := by
  have htexts : (h.others line).map (Function.update h.text (malloc.new h.head) line) =
      h.texts.filter (· ≠ line) := by
    rw [texts, List.filter_map]
    exact List.map_congr_left fun item hitem => text_new (List.mem_of_mem_filter hitem)
  rw [addLine_eq hlisted]
  simp only [texts, List.map_take, List.map_cons, Function.update_self] at htexts ⊢
  rw [htexts]

theorem addLine_listed (hlisted : h.Listed) : (h.addLine malloc line).Listed := by
  have htexts := texts_addLine malloc line hlisted
  have hdistinct : (line :: h.texts.filter (· ≠ line)).Nodup :=
    List.nodup_cons.mpr ⟨by simp, hlisted.distinct.filter _⟩
  have hfresh : malloc.new h.head ∉ h.others line := fun hmem =>
    malloc.fresh h.head (List.mem_of_mem_filter hmem)
  have hentries : (malloc.new h.head :: h.others line).Nodup :=
    List.nodup_cons.mpr ⟨hfresh, hlisted.entries.filter _⟩
  refine ⟨?_, ?_, ?_, ?_⟩
  · rw [addLine_eq hlisted]
    exact hentries.sublist (List.take_sublist _ _)
  · rw [htexts]
    exact hdistinct.sublist (List.take_sublist _ _)
  · rw [addLine_eq hlisted]
    simp only [List.length_take, List.length_cons]
    omega
  · rw [addLine_eq hlisted]
    exact List.length_take_le _ _

omit [DecidableEq P] in
/-- All entries but the last one. -/
theorem mem_dropLast_iff {l : List P} (hl : l.Nodup) {a : P} (ha : a ∈ l) :
    a ∈ l.dropLast ↔ l.getLast? ≠ some a := by
  obtain ⟨last, hlast⟩ := Option.isSome_iff_exists.mp
    (List.getLast?_isSome.mpr (List.ne_nil_of_mem ha))
  obtain ⟨front, rfl⟩ := List.getLast?_eq_some_iff.mp hlast
  have hnot : last ∉ front := fun hmem =>
    (List.nodup_append.mp hl).2.2 last hmem last (.head _) rfl
  rw [hlast, List.dropLast_concat, ne_eq, Option.some.injEq]
  constructor
  · rintro hmem rfl
    exact hnot hmem
  · intro hne
    simpa [Ne.symm hne] using ha

/-- The search position is still an entry if and only if it outlives the line. -/
theorem addLine_placed_iff (hlisted : h.Listed) (hplaced : h.Placed) (hmax : 0 < h.maxLines) :
    (h.addLine malloc line).Placed ↔ h.Outlives line := by
  rw [addLine_eq hlisted]
  refine forall₂_congr fun pos hpos => ?_
  have hmem := hplaced pos hpos
  have hne : pos ≠ malloc.new h.head := fun heq => malloc.fresh h.head (heq ▸ hmem)
  have hroom := hlisted.room
  by_cases hline : line ∈ h.texts
  · have hfewer : (h.others line).length < h.head.length := by
      obtain ⟨item, hitem, hsame⟩ := List.mem_map.mp hline
      exact List.length_filter_lt_length_iff_exists.mpr ⟨item, hitem, by simp [hsame]⟩
    rw [List.take_of_length_le (by rw [List.length_cons]; omega)]
    simp [hne, others, hmem, hline]
  · have hothers : h.others line = h.head := List.filter_eq_self.mpr fun item hitem => by
      simpa using fun hsame : h.text item = line => hline (hsame ▸ List.mem_map_of_mem hitem)
    have htext : h.text pos ≠ line := fun hsame => hline (hsame ▸ List.mem_map_of_mem hmem)
    rw [hothers]
    by_cases hfull : h.head.length = h.maxLines
    · obtain ⟨k, hk⟩ : ∃ k, h.maxLines = k + 1 := ⟨h.maxLines - 1, by omega⟩
      have hdrop : h.head.take k = h.head.dropLast := by
        rw [List.dropLast_eq_take, hfull, hk, Nat.add_sub_cancel]
      simp only [hk, List.take_succ_cons, List.mem_cons, hne, false_or, hdrop,
        mem_dropLast_iff hlisted.entries hmem]
      simp [htext, hline, ← hk, hfull]
    · rw [List.take_of_length_le (by rw [List.length_cons]; omega)]
      simp [hmem, htext, hfull]

/-! ### The other operations -/

/-- A search finds entries. -/
theorem searchForward_spec (hplaced : h.Placed) (text : Text) : ∃ h' found,
    h.searchForward text = some (h', found) ∧ h'.Placed ∧
      h' = {h with searchPos := h'.searchPos} := by
  have hitems : ∃ items, (match h.searchPos with
      | none => some h.head
      | some pos => if pos ∈ h.head then some (behind h.head pos) else none) = some items ∧
      ∀ item ∈ items, item ∈ h.head := by
    cases hpos : h.searchPos with
    | none => exact ⟨h.head, rfl, fun _ hitem => hitem⟩
    | some pos =>
      refine ⟨_, if_pos (hplaced pos hpos), fun item hitem => ?_⟩
      exact (List.dropWhile_sublist _).subset (List.mem_of_mem_tail hitem)
  obtain ⟨items, hitems, hsub⟩ := hitems
  rw [searchForward, hitems, Option.map_some]
  cases hfind : items.find? fun item => text.isPrefixOf (h.text item) with
  | none => exact ⟨h, none, rfl, hplaced, rfl⟩
  | some item =>
    refine ⟨_, _, rfl, fun pos hpos => ?_, rfl⟩
    obtain rfl := Option.some.inj hpos
    exact hsub _ (List.mem_of_find?_eq_some hfind)

theorem searchBackward_spec (hplaced : h.Placed) (text : Text) : ∃ h' found,
    h.searchBackward text = some (h', found) ∧ h'.Placed ∧
      h' = {h with searchPos := h'.searchPos} := by
  rw [searchBackward]
  cases hpos : h.searchPos with
  | none => exact ⟨h, none, rfl, hplaced, rfl⟩
  | some pos =>
    simp only [if_pos (hplaced pos hpos)]
    cases hfind : (before h.head pos).reverse.find? fun item => text.isPrefixOf (h.text item) with
    | none => exact ⟨_, _, rfl, nofun, rfl⟩
    | some item =>
      refine ⟨_, _, rfl, fun pos' hpos' => ?_, rfl⟩
      obtain rfl := Option.some.inj hpos'
      exact (List.takeWhile_sublist _).subset
        (List.mem_reverse.mp (List.mem_of_find?_eq_some hfind))

/-! ### Loading -/

/-- What `history_load` makes of a file. -/
structure Loaded (h : History P) (file : List Text) (maxLines : Nat) : Prop where
  texts : h.texts = file.take maxLines
  entries : h.head.Nodup
  lines : h.lines = h.head.length
  maxLines : h.maxLines = maxLines
  searchPos : h.searchPos = none

theorem Loaded.addTail {file : List Text} {maxLines : Nat} (hloaded : Loaded h file maxLines)
    (line : Text) : Loaded (h.addTail malloc line) (file ++ [line]) maxLines := by
  obtain ⟨htexts, hentries, hlines, hmax, hpos⟩ := hloaded
  have hlength : h.head.length = min maxLines file.length := by
    rw [← List.length_take, ← htexts, History.texts, List.length_map]
  rw [History.addTail]
  by_cases hroom : h.lines < h.maxLines
  · have hshort : file.length < maxLines := by omega
    rw [if_pos hroom]
    refine ⟨?_, ?_, ?_, hmax, hpos⟩
    · have hkeep : h.head.map (Function.update h.text (malloc.new h.head) line) = h.texts :=
        List.map_congr_left fun item hitem => text_new hitem
      rw [List.take_of_length_le (by simp; omega)]
      rw [List.take_of_length_le (by omega)] at htexts
      simp only [History.texts, List.map_append, hkeep, List.map_cons, List.map_nil,
        Function.update_self]
      exact congrArg (· ++ [line]) htexts
    · exact List.nodup_append.mpr ⟨hentries, List.nodup_singleton _, fun a ha b hb hab => by
        rw [List.mem_singleton.mp hb] at hab
        exact malloc.fresh h.head (hab ▸ ha)⟩
    · simp only [List.length_append, List.length_singleton]
      omega
  · rw [if_neg hroom]
    refine ⟨?_, hentries, hlines, hmax, hpos⟩
    rw [htexts, List.take_append_of_le_length (by omega)]

variable (malloc) in
theorem load_loaded (memory : P → Text) (file : List Text) (maxLines : Nat) :
    Loaded (load malloc memory file maxLines) file maxLines := by
  induction file using List.reverseRecOn with
  | nil => exact ⟨by simp [load, History.texts], List.nodup_nil, rfl, rfl, rfl⟩
  | append_singleton file line ih =>
    rw [load, List.foldl_append]
    exact ih.addTail line

variable (malloc) in
theorem load_listed_iff (memory : P → Text) (file : List Text) (maxLines : Nat) :
    (load malloc memory file maxLines).Listed ↔ (file.take maxLines).Nodup := by
  have hloaded := load_loaded malloc memory file maxLines
  have hlength : (load malloc memory file maxLines).head.length ≤ maxLines := by
    have := congrArg List.length hloaded.texts
    rw [History.texts, List.length_map, List.length_take] at this
    omega
  constructor
  · intro h
    exact hloaded.texts ▸ h.distinct
  · intro h
    exact ⟨hloaded.entries, hloaded.texts ▸ h, hloaded.lines, hloaded.maxLines.symm ▸ hlength⟩

end History
end GracefulMusic.CommandLine
