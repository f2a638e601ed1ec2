import GracefulMusic.Queue.Adding
import Mathlib.Data.List.Sort

/-! The order of what is prepended.

A job asks for its files backwards when it prepends, but the tracks of one file come in
the same order both ways. -/
namespace GracefulMusic.Queue
open GracefulMusic.Pl

variable {T : Type} (files : Files T)

/-! ### Results -/

/-- What is flushed and what is in the buffer are the tracks so far. -/
theorem foldl_addTi (tracks : List T) (s : List (List T) × List T) :
    (tracks.foldl addTi s).1.flatten ++ (tracks.foldl addTi s).2 =
      s.1.flatten ++ s.2 ++ tracks := by
  induction tracks generalizing s with
  | nil => exact (List.append_nil _).symm
  | cons ti tracks ih =>
    rw [List.foldl_cons, ih, addTi]
    split <;> simp

theorem addJob_flatten (tracks : List T) : (addJob tracks).flatten = tracks := by
  have hall := foldl_addTi tracks ([], [])
  rw [List.flatten_nil, List.nil_append, List.nil_append] at hall
  simp only [addJob]
  split
  · rename_i hempty
    rwa [hempty, List.append_nil] at hall
  · rw [List.flatten_append, List.flatten_singleton]
    exact hall

theorem handleResults_eq (add : List T → T → List T) (tracks : List T) (queue : List T) :
    handleResults add (addJob tracks) queue = tracks.foldl add queue := by
  rw [handleResults, ← List.foldl_flatten, addJob_flatten]

theorem foldl_append (tracks queue : List T) :
    tracks.foldl playQueueAppend queue = queue ++ tracks := by
  induction tracks generalizing queue with
  | nil => exact (List.append_nil _).symm
  | cons ti tracks ih =>
    rw [List.foldl_cons, ih, playQueueAppend, List.append_assoc]
    rfl

theorem foldl_prepend (tracks queue : List T) :
    tracks.foldl playQueuePrepend queue = tracks.reverse ++ queue := by
  induction tracks generalizing queue with
  | nil => rfl
  | cons ti tracks ih =>
    rw [List.foldl_cons, ih, playQueuePrepend, List.reverse_cons, List.append_assoc]
    rfl

/-- The order is kept where the tracks that are prepended are those that are appended,
backwards. -/
theorem keepsOrder_iff (request : Request) :
    KeepsOrder files request ↔ ∀ rounds appended prepended,
      addTracks files rounds false request = some appended →
      addTracks files rounds true request = some prepended → prepended.reverse = appended := by
  have hqueue (rounds : Nat) (prepend : Bool) (queue : List T) :
      queueAfter files rounds prepend request queue =
        (addTracks files rounds prepend request).map fun tracks =>
          if prepend then tracks.reverse ++ queue else queue ++ tracks := by
    rw [queueAfter]
    congr 1
    funext tracks
    rw [handleResults_eq]
    cases prepend with
    | false => exact foldl_append tracks queue
    | true => exact foldl_prepend tracks queue
  constructor
  · intro h rounds appended prepended happend hprepend
    have hboth := h rounds [] appended prepended.reverse
      (by rw [hqueue, happend]; rfl)
      (by rw [hqueue, hprepend, Option.map_some, if_pos rfl, List.append_nil])
    rwa [List.append_nil] at hboth
  · intro h rounds old appended prepended happend hprepend
    rw [hqueue] at happend hprepend
    obtain ⟨a, ha, happended⟩ := Option.map_eq_some_iff.mp happend
    obtain ⟨p, hp, hprepended⟩ := Option.map_eq_some_iff.mp hprepend
    rw [← happended, ← hprepended, if_pos rfl, h rounds a p ha hp]
    rfl

/-! ### Pieces -/

/-- Rows of equal lengths that are equal as a whole are equal piece by piece. -/
theorem flatMap_inj {α β : Type} {f g : α → List β} (hlength : ∀ x, (f x).length = (g x).length)
    (l : List α) : l.flatMap f = l.flatMap g ↔ ∀ x ∈ l, f x = g x := by
  induction l with
  | nil => exact iff_of_true rfl (fun x hx => absurd hx List.not_mem_nil)
  | cons x l ih =>
    rw [List.flatMap_cons, List.flatMap_cons, List.forall_mem_cons, ← ih]
    constructor
    · intro h
      exact List.append_inj h (hlength x)
    · intro h
      rw [h.1, h.2]

/-- What is asked for backwards has its tracks the right way round where each has tracks
that are the same backwards. -/
theorem reverse_flatMap_iff {α : Type} (tracks : α → List T) (l : List α) :
    (l.reverse.flatMap tracks).reverse = l.flatMap tracks ↔ ∀ x ∈ l, Symmetric (tracks x) := by
  rw [List.reverse_flatMap, List.reverse_reverse]
  exact flatMap_inj (fun x => List.length_reverse) l

/-! ### Directories -/

theorem addEntries_names (prepend : Bool) (path : Text) (entries : List (FileName × Node)) :
    ((addEntries prepend path entries).map (·.1)).Sublist (entries.map (·.1)) := by
  induction entries with
  | nil => exact List.Sublist.slnil
  | cons entry entries ih =>
    rw [addEntries]
    split
    · exact ih.cons _
    · exact ih.cons_cons _

theorem entryLe_trans (prepend : Bool) (a b c : FileName × List Text) :
    entryLe prepend a b → entryLe prepend b c → entryLe prepend a c := by
  intro hab hbc
  cases prepend with
  | false =>
    have hab := of_decide_eq_true hab
    have hbc := of_decide_eq_true hbc
    exact decide_eq_true (strcmp_trans a.1.2 b.1.2 c.1.2 hab hbc)
  | true =>
    have hab := of_decide_eq_true hab
    have hbc := of_decide_eq_true hbc
    exact decide_eq_true (strcmp_trans c.1.2 b.1.2 a.1.2 hbc hab)

theorem entryLe_total (prepend : Bool) (a b : FileName × List Text) :
    entryLe prepend a b || entryLe prepend b a := by
  have hswap := strcmp_swap a.1.val b.1.val
  rw [Bool.or_eq_true]
  by_cases hab : strcmp a.1.val b.1.val ≤ 0
  · cases prepend with
    | false => exact .inl (decide_eq_true hab)
    | true => exact .inr (decide_eq_true hab)
  · have hba : strcmp b.1.val a.1.val ≤ 0 := by omega
    cases prepend with
    | false => exact .inr (decide_eq_true hba)
    | true => exact .inl (decide_eq_true hba)

/-- Two entries of one directory that are as good are the same. -/
theorem entryLe_antisymm {l : List (FileName × List Text)} (h : (l.map (·.1)).Nodup)
    {a b : FileName × List Text} (ha : a ∈ l) (hb : b ∈ l) (hab : entryLe false a b)
    (hba : entryLe false b a) : a = b := by
  have hab : strcmp a.1.val b.1.val ≤ 0 := of_decide_eq_true hab
  have hba : strcmp b.1.val a.1.val ≤ 0 := of_decide_eq_true hba
  have hswap := strcmp_swap a.1.val b.1.val
  have hname : a.1 = b.1 := by
    apply Subtype.ext
    apply (strcmp_eq_zero a.1.2 b.1.2).mp
    omega
  exact List.inj_on_of_nodup_map h ha hb hname

/-- Sorted the other way round, the entries are backwards. -/
theorem mergeSort_reverse {l : List (FileName × List Text)} (h : (l.map (·.1)).Nodup) :
    l.mergeSort (entryLe true) = (l.mergeSort (entryLe false)).reverse := by
  have hforward := List.pairwise_mergeSort (entryLe_trans false) (entryLe_total false) l
  have hbackward := List.pairwise_mergeSort (entryLe_trans true) (entryLe_total true) l
  have hperm : (l.mergeSort (entryLe true)).Perm (l.mergeSort (entryLe false)).reverse :=
    (List.mergeSort_perm l _).trans
      ((List.mergeSort_perm l _).symm.trans (List.reverse_perm _).symm)
  apply List.Perm.eq_of_pairwise _ hbackward (List.pairwise_reverse.mpr hforward) hperm
  intro a b ha hb hab hba
  have ha := (List.mergeSort_perm l _).mem_iff.mp ha
  have hb := (List.mergeSort_perm l _).mem_iff.mp (List.mem_reverse.mp hb)
  exact entryLe_antisymm h ha hb hba hab

/-- The files of each entry may be turned around before or after the entries are sorted. -/
theorem mergeSort_map (f : List Text → List Text) (prepend : Bool)
    (l : List (FileName × List Text)) :
    (l.map fun e => (e.1, f e.2)).mergeSort (entryLe prepend) =
      (l.mergeSort (entryLe prepend)).map fun e => (e.1, f e.2) := by
  symm
  apply List.map_mergeSort
  intro a _ b _
  rfl

mutual
/-- A prepend asks for the files of a directory backwards. -/
theorem addNode_reverse (path : Text) : ∀ node : Node, node.Distinct →
    addNode true path node = (addNode false path node).reverse
  | .file, _ => rfl
  | .dir entries, h => by
    rw [Node.Distinct] at h
    rw [addNode, addNode]
    split
    · rfl
    · have hnames := (addEntries_names false path entries).nodup h.1
      rw [addEntries_reverse path entries h.2, mergeSort_map List.reverse,
        mergeSort_reverse hnames, List.reverse_flatMap, List.flatMap_map]
      rfl

theorem addEntries_reverse (path : Text) : ∀ entries : List (FileName × Node),
    DistinctBelow entries →
    addEntries true path entries =
      (addEntries false path entries).map fun e => (e.1, e.2.reverse)
  | [], _ => rfl
  | (name, node) :: entries, h => by
    rw [DistinctBelow] at h
    rw [addEntries, addEntries, addEntries_reverse path entries h.2]
    split
    · rfl
    · rw [addNode_reverse _ node h.1, List.map_cons]
end

/-! ### Playlists -/

theorem exists_lines (buf : Text) : ∃ rows last, Lines buf rows last := by
  induction buf with
  | nil => exact ⟨[], [], rfl, fun row hrow => absurd hrow List.not_mem_nil, List.not_mem_nil⟩
  | cons c buf ih =>
    obtain ⟨rows, last, h⟩ := ih
    by_cases hc : c = ch '\n'
    · refine ⟨[] :: rows, last, ?_, ?_, h.last⟩
      · rw [hc, h.joined]
        rfl
      · exact List.forall_mem_cons.mpr ⟨List.not_mem_nil, h.rows⟩
    · cases rows with
      | nil =>
        refine ⟨[], c :: last, ?_, h.rows, ?_⟩
        · rw [h.joined]
          rfl
        · exact List.not_mem_cons_of_ne_of_not_mem (Ne.symm hc) h.last
      | cons row rows =>
        have hrows := List.forall_mem_cons.mp h.rows
        refine ⟨(c :: row) :: rows, last, ?_, ?_, h.last⟩
        · rw [h.joined]
          rfl
        · exact List.forall_mem_cons.mpr
            ⟨List.not_mem_cons_of_ne_of_not_mem (Ne.symm hc) hrows.1, hrows.2⟩

theorem savePlaylist_cons (row : Text) (rows : List Text) :
    savePlaylist (row :: rows) = row ++ ch '\n' :: savePlaylist rows := by
  simp [savePlaylist]

theorem savePlaylist_append (rows : List Text) (row : Text) :
    savePlaylist (rows ++ [row]) = savePlaylist rows ++ (row ++ [ch '\n']) := by
  simp [savePlaylist]

theorem savePlaylist_end (rows : List Text) :
    savePlaylist rows = [] ∨ (savePlaylist rows).getLast? = some (ch '\n') := by
  rcases List.eq_nil_or_concat rows with hnil | ⟨front, row, hconcat⟩
  · left
    rw [hnil]
    rfl
  · right
    rw [hconcat, List.concat_eq_append, savePlaylist_append, ← List.append_assoc,
      List.getLast?_concat]

theorem takeWhile_line {last : Text} (hlast : ch '\n' ∉ last) :
    last.takeWhile (· ≠ ch '\n') = last :=
  List.takeWhile_eq_self_iff.mpr fun _ hc => decide_eq_true fun h => hlast (h ▸ hc)

/-- A last line without a newline is a line, unless it is empty. -/
theorem forEachLine_rows {rows : List Text} {last : Text} (hrows : ∀ row ∈ rows, ch '\n' ∉ row)
    (hlast : ch '\n' ∉ last) {fuel : Nat}
    (hfuel : (savePlaylist rows ++ last).length ≤ fuel) :
    forEachLineLoop fuel (savePlaylist rows ++ last) =
      rows.map (fun row => toLine (stripCr row)) ++
        if last = [] then [] else [toLine (stripCr last)] := by
  induction rows generalizing fuel with
  | nil =>
    show forEachLineLoop fuel last = if last = [] then [] else [toLine (stripCr last)]
    cases last with
    | nil => cases fuel <;> rfl
    | cons c last =>
      obtain ⟨fuel, rfl⟩ : ∃ k, fuel = k + 1 := ⟨fuel - 1, by simp at hfuel; omega⟩
      rw [forEachLineLoop, if_neg (List.cons_ne_nil c last), if_neg (List.cons_ne_nil c last)]
      dsimp only
      rw [takeWhile_line hlast, List.drop_of_length_le (Nat.le_succ _)]
      cases fuel <;> rfl
  | cons row rows ih =>
    rw [savePlaylist_cons, List.append_assoc, List.cons_append] at hfuel ⊢
    rw [List.length_append, List.length_cons] at hfuel
    obtain ⟨fuel, rfl⟩ : ∃ k, fuel = k + 1 := ⟨fuel - 1, by omega⟩
    rw [forEachLineLoop_append (hrows row List.mem_cons_self),
      ih (fun r hr => hrows r (List.mem_cons_of_mem _ hr)) (by omega)]
    rfl

/-- No handler takes an empty line, or a lone carriage return for more than that. -/
def IgnoresBlank (handler : Text → Option Text) : Prop :=
  handler [] = none ∧ handler [ch '\r'] = none

theorem forEachLineReverse_rows {handler : Text → Option Text} (hblank : IgnoresBlank handler)
    {rows : List Text} (hrows : ∀ row ∈ rows, ch '\n' ∉ row) {fuel : Nat}
    (hfuel : (savePlaylist rows).length ≤ fuel) :
    (forEachLineReverseLoop fuel (savePlaylist rows)).filterMap handler =
      (rows.map fun row => toLine (stripCr row)).reverse.filterMap handler := by
  induction rows using List.reverseRecOn generalizing fuel with
  | nil => cases fuel <;> rfl
  | append_singleton rows row ih =>
    have hrow := hrows row (List.mem_append_right _ List.mem_cons_self)
    rw [savePlaylist_append] at hfuel ⊢
    rw [List.length_append, List.length_append, List.length_singleton] at hfuel
    obtain ⟨fuel, rfl⟩ : ∃ k, fuel = k + 1 := ⟨fuel - 1, by omega⟩
    rw [List.map_append, List.reverse_append]
    -- in front of all others, a lone carriage return is not dropped
    by_cases hlone : rows = [] ∧ row = [ch '\r']
    · rw [hlone.1, hlone.2]
      have hline : forEachLineReverseLoop (fuel + 1) (savePlaylist [] ++ ([ch '\r'] ++ [ch '\n'])) =
          [ch '\r'] :: forEachLineReverseLoop fuel [] := rfl
      have hend : forEachLineReverseLoop fuel [] = [] := by cases fuel <;> rfl
      rw [hline, hend, List.filterMap_cons_none hblank.2]
      exact (List.filterMap_cons_none hblank.1).symm
    · have hcr (hend : row.getLast? = some (ch '\r')) :
          2 ≤ (savePlaylist rows).length + row.length := by
        obtain ⟨init, hinit⟩ := List.getLast?_eq_some_iff.mp hend
        rw [hinit, List.length_append, List.length_singleton]
        cases rows with
        | nil =>
          have hne : init ≠ [] := fun h => hlone ⟨rfl, by rw [hinit, h]; rfl⟩
          have hpos := List.length_pos_iff.mpr hne
          omega
        | cons r rows =>
          rw [savePlaylist_cons, List.length_append, List.length_cons]
          omega
      rw [forEachLineReverseLoop_append hrow hcr (savePlaylist_end rows), List.map_singleton,
        List.reverse_singleton, List.singleton_append, List.filterMap_cons, List.filterMap_cons,
        ih (fun r hr => hrows r (List.mem_append_left _ hr)) (by omega)]

/-- The last byte of a last line without a newline is left out. -/
theorem forEachLineReverse_last (rows : List Text) {last : Text} (hlast : ch '\n' ∉ last)
    (hne : last ≠ []) (fuel : Nat) :
    forEachLineReverseLoop (fuel + 1) (savePlaylist rows ++ last) =
      toLine last.dropLast :: forEachLineReverseLoop fuel (savePlaylist rows) := by
  have hend : (savePlaylist rows ++ last).getLast? ≠ some (ch '\n') := by
    rw [List.getLast?_append_of_ne_nil _ hne]
    intro h
    exact hlast (List.mem_of_getLast? h)
  have hclean : ∀ c ∈ last.dropLast, decide (c ≠ ch '\n') = true := by
    intro c hc
    exact decide_eq_true (fun h => hlast (h ▸ List.mem_of_mem_dropLast hc))
  have hstop : savePlaylist rows = [] ∨
      ∃ c, (savePlaylist rows).getLast? = some c ∧ decide (c ≠ ch '\n') = false :=
    (savePlaylist_end rows).imp_right fun hnl => ⟨_, hnl, by decide⟩
  obtain ⟨htake, hrest⟩ := rtakeWhile_append hclean hstop
  have hdrop : (savePlaylist rows ++ last).dropLast = savePlaylist rows ++ last.dropLast :=
    List.dropLast_append_of_ne_nil hne
  rw [forEachLineReverseLoop, if_neg (List.append_ne_nil_of_right_ne_nil _ hne)]
  dsimp only
  rw [if_neg (fun h => hend h.2.1), hdrop, htake, hrest]

theorem handlerOf_blank (buf : Text) : IgnoresBlank (handlerOf buf) := by
  rw [handlerOf]
  split
  · exact ⟨rfl, rfl⟩
  · exact ⟨by decide, by decide⟩

/-- The tracks of lines that were read. -/
theorem flatMap_handled (filename : Text) (handler : Text → Option Text) (lines : List Text) :
    ((lines.filterMap handler).map (handleLine (filename ++ ascii "/.."))).flatMap
        (addFile files false) =
      lines.flatMap fun line => (handler line).toList.flatMap fun name =>
        addFile files false (handleLine (filename ++ ascii "/..") name) := by
  induction lines with
  | nil => rfl
  | cons line lines ih =>
    rw [List.flatMap_cons, ← ih]
    cases hline : handler line with
    | none => rw [List.filterMap_cons_none hline]; rfl
    | some name => rw [List.filterMap_cons_some hline]; simp

theorem addPl_forward {filename buf : Text} {rows : List Text} {last : Text}
    (h : Lines buf rows last) :
    (addPl filename buf false).flatMap (addFile files false) =
      rows.flatMap (fun row => lineTracks files filename (handlerOf buf) (stripCr row)) ++
        lineTracks files filename (handlerOf buf) (stripCr last) := by
  have hlines : bufferForEachLine buf = rows.map (fun row => toLine (stripCr row)) ++
      if last = [] then [] else [toLine (stripCr last)] := by
    rw [bufferForEachLine, h.joined]
    exact forEachLine_rows h.rows h.last (Nat.le_refl _)
  show (((bufferForEachLine buf).filterMap (handlerOf buf)).map _).flatMap _ = _
  rw [flatMap_handled, hlines, List.flatMap_append, List.flatMap_map]
  congr 1
  split
  · rename_i hempty
    rw [hempty, lineTracks, show toLine (stripCr []) = [] from rfl, (handlerOf_blank buf).1]
    rfl
  · exact List.flatMap_singleton ..

theorem addPl_backward {filename buf : Text} {rows : List Text} {last : Text}
    (h : Lines buf rows last) :
    (addPl filename buf true).flatMap (addFile files false) =
      lineTracks files filename (handlerOf buf) last.dropLast ++
        rows.reverse.flatMap fun row =>
          lineTracks files filename (handlerOf buf) (stripCr row) := by
  have hrows {fuel : Nat} (hfuel : (savePlaylist rows).length ≤ fuel) :
      (((forEachLineReverseLoop fuel (savePlaylist rows)).filterMap (handlerOf buf)).map
        (handleLine (filename ++ ascii "/.."))).flatMap (addFile files false) =
        rows.reverse.flatMap fun row =>
          lineTracks files filename (handlerOf buf) (stripCr row) := by
    rw [forEachLineReverse_rows (handlerOf_blank buf) h.rows hfuel, flatMap_handled,
      ← List.map_reverse, List.flatMap_map]
    rfl
  show (((bufferForEachLineReverse buf).filterMap (handlerOf buf)).map _).flatMap _ = _
  rw [bufferForEachLineReverse]
  by_cases hempty : last = []
  · have hblank : lineTracks files filename (handlerOf buf) last.dropLast = [] := by
      rw [hempty, lineTracks, show toLine ([] : Text).dropLast = [] from rfl,
        (handlerOf_blank buf).1]
      rfl
    have hbuf : buf = savePlaylist rows := by rw [h.joined, hempty, List.append_nil]
    rw [hblank, List.nil_append, ← hrows (Nat.le_refl _), ← hbuf]
  · have hlength : buf.length = (savePlaylist rows).length + last.length := by
      rw [h.joined, List.length_append]
    have hpos := List.length_pos_iff.mpr hempty
    obtain ⟨fuel, hfuel⟩ : ∃ k, buf.length = k + 1 := ⟨buf.length - 1, by omega⟩
    have hloop := forEachLineReverse_last rows h.last hempty fuel
    rw [← h.joined] at hloop
    rw [hfuel, hloop, ← List.singleton_append, List.filterMap_append, List.map_append,
      List.flatMap_append, hrows (by omega), flatMap_handled]
    congr 1
    exact List.flatMap_singleton ..

/-! ### The queue -/

/-- A job that is done whatever its loops take. -/
theorem keepsOrder_of_tracks {request : Request} {appended prepended : List T}
    (ha : ∀ rounds, addTracks files rounds false request = some appended)
    (hp : ∀ rounds, addTracks files rounds true request = some prepended) :
    KeepsOrder files request ↔ prepended.reverse = appended := by
  rw [keepsOrder_iff]
  constructor
  · intro h
    exact h 0 appended prepended (ha 0) (hp 0)
  · intro h rounds a p happend hprepend
    rw [← Option.some.inj ((ha rounds).symm.trans happend),
      ← Option.some.inj ((hp rounds).symm.trans hprepend)]
    exact h

/-- Prepending keeps the order exactly where the tracks of each name are the same
backwards and the last byte of a playlist makes no difference. -/
theorem prepend_keeps_order (request : Request) :
    KeepsOrder files request ↔ ReadsBothWays files request := by
  cases request with
  | url name => exact keepsOrder_of_tracks files (fun _ => rfl) (fun _ => rfl)
  | file name force => exact keepsOrder_of_tracks files (fun _ => rfl) (fun _ => rfl)
  | cdda name =>
    rw [keepsOrder_iff]
    constructor
    · intro h rounds names hnames
      apply h rounds <;> rw [addTracks, hnames, Option.map_some]
    · intro h rounds appended prepended happend hprepend
      obtain ⟨names, hnames, happended⟩ := Option.map_eq_some_iff.mp happend
      rw [addTracks, hnames, Option.map_some, Option.some.injEq] at hprepend
      rw [← happended, ← hprepend]
      exact h rounds names hnames
  | dir name entries distinct =>
    rw [keepsOrder_of_tracks files (fun _ => rfl) (fun _ => rfl), addNode_reverse _ _ distinct]
    exact reverse_flatMap_iff (addFile files false) _
  | pl name buf =>
    rw [keepsOrder_of_tracks files (fun _ => rfl) (fun _ => rfl)]
    -- the rows have as many tracks both ways
    have hparts {rows : List Text} {last : Text} (hlines : Lines buf rows last) :
        ((addPl name buf true).flatMap (addFile files false)).reverse =
            (addPl name buf false).flatMap (addFile files false) ↔
          (∀ row ∈ rows, Symmetric (lineTracks files name (handlerOf buf) (stripCr row))) ∧
            (lineTracks files name (handlerOf buf) last.dropLast).reverse =
              lineTracks files name (handlerOf buf) (stripCr last) := by
      rw [addPl_forward files hlines, addPl_backward files hlines, List.reverse_append,
        ← reverse_flatMap_iff]
      constructor
      · intro h
        apply List.append_inj h
        rw [List.reverse_flatMap, List.reverse_reverse, List.length_flatMap, List.length_flatMap]
        simp
      · intro h
        rw [h.1, h.2]
    constructor
    · intro h rows last hlines
      exact (hparts hlines).mp h
    · intro h
      obtain ⟨rows, last, hlines⟩ := exists_lines buf
      exact (hparts hlines).mpr (h rows last hlines)

/-- Two tracks of a cue sheet, and a track that is not found under a shorter name. -/
def sampleFiles : Files Nat where
  cached _ := false
  associatedCue filename :=
    if filename = ascii "/a.flac" then some (ascii "/a.cue", 2) else none
  cacheGetTi name _ :=
    if name = ascii "cue:///a.cue/1" then some 1
    else if name = ascii "cue:///a.cue/2" then some 2
    else if name = ascii "/b.ogg" then some 3
    else none
  counted := by
    intro filename cue n h
    split at h
    · obtain rfl := (Prod.mk.inj (Option.some.inj h)).2
      decide
    · cases h

/-- The tracks of a cue sheet are turned around, and the last line of a playlist is cut. -/
theorem prepended_backwards :
    (queueAfter sampleFiles 0 false (.file (ascii "/a.flac") false) [] = some [1, 2] ∧
        queueAfter sampleFiles 0 true (.file (ascii "/a.flac") false) [] = some [2, 1] ∧
        ¬ KeepsOrder sampleFiles (.file (ascii "/a.flac") false)) ∧
      queueAfter sampleFiles 0 false (.pl (ascii "/l.pl") (ascii "b.ogg")) [] = some [3] ∧
      queueAfter sampleFiles 0 true (.pl (ascii "/l.pl") (ascii "b.ogg")) [] = some [] ∧
      ¬ KeepsOrder sampleFiles (.pl (ascii "/l.pl") (ascii "b.ogg")) := by
  have hcue : queueAfter sampleFiles 0 false (.file (ascii "/a.flac") false) [] = some [1, 2] ∧
      queueAfter sampleFiles 0 true (.file (ascii "/a.flac") false) [] = some [2, 1] := by
    decide +kernel
  have hpl : queueAfter sampleFiles 0 false (.pl (ascii "/l.pl") (ascii "b.ogg")) [] =
        some [3] ∧
      queueAfter sampleFiles 0 true (.pl (ascii "/l.pl") (ascii "b.ogg")) [] = some [] := by
    decide +kernel
  refine ⟨⟨hcue.1, hcue.2, fun h => ?_⟩, hpl.1, hpl.2, fun h => ?_⟩
  · have hsame := h 0 [] _ _ hcue.1 hcue.2
    revert hsame
    decide
  · have hsame := h 0 [] _ _ hpl.1 hpl.2
    revert hsame
    decide

end GracefulMusic.Queue
