import Mathlib.Data.Finset.Card
import Mathlib.Data.List.Nodup
import Mathlib.Data.List.Range
import Mathlib.Data.List.Sort

/-! Random indexes (`command_mode.c`).

`rand_array` draws distinct numbers below a bound. Where more than half of them are wanted it
draws those that are not, and puts the others together in the same array. The numbers of `rand`
are a list; where more are needed there is no result, and none where something is read or
written beyond the array. -/
namespace GracefulMusic.RandomQueue

/-! ### The array -/

/-- `r[i] = v` -/
def setAt (r : List Nat) (i v : Nat) : Option (List Nat) :=
  if i < r.length then some (r.set i v) else none

/-- A number that is there already is drawn again. -/
def drawLoop (nmax offset count : Nat) :
    List Nat → Nat → List Nat → Option (List Nat × List Nat)
  | [], i, r => if i < count then none else some (r, [])
  | x :: rands, i, r =>
    if i < count then
      let v := x % nmax
      if (List.range i).any fun j => r[offset + j]? = some v then
        drawLoop nmax offset count rands i r
      else (setAt r (offset + i) v).bind (drawLoop nmax offset count rands (i + 1))
    else some (r, x :: rands)

/-- `qsort` of a part of the array. -/
def sortPart (r : List Nat) (offset count : Nat) : List Nat :=
  r.take offset ++ ((r.drop offset).take count).insertionSort (· ≤ ·) ++ r.drop (offset + count)

/-- `while (n < r[j]) r[i++] = n++` -/
def fillLoop (j : Nat) : Nat → List Nat → Nat → Nat → Option (List Nat × Nat × Nat)
  | 0, _, _, _ => none
  | fuel + 1, r, i, n =>
    r[j]?.bind fun bound =>
      if n < bound then (setAt r i n).bind fun r => fillLoop j fuel r (i + 1) (n + 1)
      else some (r, i, n)

/-- Convert the indexes that are not wanted to those that are. -/
def convertLoop (size nmax : Nat) : Nat → List Nat → Nat → Nat → Nat → Option (List Nat)
  | 0, _, _, _, _ => none
  | fuel + 1, r, i, j, n =>
    (fillLoop j (nmax + 1) r i n).bind fun (r, i, n) =>
      if i < size then convertLoop size nmax fuel r i (j + 1) (n + 1) else some r

/-- How many numbers are drawn. -/
def drawCount (size nmax : Nat) : Nat := if size > nmax / 2 then nmax - size else size

/-- With what the array holds at first and the numbers of `rand`; the first `size` numbers of
the array are the result. -/
def randArray (size nmax : Nat) (r rands : List Nat) : Option (List Nat × List Nat) :=
  let count := drawCount size nmax
  let offset := if size > nmax / 2 then size - count else 0
  (drawLoop nmax offset count rands 0 r).bind fun (r, rands) =>
    let r := sortPart r offset count
    if offset ≠ 0 then
      (setAt r size nmax).bind fun r =>
        (convertLoop size nmax (nmax + 1) r 0 offset 0).map fun r => (r, rands)
    else some (r, rands)

/-! ### What is drawn -/

/-- The first numbers that are not among those drawn, which they are added to. -/
def draw (nmax : Nat) : List Nat → Nat → List Nat → Option (List Nat × List Nat)
  | rands, 0, drawn => some (drawn, rands)
  | [], _ + 1, _ => none
  | x :: rands, n + 1, drawn =>
    if x % nmax ∈ drawn then draw nmax rands (n + 1) drawn
    else draw nmax rands n (drawn ++ [x % nmax])

/-- Numbers that `draw` may have drawn. -/
structure Drawn (nmax count : Nat) (drawn : List Nat) : Prop where
  nodup : drawn.Nodup
  below : ∀ v ∈ drawn, v < nmax
  length : drawn.length = count

theorem draw_drawn {nmax : Nat} (hnmax : 0 < nmax) {rands : List Nat} {n count : Nat}
    {drawn drawn' rest : List Nat} (h : Drawn nmax count drawn)
    (hdraw : draw nmax rands n drawn = some (drawn', rest)) : Drawn nmax (count + n) drawn' := by
  induction rands generalizing n count drawn with
  | nil =>
    cases n with
    | zero =>
      cases hdraw
      exact h
    | succ n => cases hdraw
  | cons x rands ih =>
    cases n with
    | zero =>
      cases hdraw
      exact h
    | succ n =>
      rw [draw] at hdraw
      split at hdraw
      · exact ih h hdraw
      · rename_i hnew
        have hnext : Drawn nmax (count + 1) (drawn ++ [x % nmax]) := by
          refine ⟨?_, ?_, ?_⟩
          · rw [List.nodup_append]
            refine ⟨h.nodup, List.nodup_singleton _, fun a ha b hb hab => ?_⟩
            rw [List.mem_singleton.mp hb] at hab
            exact hnew (hab ▸ ha)
          · intro v hv
            rcases List.mem_append.mp hv with hv | hv
            · exact h.below v hv
            · rw [List.mem_singleton.mp hv]
              exact Nat.mod_lt x hnmax
          · rw [List.length_append, h.length, List.length_singleton]
        have hcount : count + (n + 1) = count + 1 + n := by omega
        rw [hcount]
        exact ih hnext hdraw

/-- Drawing comes to an end with enough different remainders. -/
theorem draw_none (nmax : Nat) (rands : List Nat) (n : Nat) (drawn : List Nat) :
    draw nmax rands n drawn = none ↔
      ((rands.map (· % nmax)).toFinset \ drawn.toFinset).card < n := by
  induction rands generalizing n drawn with
  | nil => cases n <;> simp [draw]
  | cons x rands ih =>
    cases n with
    | zero => simp [draw]
    | succ n =>
      rw [draw, List.map_cons, List.toFinset_cons]
      split
      · rename_i hmem
        rw [ih, Finset.insert_sdiff_of_mem _ (List.mem_toFinset.mpr hmem)]
      · rename_i hnew
        have hnew' : x % nmax ∉ drawn.toFinset := fun h => hnew (List.mem_toFinset.mp h)
        have hset : insert (x % nmax) (rands.map (· % nmax)).toFinset \ drawn.toFinset =
            insert (x % nmax)
              ((rands.map (· % nmax)).toFinset \ (drawn ++ [x % nmax]).toFinset) := by
          ext v
          by_cases hv : v = x % nmax <;> simp_all
        rw [ih, hset, Finset.card_insert_of_notMem (by simp)]
        omega

/-- The part of the array that is drawn. -/
theorem drawLoop_eq (nmax : Nat) {offset count : Nat} {front : List Nat} (drawn back : List Nat)
    (hfront : front.length = offset) (hback : drawn.length + back.length ≥ count)
    (hdrawn : drawn.length ≤ count) (rands : List Nat) :
    drawLoop nmax offset count rands drawn.length (front ++ drawn ++ back) =
      (draw nmax rands (count - drawn.length) drawn).map fun (drawn', rest) =>
        (front ++ drawn' ++ back.drop (count - drawn.length), rest) := by
  induction rands generalizing drawn back with
  | nil =>
    rw [drawLoop]
    split
    · rename_i hlt
      obtain ⟨n, hn⟩ := Nat.exists_eq_add_of_lt hlt
      have hsub : count - drawn.length = n + 1 := by omega
      rw [hsub, draw]
      rfl
    · have hsub : count - drawn.length = 0 := by omega
      rw [hsub, draw]
      rfl
  | cons x rands ih =>
    rw [drawLoop]
    split
    · rename_i hlt
      have hsub : count - drawn.length = (count - (drawn.length + 1)) + 1 := by omega
      have hany : ((List.range drawn.length).any fun j =>
          (front ++ drawn ++ back)[offset + j]? = some (x % nmax)) = true ↔ x % nmax ∈ drawn := by
        rw [List.any_eq_true, List.mem_iff_getElem?]
        have hget {j : Nat} (hj : j < drawn.length) :
            (front ++ drawn ++ back)[offset + j]? = drawn[j]? := by
          rw [List.append_assoc, List.getElem?_append_right (by omega), hfront,
            Nat.add_sub_cancel_left, List.getElem?_append_left hj]
        constructor
        · rintro ⟨j, hj, heq⟩
          exact ⟨j, (hget (List.mem_range.mp hj)).symm.trans (by simpa using heq)⟩
        · rintro ⟨j, hj⟩
          have hlt := (List.getElem?_eq_some_iff.mp hj).1
          exact ⟨j, List.mem_range.mpr hlt, decide_eq_true ((hget hlt).trans hj)⟩
      rw [hsub, draw]
      dsimp only
      by_cases hmem : x % nmax ∈ drawn
      · rw [if_pos (hany.mpr hmem), if_pos hmem, ih drawn back hback hdrawn, hsub]
      · rw [if_neg (fun h => hmem (hany.mp h)), if_neg hmem]
        cases back with
        | nil =>
          rw [List.length_nil] at hback
          omega
        | cons b back =>
          have hset : setAt (front ++ drawn ++ b :: back) (offset + drawn.length) (x % nmax) =
              some (front ++ (drawn ++ [x % nmax]) ++ back) := by
            rw [setAt, if_pos (by simp [hfront]), List.append_assoc, List.set_append_right _ _
              (by omega), hfront, Nat.add_sub_cancel_left, List.set_append_right _ _ le_rfl,
              Nat.sub_self, List.set_cons_zero]
            simp
          have hlength : (drawn ++ [x % nmax]).length = drawn.length + 1 := by simp
          rw [hset, Option.bind_some]
          have hih := ih (drawn ++ [x % nmax]) back
            (by rw [hlength]; simp only [List.length_cons] at hback; omega) (by omega)
          rw [hlength] at hih
          rw [hih]
          have hdrop : (b :: back).drop (count - (drawn.length + 1) + 1) =
              back.drop (count - (drawn.length + 1)) := rfl
          rw [hdrop]
    · have hsub : count - drawn.length = 0 := by omega
      rw [hsub, draw]
      rfl

/-! ### What is left out -/

/-- The numbers that the conversion skips, where `limit` is the number at which it comes to the
first one that it has not read: it overwrites that one then. -/
def skips : Nat → List Nat → List Nat
  | _, [] => []
  | limit, u :: us => min u limit :: skips (limit + 2) us

theorem skips_length (limit : Nat) (us : List Nat) : (skips limit us).length = us.length := by
  induction us generalizing limit with
  | nil => rfl
  | cons u us ih => rw [skips, List.length_cons, List.length_cons, ih]

theorem lt_skips {limit s : Nat} {us : List Nat} (hlimit : s < limit) (hus : ∀ u ∈ us, s < u) :
    ∀ v ∈ skips limit us, s < v := by
  induction us generalizing limit with
  | nil =>
    intro v hv
    cases hv
  | cons u us ih =>
    intro v hv
    rcases List.mem_cons.mp hv with rfl | hv
    · exact lt_min (hus u List.mem_cons_self) hlimit
    · exact ih (by omega) (fun u' hu' => hus u' (List.mem_cons_of_mem u hu')) v hv

/-- The numbers of a range that are not skipped. -/
def kept (n len : Nat) (skipped : List Nat) : List Nat :=
  (List.range' n len).filter fun v => v ∉ skipped

theorem kept_nil (n len : Nat) : kept n len [] = List.range' n len := by
  simp [kept]

/-- Up to the first skipped number all are kept. -/
theorem kept_cons {n len s : Nat} {skipped : List Nat} (hs : n ≤ s) (hlen : s < n + len)
    (hskipped : ∀ v ∈ skipped, s < v) :
    kept n len (s :: skipped) =
      List.range' n (s - n) ++ kept (s + 1) (n + len - (s + 1)) skipped := by
  have hrange : List.range' n len =
      List.range' n (s - n) ++ s :: List.range' (s + 1) (n + len - (s + 1)) := by
    have hsplit : len = (s - n) + ((n + len - (s + 1)) + 1) := by omega
    conv_lhs => rw [hsplit, ← List.range'_append_1, List.range'_succ]
    rw [show n + (s - n) = s by omega]
  have hbelow : (List.range' n (s - n)).filter (fun v => v ∉ s :: skipped) =
      List.range' n (s - n) := by
    apply List.filter_eq_self.mpr
    intro v hv
    have hv' := List.mem_range'_1.mp hv
    have hnot : v ∉ s :: skipped := by
      rw [List.mem_cons, not_or]
      exact ⟨by omega, fun h => absurd (hskipped v h) (by omega)⟩
    simpa using hnot
  have habove : (List.range' (s + 1) (n + len - (s + 1))).filter (fun v => v ∉ s :: skipped) =
      kept (s + 1) (n + len - (s + 1)) skipped := by
    apply List.filter_congr
    intro v hv
    have hv' := List.mem_range'_1.mp hv
    have hne : v ≠ s := by omega
    simp [hne]
  rw [kept, hrange, List.filter_append, hbelow, List.filter_cons_of_neg (by simp), habove]

/-! ### The conversion -/

/-- What the inner loop writes, where it comes no further than the number that bounds it. -/
theorem fillLoop_spec (fuel : Nat) {j : Nat} {r : List Nat} {i n u : Nat} (hij : i ≤ j)
    (hu : r[j]? = some u) (hnu : n ≤ u) (hfuel : u - n < fuel) :
    ∃ r', fillLoop j fuel r i n =
        some (r', i + (min u (n + (j - i) + 1) - n), min u (n + (j - i) + 1)) ∧
      r'.length = r.length ∧
      r'.take (i + (min u (n + (j - i) + 1) - n)) =
        r.take i ++ List.range' n (min u (n + (j - i) + 1) - n) ∧
      r'.drop (j + 1) = r.drop (j + 1) := by
  induction fuel generalizing r i n with
  | zero => omega
  | succ fuel ih =>
    have hj := (List.getElem?_eq_some_iff.mp hu).1
    rw [fillLoop, hu, Option.bind_some]
    by_cases hlt : n < u
    · rw [if_pos hlt, setAt, if_pos (by omega), Option.bind_some]
      have htake : (r.set i n).take (i + 1) = r.take i ++ [n] := by
        rw [List.take_set, List.take_succ_eq_append_getElem (by omega),
          List.set_append_right _ _ (List.length_take_le _ _)]
        simp [Nat.min_eq_left (show i ≤ r.length by omega)]
      rcases hij.lt_or_eq with hlt' | rfl
      · have hu' : (r.set i n)[j]? = some u := by
          rw [List.getElem?_set_ne (by omega), hu]
        obtain ⟨r', hfill, hlength, htake', hdrop⟩ :=
          ih (i := i + 1) (n := n + 1) hlt' hu' hlt (by omega)
        have hs : n + 1 + (j - (i + 1)) + 1 = n + (j - i) + 1 := by omega
        rw [hs] at hfill htake'
        have hi : i + 1 + (min u (n + (j - i) + 1) - (n + 1)) =
            i + (min u (n + (j - i) + 1) - n) := by omega
        rw [hi] at hfill htake'
        refine ⟨r', hfill, by rw [hlength, List.length_set], ?_, ?_⟩
        · have hrange : min u (n + (j - i) + 1) - n =
              (min u (n + (j - i) + 1) - (n + 1)) + 1 := by omega
          rw [htake', htake, hrange, List.range'_succ, List.append_assoc, List.singleton_append]
        · rw [hdrop, List.drop_set_of_lt (by omega)]
      · have hu' : (r.set i n)[i]? = some n := List.getElem?_set_self hj
        have hs : min u (n + (i - i) + 1) = n + 1 := by omega
        rw [hs, Nat.add_sub_cancel_left]
        cases fuel with
        | zero => omega
        | succ fuel =>
          refine ⟨r.set i n, ?_, List.length_set, htake, List.drop_set_of_lt (by omega)⟩
          rw [fillLoop, hu', Option.bind_some, if_neg (by omega)]
    · have hs : min u (n + (j - i) + 1) = n := by omega
      rw [if_neg hlt, hs, Nat.sub_self]
      exact ⟨r, rfl, rfl, by simp, rfl⟩

/-- The conversion from an index on, where `us` are the numbers that are not wanted and not yet
passed. -/
theorem convertLoop_spec {size nmax : Nat} (fuel : Nat) {r us : List Nat} {i j n : Nat}
    (hij : i ≤ j) (hlength : r.length = size + 1) (hdrop : r.drop j = us ++ [nmax])
    (hcount : n + (size - i) + us.length = nmax) (hi : i ≤ size)
    (hsorted : us.Pairwise (· < ·)) (hus : ∀ u ∈ us, n ≤ u ∧ u < nmax)
    (hfuel : nmax - n < fuel) :
    ∃ r', convertLoop size nmax fuel r i j n = some r' ∧ r'.length = size + 1 ∧
      r'.take size =
        r.take i ++ kept n (nmax - n) (skips (n + (j - i) + 1) us) := by
  have hsize : j + us.length = size := by
    have h := congrArg List.length hdrop
    rw [List.length_drop, List.length_append, List.length_singleton] at h
    omega
  obtain ⟨fuel, rfl⟩ : ∃ f, fuel = f + 1 := ⟨fuel - 1, by omega⟩
  induction us generalizing fuel r i j n with
  | nil =>
    have hget : r[j]? = some nmax := by
      rw [← List.head?_drop, hdrop, List.nil_append, List.head?_cons]
    rw [List.length_nil] at hcount hsize
    obtain ⟨r', hfill, hlength', htake, -⟩ :=
      fillLoop_spec (nmax + 1) (n := n) hij hget (by omega) (by omega)
    have hs : min nmax (n + (j - i) + 1) = nmax := by omega
    have hlast : i + (nmax - n) = size := by omega
    rw [hs, hlast] at hfill htake
    rw [convertLoop, hfill, Option.bind_some]
    dsimp only
    rw [if_neg (lt_irrefl size)]
    exact ⟨r', rfl, hlength'.trans hlength, by rw [htake, skips, kept_nil]⟩
  | cons u us ih =>
    have hget : r[j]? = some u := by
      rw [← List.head?_drop, hdrop, List.cons_append, List.head?_cons]
    obtain ⟨hnu, hnmax⟩ := hus u List.mem_cons_self
    obtain ⟨hlater, hsorted'⟩ := List.pairwise_cons.mp hsorted
    rw [List.length_cons] at hcount hsize
    obtain ⟨r', hfill, hlength', htake, hdrop'⟩ :=
      fillLoop_spec (nmax + 1) hij hget hnu (by omega)
    obtain ⟨s, hs⟩ : ∃ s, s = min u (n + (j - i) + 1) := ⟨_, rfl⟩
    rw [← hs] at hfill htake
    have hkept : kept n (nmax - n) (skips (n + (j - i) + 1) (u :: us)) =
        List.range' n (s - n) ++
          kept (s + 1) (nmax - (s + 1)) (skips (n + (j - i) + 1 + 2) us) := by
      rw [skips, ← hs, kept_cons (by omega) (by omega)]
      · rw [show n + (nmax - n) - (s + 1) = nmax - (s + 1) by omega]
      · exact lt_skips (by omega) fun v hv => by
          have := hlater v hv
          omega
    rw [convertLoop, hfill, Option.bind_some, hkept, ← List.append_assoc, ← htake]
    dsimp only
    split
    · rename_i hmore
      have hnext : r'.drop (j + 1) = us ++ [nmax] := by
        rw [hdrop', ← List.tail_drop, hdrop, List.cons_append, List.tail_cons]
      have hlimit : n + (j - i) + 1 + 2 = s + 1 + (j + 1 - (i + (s - n))) + 1 := by omega
      rw [hlimit]
      obtain ⟨fuel', rfl⟩ : ∃ f, fuel = f + 1 := ⟨fuel - 1, by omega⟩
      exact ih (by omega) (hlength'.trans hlength) hnext (by omega) (by omega) hsorted'
        (fun v hv => ⟨hlater v hv |>.trans_le' (by omega), (hus v (List.mem_cons_of_mem u hv)).2⟩)
        (by omega) _ (by omega)
    · rename_i hdone
      have hlast : i + (s - n) = size := by omega
      refine ⟨r', rfl, hlength'.trans hlength, ?_⟩
      rw [show nmax - (s + 1) = 0 by omega, hlast]
      simp [kept]

/-! ### The result -/

def sorted (drawn : List Nat) : List Nat := drawn.insertionSort (· ≤ ·)

/-- The indexes that come of the numbers drawn. -/
def chosen (size nmax : Nat) (drawn : List Nat) : List Nat :=
  if size > nmax / 2 then kept 0 nmax (skips (2 * size - nmax + 1) (sorted drawn))
  else sorted drawn

theorem Drawn.increasing {nmax count : Nat} {drawn : List Nat} (h : Drawn nmax count drawn) :
    (sorted drawn).Pairwise (· < ·) ∧ (∀ v ∈ sorted drawn, v < nmax) ∧
      (sorted drawn).length = count := by
  have hperm : (sorted drawn).Perm drawn := List.perm_insertionSort ..
  refine ⟨?_, fun v hv => h.below v (hperm.subset hv), hperm.length_eq.trans h.length⟩
  have hle : (sorted drawn).Pairwise (· ≤ ·) := List.pairwise_insertionSort ..
  exact (hle.and (hperm.nodup_iff.mpr h.nodup)).imp fun hab => lt_of_le_of_ne hab.1 hab.2

theorem sortPart_eq {front drawn back : List Nat} {offset count : Nat}
    (hfront : front.length = offset) (hdrawn : drawn.length = count) :
    sortPart (front ++ drawn ++ back) offset count = front ++ sorted drawn ++ back := by
  rw [sortPart, List.append_assoc front drawn, ← List.drop_drop, List.take_left' hfront,
    List.drop_left' hfront, List.take_left' hdrawn, List.drop_left' hdrawn, sorted]

theorem convert_eq {size nmax : Nat} {drawn front : List Nat} (hinverted : nmax / 2 < size)
    (hle : size ≤ nmax) (h : Drawn nmax (nmax - size) drawn)
    (hfront : front.length = 2 * size - nmax) :
    ∃ r, convertLoop size nmax (nmax + 1) (front ++ sorted drawn ++ [nmax]) 0
        (2 * size - nmax) 0 = some r ∧ r.length = size + 1 ∧
      r.take size = chosen size nmax drawn := by
  obtain ⟨hsorted, hbelow, hlength⟩ := h.increasing
  have hfull : (front ++ sorted drawn ++ [nmax]).length = size + 1 := by
    rw [List.length_append, List.length_append, hfront, hlength, List.length_singleton]
    omega
  have hdrop : (front ++ sorted drawn ++ [nmax]).drop (2 * size - nmax) =
      sorted drawn ++ [nmax] := by
    rw [List.append_assoc, List.drop_left' hfront]
  obtain ⟨r, hr, hlength', htake⟩ := convertLoop_spec (nmax + 1)
    (i := 0) (n := 0) (Nat.zero_le _) hfull hdrop (by omega) (Nat.zero_le size) hsorted
    (fun u hu => ⟨Nat.zero_le u, hbelow u hu⟩) (by omega)
  refine ⟨r, hr, hlength', ?_⟩
  rw [htake, chosen, if_pos hinverted]
  simp

/-- The array is what comes of the numbers that are drawn, and nothing stands in the way. -/
theorem randArray_eq {size nmax : Nat} (hle : size ≤ nmax) (hnmax : 0 < nmax) {r : List Nat}
    (hr : r.length = size + 1) (rands : List Nat) :
    (draw nmax rands (drawCount size nmax) [] = none ∧ randArray size nmax r rands = none) ∨
    ∃ drawn rest r', draw nmax rands (drawCount size nmax) [] = some (drawn, rest) ∧
      randArray size nmax r rands = some (r', rest) ∧ r'.length = size + 1 ∧
      r'.take size = chosen size nmax drawn := by
  have hloop (offset count : Nat) (hsum : offset + count = size) :
      drawLoop nmax offset count rands 0 r = (draw nmax rands count []).map fun (drawn, rest) =>
        (r.take offset ++ drawn ++ r.drop size, rest) := by
    have hsplit : r.take offset ++ [] ++ r.drop offset = r := by
      rw [List.append_nil, List.take_append_drop]
    have hback : ([] : List Nat).length + (r.drop offset).length ≥ count := by
      rw [List.length_drop, List.length_nil]
      omega
    have hfront : (r.take offset).length = offset := List.length_take_of_le (by omega)
    have h := drawLoop_eq nmax [] (r.drop offset) hfront hback (Nat.zero_le _) rands
    rw [hsplit, List.length_nil, Nat.sub_zero, List.drop_drop, hsum] at h
    exact h
  have hfirst : Drawn nmax 0 [] :=
    ⟨List.nodup_nil, fun v hv => absurd hv List.not_mem_nil, rfl⟩
  unfold randArray
  by_cases hinverted : size > nmax / 2
  · have hcount : drawCount size nmax = nmax - size := if_pos hinverted
    have hoffset : size - (nmax - size) = 2 * size - nmax := by omega
    rw [hcount]
    dsimp only
    rw [if_pos hinverted, hoffset, hloop _ _ (by omega)]
    cases hdraw : draw nmax rands (nmax - size) [] with
    | none => exact .inl ⟨rfl, rfl⟩
    | some p =>
      obtain ⟨drawn, rest⟩ := p
      have hdrawn := draw_drawn hnmax hfirst hdraw
      rw [Nat.zero_add] at hdrawn
      have hfront : (r.take (2 * size - nmax)).length = 2 * size - nmax :=
        List.length_take_of_le (by omega)
      obtain ⟨last, hlast⟩ : ∃ last, r.drop size = [last] :=
        List.length_eq_one_iff.mp (by rw [List.length_drop]; omega)
      have hlength : (r.take (2 * size - nmax) ++ sorted drawn).length = size := by
        rw [List.length_append, hfront, hdrawn.increasing.2.2]
        omega
      obtain ⟨r', hconvert, hlength', htake⟩ := convert_eq hinverted hle hdrawn hfront
      refine .inr ⟨drawn, rest, r', rfl, ?_, hlength', htake⟩
      rw [Option.map_some, Option.bind_some]
      dsimp only
      rw [if_pos (by omega), sortPart_eq hfront hdrawn.length, hlast, setAt, if_pos (by
        rw [List.length_append, hlength, List.length_singleton]; omega), Option.bind_some,
        List.set_append_right _ _ (by omega), hlength, Nat.sub_self, List.set_cons_zero, hconvert]
      rfl
  · have hcount : drawCount size nmax = size := if_neg hinverted
    rw [hcount]
    dsimp only
    rw [if_neg hinverted, hloop 0 size (Nat.zero_add size)]
    cases hdraw : draw nmax rands size [] with
    | none => exact .inl ⟨rfl, rfl⟩
    | some p =>
      obtain ⟨drawn, rest⟩ := p
      have hdrawn := draw_drawn hnmax hfirst hdraw
      rw [Nat.zero_add] at hdrawn
      have hlength := hdrawn.increasing.2.2
      refine .inr ⟨drawn, rest, sorted drawn ++ r.drop size, rfl, ?_, ?_, ?_⟩
      · rw [Option.map_some, Option.bind_some]
        dsimp only
        rw [if_neg (by simp), sortPart_eq (List.length_take_of_le (Nat.zero_le _)) hdrawn.length]
        rfl
      · rw [List.length_append, hlength, List.length_drop]
        omega
      · rw [List.take_left' hlength, chosen, if_neg hinverted]

/-- The numbers drawn are all that is left out if none of them was overwritten. -/
theorem skips_eq_iff (limit : Nat) {us : List Nat} (h : us.Pairwise (· < ·)) :
    skips limit us = us ↔ ∀ u ∈ us, u ≤ limit + 2 * us.countP (· < u) := by
  induction us generalizing limit with
  | nil => simp [skips]
  | cons u us ih =>
    obtain ⟨hlater, hrest⟩ := List.pairwise_cons.mp h
    have hfirst : (u :: us).countP (· < u) = 0 := by
      rw [List.countP_eq_zero]
      intro v hv
      rcases List.mem_cons.mp hv with rfl | hv
      · simp
      · simpa using (hlater v hv).le
    have hcount (v : Nat) (hv : v ∈ us) :
        (u :: us).countP (· < v) = us.countP (· < v) + 1 :=
      List.countP_cons_of_pos (by simpa using hlater v hv)
    rw [skips, List.cons.injEq, ih _ hrest, List.forall_mem_cons, hfirst]
    constructor
    · rintro ⟨hu, hus⟩
      refine ⟨by omega, fun v hv => ?_⟩
      have := hus v hv
      rw [hcount v hv]
      omega
    · rintro ⟨hu, hus⟩
      refine ⟨by omega, fun v hv => ?_⟩
      have := hus v hv
      rw [hcount v hv] at this
      omega

theorem skips_pairwise (limit : Nat) {us : List Nat} (h : us.Pairwise (· < ·)) :
    (skips limit us).Pairwise (· < ·) := by
  induction us generalizing limit with
  | nil => exact List.Pairwise.nil
  | cons u us ih =>
    obtain ⟨hlater, hrest⟩ := List.pairwise_cons.mp h
    refine List.pairwise_cons.mpr ⟨lt_skips (by omega) fun v hv => ?_, ih _ hrest⟩
    have := hlater v hv
    omega

theorem mem_kept {n len v : Nat} {skipped : List Nat} :
    v ∈ kept n len skipped ↔ (n ≤ v ∧ v < n + len) ∧ v ∉ skipped := by
  simp [kept, List.mem_range'_1]

/-- The result has the right length, and increases. -/
theorem chosen_indexes {size nmax : Nat} (hle : size ≤ nmax) {drawn : List Nat}
    (h : Drawn nmax (drawCount size nmax) drawn) :
    (chosen size nmax drawn).length = size ∧ (chosen size nmax drawn).Pairwise (· < ·) ∧
      ∀ v ∈ chosen size nmax drawn, v < nmax := by
  by_cases hinverted : size > nmax / 2
  · rw [drawCount, if_pos hinverted] at h
    obtain ⟨r, -, hlength, htake⟩ :=
      convert_eq hinverted hle h (List.length_replicate (a := 0))
    refine ⟨by rw [← htake, List.length_take_of_le (by omega)], ?_, ?_⟩
    · rw [chosen, if_pos hinverted]
      exact List.Pairwise.filter _ List.pairwise_lt_range'
    · intro v hv
      rw [chosen, if_pos hinverted, mem_kept] at hv
      omega
  · rw [drawCount, if_neg hinverted] at h
    obtain ⟨hsorted, hbelow, hlength⟩ := h.increasing
    rw [chosen, if_neg hinverted]
    exact ⟨hlength, hsorted, hbelow⟩

/-- Where more than half are wanted, the result is all that is not drawn only if each number
that is drawn is small enough for its place. -/
theorem chosen_exact {size nmax : Nat} (hinverted : nmax / 2 < size) {drawn : List Nat}
    (h : Drawn nmax (nmax - size) drawn) :
    (∀ v < nmax, v ∈ chosen size nmax drawn ↔ v ∉ drawn) ↔
      ∀ u ∈ drawn, u ≤ 2 * size - nmax + 2 * drawn.countP (· < u) + 1 := by
  obtain ⟨hsorted, hbelow, -⟩ := h.increasing
  have hperm : (sorted drawn).Perm drawn := List.perm_insertionSort ..
  have hskips := skips_pairwise (2 * size - nmax + 1) hsorted
  have hle : ∀ {limit : Nat} {us : List Nat}, (∀ u ∈ us, u < nmax) →
      ∀ v ∈ skips limit us, v < nmax := by
    intro limit us hus v hv
    induction us generalizing limit with
    | nil => cases hv
    | cons u us ih =>
      rcases List.mem_cons.mp hv with rfl | hv
      · exact lt_of_le_of_lt (min_le_left _ _) (hus u List.mem_cons_self)
      · exact ih (fun u' hu' => hus u' (List.mem_cons_of_mem u hu')) hv
  have hmem (v : Nat) (hv : v < nmax) : v ∈ chosen size nmax drawn ↔
      v ∉ skips (2 * size - nmax + 1) (sorted drawn) := by
    rw [chosen, if_pos hinverted, mem_kept]
    simp [hv]
  have hcond : (∀ u ∈ drawn, u ≤ 2 * size - nmax + 2 * drawn.countP (· < u) + 1) ↔
      skips (2 * size - nmax + 1) (sorted drawn) = sorted drawn := by
    rw [skips_eq_iff _ hsorted]
    constructor
    · intro hall u hu
      have := hall u (hperm.subset hu)
      rw [hperm.countP_eq]
      omega
    · intro hall u hu
      have := hall u (hperm.symm.subset hu)
      rw [hperm.countP_eq] at this
      omega
  rw [hcond]
  constructor
  · intro hall
    have hsame : (skips (2 * size - nmax + 1) (sorted drawn)).Perm (sorted drawn) := by
      rw [List.perm_ext_iff_of_nodup (hskips.imp ne_of_lt) (hsorted.imp ne_of_lt)]
      intro v
      by_cases hv : v < nmax
      · have := (hmem v hv).symm.trans (hall v hv)
        rw [not_iff_not] at this
        rw [this, hperm.mem_iff]
      · exact ⟨fun hin => absurd (hle hbelow v hin) hv, fun hin => absurd (hbelow v hin) hv⟩
    exact hsame.eq_of_pairwise (fun a b _ _ hab hba => absurd hab (lt_asymm hba)) hskips hsorted
  · intro heq v hv
    rw [hmem v hv, heq, hperm.mem_iff]

/-- With enough different remainders there is a result, and it is made of distinct indexes in
order. It is what was drawn, or else all but that if no number is overwritten before it is
read. -/
theorem randArray_indexes (size nmax : Nat) (hle : size ≤ nmax) (hnmax : 0 < nmax)
    (r : List Nat) (hr : r.length = size + 1) (rands : List Nat) :
    (randArray size nmax r rands = none ↔
      (rands.map (· % nmax)).toFinset.card < drawCount size nmax) ∧
    ∀ r' rest, randArray size nmax r rands = some (r', rest) →
      ∃ drawn, draw nmax rands (drawCount size nmax) [] = some (drawn, rest) ∧
        (r'.take size).length = size ∧ (r'.take size).Pairwise (· < ·) ∧
        (∀ v ∈ r'.take size, v < nmax) ∧
        (size ≤ nmax / 2 → (r'.take size).Perm drawn) ∧
        (nmax / 2 < size → ((∀ v < nmax, v ∈ r'.take size ↔ v ∉ drawn) ↔
          ∀ u ∈ drawn, u ≤ 2 * size - nmax + 2 * drawn.countP (· < u) + 1)) := by
  have hfirst : Drawn nmax 0 [] :=
    ⟨List.nodup_nil, fun v hv => absurd hv List.not_mem_nil, rfl⟩
  have hnone := draw_none nmax rands (drawCount size nmax) []
  rw [List.toFinset_nil, Finset.sdiff_empty] at hnone
  rcases randArray_eq hle hnmax hr rands with
    ⟨hdraw, hrand⟩ | ⟨drawn, rest, r', hdraw, hrand, -, htake⟩
  · refine ⟨iff_of_true hrand (hnone.mp hdraw), fun r' rest h => ?_⟩
    rw [hrand] at h
    cases h
  · constructor
    · rw [← hnone, hdraw, hrand]
      simp
    · intro r'' rest' h
      rw [hrand] at h
      cases h
      have hdrawn := draw_drawn hnmax hfirst hdraw
      rw [Nat.zero_add] at hdrawn
      obtain ⟨hlength, hsorted, hbelow⟩ := chosen_indexes hle hdrawn
      rw [htake]
      refine ⟨drawn, hdraw, hlength, hsorted, hbelow, fun hhalf => ?_, fun hinverted => ?_⟩
      · rw [chosen, if_neg (Nat.not_lt.mpr hhalf)]
        exact List.perm_insertionSort ..
      · rw [drawCount, if_pos hinverted] at hdrawn
        exact chosen_exact hinverted hdrawn

/-- Of five indexes the last two are drawn, to be left out; but 3 is overwritten. -/
theorem randArray_indexes_overwritten :
    randArray 3 5 [0, 0, 0, 0] [3, 4] = some ([0, 1, 3, 5], []) ∧
      ¬ ∀ v < 5, v ∈ [0, 1, 3] ↔ v ∉ [3, 4] := by
  have hrand : randArray 3 5 [0, 0, 0, 0] [3, 4] = some ([0, 1, 3, 5], []) := by decide
  obtain ⟨-, h⟩ := randArray_indexes 3 5 (by decide) (by decide) [0, 0, 0, 0] rfl [3, 4]
  obtain ⟨drawn, hdraw, -, -, -, -, hexact⟩ := h _ _ hrand
  have hdrawn : draw 5 [3, 4] (drawCount 3 5) [] = some ([3, 4], []) := by decide
  rw [hdrawn] at hdraw
  cases hdraw
  exact ⟨hrand, (hexact (by decide)).not.mpr (by decide)⟩

end GracefulMusic.RandomQueue
