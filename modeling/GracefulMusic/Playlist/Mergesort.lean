import GracefulMusic.Foundation.Comparison
import GracefulMusic.Foundation.Links
import GracefulMusic.Foundation.Loops
import GracefulMusic.Foundation.MergeRuns
import GracefulMusic.Text

/-! Sorting a list in place (`mergesort.c`, `list.h`).

The nodes move between the list and an empty one, run by run, while they are merged in pairs.
The length of the runs and their number are kept in an `int`; going beyond it is undefined. -/
namespace GracefulMusic.Mergesort
open Loops MergeRuns

variable {P : Type} [DecidableEq P]

/-! ### Lists -/

/-- `_list_del` -/
def unlink (m : Links P) (prev next : P) : Links P :=
  let m := {m with prev := Function.update m.prev next prev}
  {m with next := Function.update m.next prev next}

/-- `LIST_POISON1` and `LIST_POISON2`. -/
structure Poison (P : Type) where
  next : P
  prev : P

def listDel (poison : Poison P) (m : Links P) (entry : P) : Links P :=
  let m := unlink m (m.prev entry) (m.next entry)
  let m := {m with next := Function.update m.next entry poison.next}
  {m with prev := Function.update m.prev entry poison.prev}

/-- `_list_add` -/
def link (m : Links P) (new prev next : P) : Links P :=
  let m := {m with prev := Function.update m.prev next new}
  let m := {m with next := Function.update m.next new next}
  let m := {m with prev := Function.update m.prev new prev}
  {m with next := Function.update m.next prev new}

def listAddTail (m : Links P) (new head : P) : Links P := link m new (m.prev head) head

/-- `LIST_HEAD` -/
def listHead (m : Links P) (name : P) : Links P where
  next := Function.update m.next name name
  prev := Function.update m.prev name name

/-! ### Sorting -/

/-- `none` where it does not fit into an `int`. -/
def int (x : Int) : Option Int := if x ≤ intMax then some x else none

section
variable (poison : Poison P) (compare : P → P → Int)

/-- Counting a run, up to where the next one begins. -/
def countRun (m : Links P) (unsortedHead : P) (K : Int) :
    P × Int → Option ((P × Int) ⊕ (P × Int))
  | (q, psize) =>
    if psize < K then
      if q = unsortedHead then some (.inr (q, psize)) else some (.inl (m.next q, psize + 1))
    else some (.inr (q, psize))

/-- Two runs that are being merged. -/
structure Merging (P : Type) where
  links : Links P
  p : P
  q : P
  psize : Int
  qsize : Int

def mergeStep (unsortedHead sortedHead : P) (s : Merging P) : Option (Merging P ⊕ (Links P × P)) :=
  let qsize := if s.q = unsortedHead then 0 else s.qsize
  let move (e : P) : Links P := listAddTail (listDel poison s.links e) e sortedHead
  if s.psize = 0 ∧ qsize = 0 then some (.inr (s.links, s.q))
  else if s.psize = 0 ∨ (qsize ≠ 0 ∧ compare s.p s.q > 0) then
    some (.inl ⟨move s.q, s.p, s.links.next s.q, s.psize, qsize - 1⟩)
  else some (.inl ⟨move s.p, s.links.next s.p, s.q, s.psize - 1, qsize⟩)

/-- One pair of runs; the count of pairs goes on with it. -/
def mergePair (fuel : Nat) (unsortedHead sortedHead : P) (K : Int) :
    Links P × P × Int → Option ((Links P × P × Int) ⊕ (Links P × Int))
  | (m, p, count) => do
    let (q, psize) ← loop (countRun m unsortedHead K) fuel (p, 0)
    let (m, q) ← loop (mergeStep poison compare unsortedHead sortedHead) fuel ⟨m, p, q, psize, K⟩
    let count ← int (count + 1)
    let p := q
    if p ≠ unsortedHead then some (.inl (m, p, count)) else some (.inr (m, count))

/-- The list as `head` had it, where the sorted one may be at another head. -/
def rehead (m : Links P) (head sortedHead : P) : Links P :=
  let m := {m with next := Function.update m.next head (m.next sortedHead)}
  let m := {m with prev := Function.update m.prev head (m.prev sortedHead)}
  let m := {m with next := Function.update m.next (m.prev sortedHead) head}
  {m with prev := Function.update m.prev (m.next sortedHead) head}

/-- One pass over all runs. -/
def sortPass (fuel : Nat) (head : P) :
    Links P × P × P × Int → Option ((Links P × P × P × Int) ⊕ Links P)
  | (m, unsortedHead, sortedHead, K) => do
    let (m, count) ← loop (mergePair poison compare fuel unsortedHead sortedHead K) fuel
      (m, m.next unsortedHead, 0)
    if count = 1 then some (.inr (rehead m head sortedHead))
    else
      let K ← int (K * 2)
      some (.inl (m, sortedHead, unsortedHead, K))

/-- `empty` is where the head of the other list is; `fuel` bounds the turns of each loop. -/
def listMergesort (fuel : Nat) (m : Links P) (head empty : P) : Option (Links P) :=
  let m := listHead m empty
  if m.next head = head then some m
  else loop (sortPass poison compare fuel head) fuel (m, head, empty, 1)

end

/-! ### Moving a node -/

section
variable {poison : Poison P} {compare : P → P → Int} {m : Links P} {u s x : P} {l r ss us : List P}

theorem link_eq {new prev next : P} (hprev : new ≠ prev) (hnext : new ≠ next) :
    link m new prev next = (m.join prev new).join new next := by
  simp only [link, Links.join]
  rw [Function.update_comm hprev, Function.update_comm hnext]

variable (poison) in
/-- A node of one list becomes the last one of the other. -/
theorem move_spec (h : m.Apart u (l ++ x :: r) s ss) :
    (listAddTail (listDel poison m x) x s).Apart u (l ++ r) s (ss ++ [x]) := by
  obtain ⟨hremoved, hx⟩ := h.remove
  have hdel : (listDel poison m x).Apart u (l ++ r) s ss := hremoved.congr fun y hy => by
    have hne := ne_of_mem_of_not_mem hy hx
    exact ⟨Function.update_of_ne hne _ _, Function.update_of_ne hne _ _⟩
  have hxs : x ∉ s :: ss := fun hmem => hx (List.mem_append_right _ hmem)
  rw [listAddTail, link_eq (ne_of_mem_of_not_mem hdel.right.prev_mem hxs).symm
    (ne_of_mem_of_not_mem List.mem_cons_self hxs).symm]
  exact hdel.extend hx

omit [DecidableEq P] in
/-- What the links say of the first node of the rest. -/
theorem next_of_apart (h : m.Apart u (l ++ x :: r) s ss) : m.next x = r.headD u :=
  (Links.Chain.append.mp h.left).2.next_eq

omit [DecidableEq P] in
theorem ne_head_of_apart (h : m.Apart u (l ++ x :: r) s ss) : x ≠ u := by
  have hnodup := (List.nodup_append.mp h.nodup).1
  rintro rfl
  simp at hnodup

/-! ### One pair of runs -/

theorem countRun_spec {a : P} (h : m.Chain a l u) (hu : u ∉ l) {k K : Nat} (hk : k ≤ K)
    {fuel : Nat} (hfuel : l.length < fuel) :
    loop (countRun m u K) fuel (l.headD u, k) =
      some ((l.drop (K - k)).headD u, ((k + min (K - k) l.length : Nat) : Int)) := by
  obtain ⟨fuel, rfl⟩ : ∃ n, fuel = n + 1 := ⟨fuel - 1, by omega⟩
  induction l generalizing a k fuel with
  | nil =>
    rw [loop_exit (a := (u, (k : Int))) (by simp [countRun])]
    simp
  | cons y l ih =>
    have hy : y ≠ u := fun heq => hu (heq ▸ .head _)
    rcases Nat.lt_or_eq_of_le hk with hlt | rfl
    · have hnext : m.next y = l.headD u := h.2.next_eq
      obtain ⟨fuel, rfl⟩ : ∃ n, fuel = n + 1 := ⟨fuel - 1, by simp at hfuel; omega⟩
      rw [loop_next (t := (l.headD u, ((k + 1 : Nat) : Int))) (by simp [countRun, hy, hlt, hnext]),
        ih h.2 (fun hmem => hu (.tail _ hmem)) hlt fuel (by simpa using hfuel)]
      rw [show K - k = K - (k + 1) + 1 by omega, List.drop_succ_cons]
      congr 3
      simp only [List.length_cons]
      omega
    · rw [loop_exit (a := (y, (k : Int))) (by simp [countRun])]
      simp

/-- `compare(p, q) > 0` does not hold. -/
def le (compare : P → P → Int) (p q : P) : Bool := compare p q ≤ 0

omit [DecidableEq P] in
theorem merge_second {ps : List P} {p₀ y : P} (h : ps = [] ∨ compare (ps.headD p₀) y > 0)
    (qs : List P) : ps.merge (y :: qs) (le compare) = y :: ps.merge qs (le compare) := by
  cases ps with
  | nil => simp
  | cons x ps =>
    have hgt : ¬le compare x y := by simpa [le] using h
    simp [hgt]

omit [DecidableEq P] in
theorem merge_first {qs : List P} (h : ∀ y ∈ qs.head?, ¬compare x y > 0) (ps : List P) :
    (x :: ps).merge qs (le compare) = x :: ps.merge qs (le compare) := by
  cases qs with
  | nil => simp
  | cons y qs =>
    have hle : le compare x y := by simpa [le] using h
    simp [hle]

variable (poison compare) in
/-- A step in terms of what is left of the runs; the second one may end with the list. -/
theorem mergeStep_eq {ps qs : List P} (h : m.Apart u (ps ++ qs) s ss) (p₀ : P) (k : Nat) :
    ∃ k' : Nat, (k' = 0 ↔ qs.take k' = []) ∧ qs.take k' = qs.take k ∧ qs.drop k' = qs.drop k ∧
      mergeStep poison compare u s ⟨m, ps.headD p₀, qs.headD u, ps.length, k⟩ =
        if ps = [] ∧ qs.take k' = [] then some (.inr (m, qs.headD u))
        else if ps = [] ∨ (qs.take k' ≠ [] ∧ compare (ps.headD p₀) (qs.headD u) > 0) then
          some (.inl ⟨listAddTail (listDel poison m (qs.headD u)) (qs.headD u) s, ps.headD p₀,
            m.next (qs.headD u), ps.length, k' - 1⟩)
        else
          some (.inl ⟨listAddTail (listDel poison m (ps.headD p₀)) (ps.headD p₀) s,
            m.next (ps.headD p₀), qs.headD u, ps.length - 1, k'⟩) := by
  have hsize : ∃ k' : Nat, (if qs.headD u = u then (0 : Int) else k) = k' ∧
      (k' = 0 ↔ qs.take k' = []) ∧ qs.take k' = qs.take k ∧ qs.drop k' = qs.drop k := by
    cases qs with
    | nil => exact ⟨0, by simp, by simp, by simp, by simp⟩
    | cons y qs => exact ⟨k, if_neg (ne_head_of_apart h), by simp, rfl, rfl⟩
  obtain ⟨k', hif, hzero, htake, hdrop⟩ := hsize
  have hps : ((ps.length : Nat) : Int) = 0 ↔ ps = [] := by simp
  have hqs : ((k' : Nat) : Int) = 0 ↔ qs.take k' = [] := by rw [← hzero, Int.natCast_eq_zero]
  exact ⟨k', hzero, htake, hdrop, by simp only [mergeStep, hif, hps, hqs, ne_eq]⟩

variable (poison compare) in
theorem mergeLoop_spec {ps qs : List P} (h : m.Apart u (ps ++ qs) s ss) (p₀ : P) (k : Nat)
    {fuel : Nat} (hfuel : ps.length + (qs.take k).length < fuel) :
    ∃ m', loop (mergeStep poison compare u s) fuel ⟨m, ps.headD p₀, qs.headD u, ps.length, k⟩ =
        some (m', (qs.drop k).headD u) ∧
      m'.Apart u (qs.drop k) s (ss ++ ps.merge (qs.take k) (le compare)) := by
  induction fuel generalizing m ss ps qs p₀ k with
  | zero => cases hfuel
  | succ fuel ih =>
    obtain ⟨k', hzero, htake, hdrop, hstep⟩ := mergeStep_eq poison compare h p₀ k
    rw [← htake] at hfuel ⊢
    rw [← hdrop]
    by_cases hdone : ps = [] ∧ qs.take k' = []
    · rw [if_pos hdone] at hstep
      rw [loop_exit hstep, hdone.1, hdone.2, hzero.mpr hdone.2]
      exact ⟨m, rfl, by simpa [hdone.1] using h⟩
    rw [if_neg hdone] at hstep
    by_cases hq : ps = [] ∨ (qs.take k' ≠ [] ∧ compare (ps.headD p₀) (qs.headD u) > 0)
    · -- the next one of the second run
      rw [if_pos hq] at hstep
      have hsome : qs.take k' ≠ [] := fun hnone => hq.elim (fun hps => hdone ⟨hps, hnone⟩)
        fun hgt => hgt.1 hnone
      obtain ⟨y, qs, rfl⟩ := List.exists_cons_of_ne_nil fun hnil : qs = [] => hsome (by simp [hnil])
      obtain ⟨k', rfl⟩ := Nat.exists_eq_succ_of_ne_zero (mt hzero.mp hsome)
      have hmerge : ps.merge (y :: qs.take k') (le compare) = y :: ps.merge (qs.take k') (le compare) :=
        merge_second (hq.imp_right And.right) (qs.take k')
      obtain ⟨m', hloop, hm'⟩ := ih (move_spec poison h) p₀ k' (by
        simp only [Nat.succ_eq_add_one, List.take_succ_cons, List.length_cons] at hfuel
        omega)
      rw [loop_next hstep, List.take_succ_cons, hmerge]
      refine ⟨m', ?_, by simpa using hm'⟩
      simpa [next_of_apart h] using hloop
    · -- the next one of the first run
      rw [if_neg hq] at hstep
      obtain ⟨hps, hle⟩ := not_or.mp hq
      obtain ⟨x, ps, rfl⟩ := List.exists_cons_of_ne_nil hps
      have hmerge : (x :: ps).merge (qs.take k') (le compare) =
          x :: ps.merge (qs.take k') (le compare) := by
        refine merge_first (fun y hy hgt => hle ⟨?_, ?_⟩) ps
        · rintro hnil
          simp [hnil] at hy
        · obtain ⟨rest, htakes⟩ := List.head?_eq_some_iff.mp hy
          rw [← List.take_append_drop k' qs, htakes]
          exact hgt
      have hnext : m.next x = ps.headD (m.next x) := by
        cases ps with
        | nil => rfl
        | cons z ps => exact next_of_apart (l := []) (x := x) (r := (z :: ps) ++ qs) h
      have hmoved : (listAddTail (listDel poison m x) x s).Apart u (ps ++ qs) s (ss ++ [x]) :=
        move_spec poison (l := []) h
      obtain ⟨m', hloop, hm'⟩ := ih hmoved (m.next x) k' (by
        rw [List.length_cons] at hfuel
        omega)
      rw [loop_next hstep, hmerge]
      refine ⟨m', ?_, by simpa using hm'⟩
      rw [← hnext] at hloop
      simpa using hloop

/-! ### One pass -/

/-- How many pairs of runs there are. -/
def pairs (n k : Nat) : Nat := (n + (2 * k - 1)) / (2 * k)

theorem pairs_succ {n k : Nat} (hn : 0 < n) (hk : 0 < k) :
    pairs n k = pairs (n - 2 * k) k + 1 := by
  rw [pairs, pairs]
  rcases Nat.lt_or_ge (2 * k) n with hlong | hshort
  · rw [show n + (2 * k - 1) = n - 2 * k + (2 * k - 1) + 2 * k by omega,
      Nat.add_div_right _ (by omega)]
  · have hone : (n + (2 * k - 1)) / (2 * k) = 1 := (Nat.div_eq_iff (by omega)).mpr (by omega)
    rw [hone, Nat.sub_eq_zero_of_le hshort, Nat.zero_add, Nat.div_eq_of_lt (by omega)]

theorem pairs_eq_one_iff {n k : Nat} (hn : 0 < n) (hk : 0 < k) : pairs n k = 1 ↔ n ≤ 2 * k := by
  rw [pairs, Nat.div_eq_iff (by omega)]
  omega

variable (poison compare) in
/-- A pair of runs is merged, and counted. -/
theorem mergePair_spec (h : m.Apart u us s ss) (hus : us ≠ []) {k : Nat} (hk : 0 < k) (count : Int)
    {fuel : Nat} (hfuel : us.length < fuel) :
    ∃ m', m'.Apart u (us.drop (2 * k)) s
        (ss ++ (us.take k).merge ((us.drop k).take k) (le compare)) ∧
      mergePair poison compare fuel u s k (m, us.headD u, count) = (int (count + 1)).map fun count =>
        if (us.drop (2 * k)).headD u ≠ u then .inl (m', (us.drop (2 * k)).headD u, count)
        else .inr (m', count) := by
  have hu := (List.nodup_cons.mp (List.nodup_append.mp h.nodup).1).1
  have hcount := countRun_spec h.left hu (Nat.zero_le k) hfuel
  rw [Nat.sub_zero, Nat.zero_add, ← List.length_take, Nat.cast_zero] at hcount
  have hhead : (us.take k).headD (us.headD u) = us.headD u := by
    obtain ⟨x, us, rfl⟩ := List.exists_cons_of_ne_nil hus
    obtain ⟨k, rfl⟩ := Nat.exists_eq_succ_of_ne_zero (Nat.ne_of_gt hk)
    rfl
  have hsplit : m.Apart u (us.take k ++ us.drop k) s ss := by rwa [List.take_append_drop]
  have hpair : (us.take k).length + ((us.drop k).take k).length < fuel := by
    have hlength := congrArg List.length (take_append_take_append k us)
    rw [List.length_append, List.length_append] at hlength
    omega
  obtain ⟨m', hloop, hm'⟩ := mergeLoop_spec poison compare hsplit (us.headD u) k hpair
  rw [hhead] at hloop
  rw [List.drop_drop, ← Nat.two_mul] at hloop hm'
  refine ⟨m', hm', ?_⟩
  simp only [mergePair, Option.bind_eq_bind, hcount, hloop, Option.bind_some]
  cases int (count + 1) with
  | none => rfl
  | some count =>
    simp only [Option.bind_some, Option.map_some]
    split <;> rfl

theorem int_eq (x : Int) : int x = none ∧ intMax < x ∨ int x = some x ∧ x ≤ intMax := by
  rw [int]
  split
  · exact .inr ⟨rfl, ‹_›⟩
  · exact .inl ⟨rfl, by omega⟩

variable (poison compare) in
/-- All the pairs, if they can be counted. -/
theorem mergePairs_spec (h : m.Apart u us s ss) (hus : us ≠ []) {k : Nat} (hk : 0 < k)
    (count : Nat) {fuel turns : Nat} (hfuel : us.length < fuel) (hturns : us.length < turns) :
    (intMax < (count + pairs us.length k : Nat) ∧
      loop (mergePair poison compare fuel u s k) turns (m, us.headD u, count) = none) ∨
    ∃ m', m'.Apart u [] s (ss ++ mergeRuns (le compare) k us) ∧
      loop (mergePair poison compare fuel u s k) turns (m, us.headD u, count) =
        some (m', ((count + pairs us.length k : Nat) : Int)) := by
  induction turns generalizing m us ss count with
  | zero => cases hturns
  | succ turns ih =>
    have hlength := List.length_pos_iff.mpr hus
    have hpairs := pairs_succ hlength hk
    have hu := (List.nodup_cons.mp (List.nodup_append.mp h.nodup).1).1
    obtain ⟨m', hm', hpair⟩ := mergePair_spec poison compare h hus hk count hfuel
    rw [mergeRuns_eq hus hk, ← List.append_assoc]
    obtain ⟨hint, hbig⟩ | ⟨hint, -⟩ := int_eq ((count : Int) + 1)
    · rw [hint, Option.map_none] at hpair
      exact .inl ⟨by omega, loop_undefined hpair⟩
    rw [hint, Option.map_some] at hpair
    cases hrest : us.drop (2 * k) with
    | nil =>
      have hone : pairs us.length k = 1 :=
        (pairs_eq_one_iff hlength hk).mpr (List.drop_eq_nil_iff.mp hrest)
      rw [hrest, List.headD_nil, if_neg (not_not_intro rfl)] at hpair
      rw [loop_exit hpair, hone, mergeRuns_nil, List.append_nil]
      exact .inr ⟨m', hrest ▸ hm', rfl⟩
    | cons y rest =>
      have hmem : y ∈ us.drop (2 * k) := hrest.symm ▸ List.mem_cons_self
      have hy : y ≠ u := fun heq => hu (heq ▸ List.mem_of_mem_drop hmem)
      have hlength' : (y :: rest).length = us.length - 2 * k := hrest ▸ List.length_drop
      rw [hrest] at hm' hpair
      rw [List.headD_cons, if_pos hy] at hpair
      rw [loop_next hpair, hpairs, ← hlength']
      have hgo := ih hm' (List.cons_ne_nil _ _) (count + 1) (by omega) (by omega)
      rw [Nat.add_right_comm] at hgo
      exact_mod_cast hgo

/-! ### The whole sort -/

theorem rehead_self (h : m.IsList s us) : rehead m s s = m := by
  have hnext : Function.update m.next (m.prev s) s = m.next :=
    Function.update_eq_self_iff.mpr h.chain.next_prev.symm
  have hprev : Function.update m.prev (m.next s) s = m.prev :=
    Function.update_eq_self_iff.mpr h.chain.prev_next.symm
  simp [rehead, hnext, hprev]

theorem rehead_spec {head : P} (h : m.Apart u [] s us) (hus : us ≠ []) (hhead : head = u ∨ head = s) :
    (rehead m head s).IsList head us := by
  have hlist : m.IsList s us := ⟨h.right, (List.nodup_append.mp h.nodup).2.1⟩
  rcases hhead with rfl | rfl
  · have hs := h.not_mem List.mem_cons_self
    obtain ⟨y, us, rfl⟩ := List.exists_cons_of_ne_nil hus
    have hsy : s ∉ y :: us := (List.nodup_cons.mp hlist.nodup).1
    have hprev : m.prev s ∈ y :: us := h.right.2.prev_mem
    have hsh : s ≠ head := fun heq => hs (heq ▸ .head _)
    have hyh : y ≠ head := fun heq => hs (heq ▸ .tail _ (.head _))
    have hsp : s ≠ m.prev s := fun heq => hsy (heq.symm ▸ hprev)
    have heq : rehead m head s = (m.join head y).join (m.prev s) head := by
      simp [rehead, Links.join, h.right.1.1, hsh, hsp, Function.update_comm hyh]
    exact heq ▸ hlist.rehead hs
  · rwa [rehead_self hlist]

theorem listHead_spec {head empty : P} {l : List P} (h : m.IsList head l) (hempty : empty ∉ head :: l) :
    (listHead m empty).Apart head l empty [] := by
  refine ⟨h.chain.congr (fun y hy => ?_) fun y hy => ?_, by simp [Links.Chain, listHead], ?_⟩
  · exact Function.update_of_ne (ne_of_mem_of_not_mem hy hempty) _ _
  · exact Function.update_of_ne (ne_of_mem_of_not_mem hy hempty) _ _
  · exact List.nodup_append.mpr ⟨h.nodup, List.nodup_singleton _, fun y hy z hz heq => by
      rw [List.mem_singleton.mp hz] at heq
      exact hempty (heq ▸ hy)⟩

omit [DecidableEq P] in
theorem two_mul_pairs_le {n k : Nat} (hk : 0 < k) : 2 * pairs n k ≤ n + 1 := by
  have hdiv := Nat.div_mul_le_self (n + (2 * k - 1)) (2 * k)
  rw [← pairs] at hdiv
  cases hpairs : pairs n k with
  | zero => omega
  | succ p =>
    rw [hpairs, Nat.succ_mul] at hdiv
    have := Nat.le_mul_of_pos_right (p * 2) hk
    rw [Nat.mul_assoc] at this
    omega

end

/-- The sorted list, with what compares equal in its order. -/
structure Sorts (compare : P → P → Int) (l l' : List P) : Prop where
  perm : l'.Perm l
  sorted : l'.Pairwise fun a b => compare a b ≤ 0
  stable : ∀ a, (l'.filter fun b => compare a b = 0) = l.filter fun b => compare a b = 0

section
variable {poison : Poison P} {compare : P → P → Int} {m : Links P} {u s : P} {us : List P}

omit [DecidableEq P] in
theorem transitive_le (hcompare : TotalPreorder compare) (a b c : P) (hab : le compare a b)
    (hbc : le compare b c) : le compare a c := by
  simp only [le, decide_eq_true_eq] at hab hbc ⊢
  exact hcompare.trans a b c hab hbc

omit [DecidableEq P] in
theorem total_le (hcompare : TotalPreorder compare) (a b : P) :
    le compare a b || le compare b a := by
  have := hcompare.swap b a
  simp only [le, Bool.or_eq_true, decide_eq_true_eq]
  omega

omit [DecidableEq P] in
/-- What a pass leaves to be done. -/
theorem Sorts.of_mergeRuns (hcompare : TotalPreorder compare) {k : Nat}
    (hruns : RunsSorted (le compare) k us) {l' : List P}
    (h : Sorts compare (mergeRuns (le compare) k us) l') : Sorts compare us l' := by
  refine ⟨h.perm.trans (mergeRuns_perm _ _ _), h.sorted, fun a => (h.stable a).trans ?_⟩
  refine filter_mergeRuns (transitive_le hcompare) (fun b c hb hc => ?_) hruns
  simp only [le, decide_eq_true_eq] at hb hc ⊢
  exact (hcompare.eq_trans (hcompare.eq_symm hb) hc).le

omit [DecidableEq P] in
theorem Sorts.of_pairwise (h : us.Pairwise fun a b => le compare a b) : Sorts compare us us :=
  ⟨.refl _, h.imp of_decide_eq_true, fun _ => rfl⟩

variable (poison compare) in
/-- A pass merges the runs by pairs, unless these are more than can be counted. -/
theorem sortPass_spec (h : m.Apart u us s []) (hus : us ≠ []) (head : P) {k : Nat} (hk : 0 < k)
    {fuel : Nat} (hfuel : us.length < fuel) :
    (2 ^ 31 < us.length ∧ sortPass poison compare fuel head (m, u, s, (k : Int)) = none) ∨
    ∃ m', m'.Apart u [] s (mergeRuns (le compare) k us) ∧
      sortPass poison compare fuel head (m, u, s, (k : Int)) =
        if us.length ≤ 2 * k then some (.inr (rehead m' head s))
        else (int ((k : Nat) * 2)).bind fun K => some (.inl (m', s, u, K)) := by
  have hlength := List.length_pos_iff.mpr hus
  have hnext := h.left.next_eq
  have hstep := mergePairs_spec poison compare h hus hk 0 hfuel hfuel
  rw [Nat.zero_add, Nat.cast_zero] at hstep
  obtain ⟨hbig, hnone⟩ | ⟨m', hm', hpass⟩ := hstep
  · have hpairs := two_mul_pairs_le (n := us.length) hk
    simp only [intMax] at hbig
    refine .inl ⟨by omega, ?_⟩
    simp only [sortPass, hnext, hnone, Option.bind_eq_bind, Option.bind_none]
  · have hone : ((pairs us.length k : Nat) : Int) = 1 ↔ us.length ≤ 2 * k := by
      rw [← pairs_eq_one_iff hlength hk]
      omega
    rw [List.nil_append] at hm'
    refine .inr ⟨m', hm', ?_⟩
    simp only [sortPass, hnext, hpass, Option.bind_eq_bind, Option.bind_some, hone]

variable (poison) in
/-- The passes, from runs of a power of two on. -/
theorem sortPasses_spec (hcompare : TotalPreorder compare) {head : P} (h : m.Apart u us s [])
    (hus : us ≠ []) (hhead : head = u ∨ head = s) {i : Nat} (hi : i ≤ 30)
    (hruns : RunsSorted (le compare) (2 ^ i) us) {fuel turns : Nat} (hfuel : us.length < fuel)
    (hturns : us.length - 2 ^ i < turns) :
    (us.length ≤ 2 ^ 31 ∧ ∃ m' us',
      loop (sortPass poison compare fuel head) turns (m, u, s, ((2 ^ i : Nat) : Int)) = some m' ∧
        m'.IsList head us' ∧ Sorts compare us us') ∨
    2 ^ 31 < us.length ∧
      loop (sortPass poison compare fuel head) turns (m, u, s, ((2 ^ i : Nat) : Int)) = none := by
  induction turns generalizing m u s us i with
  | zero => cases hturns
  | succ turns ih =>
    have hk : 0 < 2 ^ i := Nat.two_pow_pos i
    have hsorted := mergeRuns_sorted (transitive_le hcompare) (total_le hcompare) hruns
    obtain ⟨hlong, hundefined⟩ | ⟨m', hm', hpass⟩ := sortPass_spec poison compare h hus head hk hfuel
    · exact .inr ⟨hlong, loop_undefined hundefined⟩
    have hlength := (mergeRuns_perm (le compare) (2 ^ i) us).length_eq
    have hne : mergeRuns (le compare) (2 ^ i) us ≠ [] :=
      List.ne_nil_of_length_pos (hlength.symm ▸ List.length_pos_iff.mpr hus)
    by_cases hlast : us.length ≤ 2 * 2 ^ i
    · rw [if_pos hlast] at hpass
      have hbound : 2 ^ i ≤ 2 ^ 30 := Nat.pow_le_pow_right (by decide) hi
      have hpairwise := hsorted.pairwise (hlength.trans_le hlast)
      exact .inl ⟨by omega, _, _, loop_exit hpass, rehead_spec hm' hne hhead,
        (Sorts.of_pairwise hpairwise).of_mergeRuns hcompare hruns⟩
    rw [if_neg hlast] at hpass
    rcases Nat.lt_or_eq_of_le hi with hless | rfl
    · have hpow : 2 * 2 ^ i = 2 ^ (i + 1) := (Nat.pow_succ').symm
      have hbound : 2 ^ (i + 1) ≤ 2 ^ 30 := Nat.pow_le_pow_right (by decide) hless
      have hint : int ((2 ^ i : Nat) * 2) = some ((2 ^ (i + 1) : Nat) : Int) := by
        rw [int, if_pos (by simp only [intMax]; omega)]
        congr 1
      rw [hint, Option.bind_some] at hpass
      rw [loop_next hpass, ← hlength]
      rw [hpow] at hsorted hlast
      refine (ih hm'.symm hne hhead.symm hless hsorted (by omega) (by omega)).imp_left ?_
      rintro ⟨hle, m'', us'', hrun, hlist, hsorts⟩
      exact ⟨hle, m'', us'', hrun, hlist, hsorts.of_mergeRuns hcompare hruns⟩
    · -- the runs get too long
      have hint : int ((2 ^ 30 : Nat) * 2) = none := by decide
      rw [hint, Option.bind_none] at hpass
      exact .inr ⟨by omega, loop_undefined hpass⟩

/-! ### More turns -/

theorem mergePair_mono {fuel fuel' : Nat} (hle : fuel ≤ fuel') (K : Int) (st : Links P × P × Int) (r)
    (h : mergePair poison compare fuel u s K st = some r) :
    mergePair poison compare fuel' u s K st = some r := by
  obtain ⟨m, p, count⟩ := st
  simp only [mergePair, Option.bind_eq_bind, Option.bind_eq_some_iff] at h ⊢
  obtain ⟨run, hrun, merged, hmerged, hrest⟩ := h
  exact ⟨run, loop_mono (fun _ _ => id) hle hrun, merged, loop_mono (fun _ _ => id) hle hmerged, hrest⟩

theorem sortPass_mono {fuel fuel' : Nat} (hle : fuel ≤ fuel') (head : P)
    (st : Links P × P × P × Int) (r) (h : sortPass poison compare fuel head st = some r) :
    sortPass poison compare fuel' head st = some r := by
  obtain ⟨m, u, s, K⟩ := st
  simp only [sortPass, Option.bind_eq_bind, Option.bind_eq_some_iff] at h ⊢
  obtain ⟨pass, hpass, hrest⟩ := h
  exact ⟨pass, loop_mono (mergePair_mono hle K) hle hpass, hrest⟩

theorem listMergesort_mono {fuel fuel' : Nat} (hle : fuel ≤ fuel') {head empty : P} {m' : Links P}
    (h : listMergesort poison compare fuel m head empty = some m') :
    listMergesort poison compare fuel' m head empty = some m' := by
  simp only [listMergesort] at h ⊢
  split at h
  · rwa [if_pos ‹_›]
  · rw [if_neg ‹_›]
    exact loop_mono (sortPass_mono hle head) hle h

variable (poison) in
/-- With one turn more than the list has entries it is sorted, or the lengths of the runs go
beyond an `int`. -/
theorem listMergesort_spec (hcompare : TotalPreorder compare) {head empty : P} {l : List P}
    (h : m.IsList head l) (hempty : empty ∉ head :: l) {fuel : Nat} (hfuel : l.length < fuel) :
    (l.length ≤ 2 ^ 31 ∧ ∃ m' l', listMergesort poison compare fuel m head empty = some m' ∧
      m'.IsList head l' ∧ Sorts compare l l') ∨
    2 ^ 31 < l.length ∧ listMergesort poison compare fuel m head empty = none := by
  have hapart := listHead_spec h hempty
  rw [listMergesort]
  cases l with
  | nil =>
    have hlist : (listHead m empty).IsList head [] := ⟨hapart.left, h.nodup⟩
    rw [if_pos hapart.left.1]
    exact .inl ⟨by simp, _, _, rfl, hlist, .of_pairwise .nil⟩
  | cons y l =>
    have hy : (listHead m empty).next head ≠ head := by
      rw [hapart.left.1.1]
      exact ne_head_of_apart (l := []) hapart
    have hturns : (y :: l).length - 2 ^ 0 < fuel := by omega
    have hpasses := sortPasses_spec poison hcompare hapart (List.cons_ne_nil y l) (.inl rfl)
      (by decide) runsSorted_one hfuel hturns
    rw [if_neg hy]
    exact hpasses

theorem listMergesort_undefined (hcompare : TotalPreorder compare) {head empty : P} {l : List P}
    (h : m.IsList head l) (hempty : empty ∉ head :: l) (hlong : 2 ^ 31 < l.length) (fuel : Nat) :
    listMergesort poison compare fuel m head empty = none := by
  cases hrun : listMergesort poison compare fuel m head empty with
  | none => rfl
  | some m' =>
    have hfuel : l.length < fuel + (l.length + 1) := by omega
    obtain ⟨hle, -⟩ | ⟨-, hnone⟩ := listMergesort_spec poison hcompare h hempty hfuel
    · omega
    · rw [listMergesort_mono (Nat.le_add_right _ _) hrun] at hnone
      cases hnone

/-- The list is sorted in place if and only if it has at most 2^31 entries. -/
theorem listMergesort_iff (poison : Poison P) (hcompare : TotalPreorder compare) {head empty : P}
    {l : List P} (h : m.IsList head l) (hempty : empty ∉ head :: l) :
    (∃ fuel m' l', listMergesort poison compare fuel m head empty = some m' ∧
      m'.IsList head l' ∧ Sorts compare l l') ↔ l.length ≤ 2 ^ 31 := by
  constructor
  · rintro ⟨fuel, m', l', hrun, -⟩
    by_contra hlong
    rw [listMergesort_undefined hcompare h hempty (Nat.not_le.mp hlong)] at hrun
    cases hrun
  · intro hle
    obtain ⟨-, hsorted⟩ | ⟨hlong, -⟩ := listMergesort_spec poison hcompare h hempty
      (Nat.lt_succ_self l.length)
    · exact ⟨_, hsorted⟩
    · omega

end

/-! ### Numbers as nodes -/

/-- The head 0 and the nodes 1 to `n`. -/
def ring (n : Nat) : Links Nat where
  next i := if i < n then i + 1 else 0
  prev i := if i = 0 then n else i - 1

theorem ring_isList (n : Nat) : (ring n).IsList 0 (List.range' 1 n) := by
  have hchain : ∀ k a, a + k = n → (ring n).Chain a (List.range' (a + 1) k) 0 := by
    intro k
    induction k with
    | zero =>
      intro a ha
      simp [Links.Chain, ring, ← ha]
    | succ k ih =>
      intro a ha
      refine ⟨⟨if_pos (by omega), by simp [ring]⟩, ?_⟩
      exact ih (a + 1) (by omega)
  have hnodup := List.nodup_range' (s := 0) (n := n + 1)
  exact ⟨hchain n 0 (Nat.zero_add n), hnodup⟩

theorem not_mem_ring (n : Nat) : n + 1 ∉ 0 :: List.range' 1 n := by
  simp [List.mem_range'_1, Nat.add_comm]

/-- Their last digits. -/
def compareDigits (a b : Nat) : Int := (a % 10 : Nat) - (b % 10 : Nat)

theorem compareDigits_preorder : TotalPreorder compareDigits :=
  ⟨fun a b => by simp only [compareDigits]; omega, fun a b c => by simp only [compareDigits]; omega⟩

theorem listMergesort_iff_twelve : ∃ fuel m' l',
    listMergesort ⟨0, 0⟩ compareDigits fuel (ring 12) 0 13 = some m' ∧ m'.IsList 0 l' ∧
      Sorts compareDigits (List.range' 1 12) l' :=
  (listMergesort_iff ⟨0, 0⟩ compareDigits_preorder (ring_isList 12) (by decide)).mpr (by decide)

/-- The list of 2^31 + 1 nodes is never sorted: the length of the runs does not fit any more. -/
theorem listMergesort_long : (ring (2 ^ 31 + 1)).IsList 0 (List.range' 1 (2 ^ 31 + 1)) ∧
    ∀ fuel, listMergesort ⟨0, 0⟩ compareDigits fuel (ring (2 ^ 31 + 1)) 0 (2 ^ 31 + 2) = none := by
  have hlength : (List.range' 1 (2 ^ 31 + 1)).length = 2 ^ 31 + 1 := List.length_range'
  exact ⟨ring_isList _, listMergesort_undefined compareDigits_preorder (ring_isList _)
    (not_mem_ring _) (by rw [hlength]; exact Nat.lt_succ_self _)⟩

end GracefulMusic.Mergesort
