import GracefulMusic.Glob.Items
import GracefulMusic.Playlist.Mergesort
import Mathlib.Data.List.Chain

/-! Simplification of a compiled pattern in place (`glob.c`).

The items are nodes of a list. Each row of wildcards, with the text that ends it, is gone
through once to count them, once to move the question marks to where the row begins, and once
to free all stars but the last. -/
namespace GracefulMusic.Glob
open Loops
open Mergesort (Poison listDel link link_eq int ring ring_isList)

/-- The links of the nodes and their items; the head is no item, nor is one that was freed. -/
structure Memory (P : Type) where
  links : Links P
  item : P → Option GlobItem

namespace Memory
variable {P : Type}

section
variable [DecidableEq P]

def free (m : Memory P) (gi : P) : Memory P := {m with item := Function.update m.item gi none}

/-- `list_add` -/
def listAdd (m : Links P) (new head : P) : Links P := link m new head (m.next head)

/-- Where the count goes on, or ends. -/
def goOn (head i : P) (qcount scount : Int) : (P × Int × Int) ⊕ (P × Int × Int) :=
  if i = head then .inr (i, qcount, scount) else .inl (i, qcount, scount)

/-- Counting the wildcards up to a text. -/
def countGroup (m : Memory P) (head : P) :
    P × Int × Int → Option ((P × Int × Int) ⊕ (P × Int × Int))
  | (i, qcount, scount) => do
    match ← m.item i with
    | .star => return goOn head (m.links.next i) qcount (← int (scount + 1))
    | .qmark => return goOn head (m.links.next i) (← int (qcount + 1)) scount
    | .text _ => return .inr (m.links.next i, qcount, scount)

variable (poison : Poison P)

/-- Move all question marks to the front. -/
def moveQmarks (insertAfter : P) :
    Memory P × P × Int → Option ((Memory P × P × Int) ⊕ Memory P)
  | (m, i, qcount) =>
    if qcount = 0 then some (.inr m)
    else do
      let type ← m.item i
      let next := m.links.next i
      if type = .qmark then
        let links := listAdd (listDel poison m.links i) i insertAfter
        return .inl ({m with links}, next, qcount - 1)
      else return .inl (m, next, qcount)

/-- Of the stars remove all but the last. -/
def removeStars : Memory P × P × Int → Option ((Memory P × P × Int) ⊕ Memory P)
  | (m, i, scount) =>
    if scount > 1 then do
      let type ← m.item i
      let next := m.links.next i
      if type = .star then
        return .inl (free {m with links := listDel poison m.links i} i, next, scount - 1)
      else return .inl (m, next, scount)
    else some (.inr m)

def simplifyGroup (fuel : Nat) (head : P) : Memory P × P → Option ((Memory P × P) ⊕ Memory P)
  | (m, item) =>
    if item = head then some (.inr m)
    else do
      let (next, qcount, scount) ← loop (countGroup m head) fuel (item, 0, 0)
      if scount = 0 then return .inl (m, next)
      else
        let insertAfter := m.links.prev item
        let m ← loop (moveQmarks poison insertAfter) fuel (m, item, qcount)
        let m ← loop (removeStars poison) fuel (m, item, scount)
        return .inl (m, next)

/-- `fuel` bounds the turns of each loop. -/
def simplify (fuel : Nat) (m : Memory P) (head : P) : Option (Memory P) :=
  loop (simplifyGroup poison fuel head) fuel (m, m.links.next head)

end

/-! ### Nodes and their items -/

/-- A list in memory: each node with its item. -/
structure Holds (m : Memory P) (head : P) (entries : List (P × GlobItem)) : Prop where
  list : m.links.IsList head (entries.map Prod.fst)
  item : ∀ e ∈ entries, m.item e.1 = some e.2

/-- The first node of what is left of a list, or the head. -/
def first (head : P) (entries : List (P × GlobItem)) : P := (entries.map Prod.fst).headD head

/-- The last node of what a list begins with, or the head. -/
def last (head : P) (entries : List (P × GlobItem)) : P := (entries.map Prod.fst).getLastD head

variable {m : Memory P} {head : P} {e : P × GlobItem} {front mid back : List (P × GlobItem)}

theorem first_cons : first head (e :: back) = e.1 := rfl

theorem Holds.item_eq (h : m.Holds head (front ++ e :: back)) : m.item e.1 = some e.2 :=
  h.item e (List.mem_append_right _ (.head _))

theorem Holds.next_eq (h : m.Holds head (front ++ e :: back)) :
    m.links.next e.1 = first head back := by
  have hlist := h.list
  rw [List.append_cons, List.map_append] at hlist
  have hnext := hlist.next_last
  rwa [List.map_append, List.map_singleton, List.getLastD_concat] at hnext

theorem Holds.prev_eq (h : m.Holds head (front ++ e :: back)) :
    m.links.prev e.1 = last head front := by
  have hlist := h.list
  rw [List.map_append, List.map_cons] at hlist
  exact hlist.prev_eq

theorem Holds.ne_head (h : m.Holds head (front ++ e :: back)) : e.1 ≠ head := by
  have hhead := (List.nodup_cons.mp h.list.nodup).1
  exact fun heq => hhead (heq ▸ List.mem_map_of_mem (List.mem_append_right _ (.head _)))

theorem Holds.first_eq_head (h : m.Holds head (front ++ back)) :
    first head back = head ↔ back = [] := by
  cases back with
  | nil => exact iff_of_true rfl rfl
  | cons e back => exact iff_of_false h.ne_head (List.cons_ne_nil _ _)

/-! ### Moving and freeing -/

section
variable [DecidableEq P] (poison : Poison P)

theorem listDel_isList {links : Links P} {l r : List P} {x : P}
    (h : links.IsList head (l ++ x :: r)) : (listDel poison links x).IsList head (l ++ r) := by
  obtain ⟨hremoved, hx⟩ := h.remove
  refine ⟨hremoved.chain.congr (fun y hy => ?_) fun y hy => ?_, hremoved.nodup⟩
  all_goals exact Function.update_of_ne (ne_of_mem_of_not_mem hy hx) _ _

theorem listAdd_isList {links : Links P} {l r : List P} {x : P} (h : links.IsList head (l ++ r))
    (hx : x ∉ head :: (l ++ r)) :
    (listAdd links x (l.getLastD head)).IsList head (l ++ x :: r) := by
  have hlast : l.getLastD head ∈ head :: (l ++ r) :=
    List.mem_append_left r List.getLastD_mem_cons
  have hnext : r.headD head ∈ head :: (l ++ r) := by
    cases r with
    | nil => exact .head _
    | cons y r => exact .tail _ (List.mem_append_right l (.head _))
  rw [listAdd, h.next_last, link_eq (ne_of_mem_of_not_mem hlast hx).symm
    (ne_of_mem_of_not_mem hnext hx).symm]
  exact h.insert hx

/-- A node that is moved in front of others. -/
theorem Holds.move (h : m.Holds head (front ++ mid ++ e :: back)) :
    Holds {m with links := listAdd (listDel poison m.links e.1) e.1 (last head front)} head
      (front ++ e :: (mid ++ back)) := by
  have hlist := h.list
  rw [List.map_append, List.map_cons, List.map_append] at hlist
  have hdel := listDel_isList poison hlist
  have hnot := hlist.remove.2
  rw [List.append_assoc] at hdel hnot
  refine ⟨?_, fun f hf => h.item f ?_⟩
  · rw [List.map_append, List.map_cons, List.map_append]
    exact listAdd_isList hdel hnot
  · simp only [List.mem_append, List.mem_cons] at hf ⊢
    tauto

/-- A node that is freed. -/
theorem Holds.free (h : m.Holds head (front ++ e :: back)) :
    Holds (Memory.free {m with links := listDel poison m.links e.1} e.1) head (front ++ back) := by
  have hlist := h.list
  rw [List.map_append, List.map_cons] at hlist
  obtain ⟨-, hnot⟩ := hlist.remove
  refine ⟨?_, fun f hf => ?_⟩
  · rw [List.map_append]
    exact listDel_isList poison hlist
  · have hne : f.1 ≠ e.1 := by
      have hmem := List.mem_map_of_mem (f := Prod.fst) hf
      rw [List.map_append] at hmem
      exact ne_of_mem_of_not_mem (List.mem_cons_of_mem head hmem) hnot
    have hsub : (front ++ back).Sublist (front ++ e :: back) :=
      (List.sublist_cons_self e back).append_left front
    exact (Function.update_of_ne hne _ _).trans (h.item f (hsub.subset hf))

/-! ### The loops -/

/-- The wildcards of a row. -/
def Wild (entries : List (P × GlobItem)) : Prop := ∀ e ∈ entries, e.2 = .star ∨ e.2 = .qmark

/-- What comes behind a row: a text or the end. -/
def EndsRow (entries : List (P × GlobItem)) : Prop := ∀ e ∈ entries.head?, ∃ t, e.2 = .text t

/-- How many items of a kind there are. -/
def number (item : GlobItem) (entries : List (P × GlobItem)) : Nat :=
  (entries.map Prod.snd).count item

variable {wild tail : List (P × GlobItem)} {fuel : Nat}

omit [DecidableEq P] in
theorem number_cons (item : GlobItem) :
    number item (e :: wild) = number item wild + if e.2 = item then 1 else 0 := by
  rw [number, List.map_cons, List.count_cons, number]
  simp only [beq_iff_eq]

/-- **The count of a row** leads to what comes behind the text that ends it. -/
theorem countGroup_spec (h : m.Holds head (front ++ (wild ++ tail))) (hwild : Wild wild)
    (hend : EndsRow tail) (hne : wild ++ tail ≠ []) {q s : Int} (hq : q + wild.length ≤ intMax)
    (hs : s + wild.length ≤ intMax) (hfuel : wild.length < fuel) :
    loop (countGroup m head) fuel (first head (wild ++ tail), q, s) =
      some (first head tail.tail, q + number .qmark wild, s + number .star wild) := by
  induction wild generalizing front q s fuel with
  | nil =>
    obtain ⟨e, more, rfl⟩ := List.exists_cons_of_ne_nil hne
    obtain ⟨fuel, rfl⟩ := Nat.exists_eq_add_one_of_ne_zero (Nat.ne_of_gt hfuel)
    obtain ⟨t, ht⟩ := hend e rfl
    apply loop_exit
    rw [List.nil_append, first_cons, countGroup, h.item_eq, ht, h.next_eq]
    simp [number]
  | cons e wild ih =>
    obtain ⟨fuel, rfl⟩ := Nat.exists_eq_add_one_of_ne_zero (Nat.ne_of_gt
      (Nat.lt_of_le_of_lt (Nat.zero_le _) hfuel))
    rw [List.length_cons] at hq hs hfuel
    have hbody : countGroup m head (e.1, q, s) =
        some (goOn head (first head (wild ++ tail)) (q + if e.2 = .qmark then 1 else 0)
          (s + if e.2 = .star then 1 else 0)) := by
      have hitem : m.item e.1 = some e.2 := h.item_eq
      have hnext : m.links.next e.1 = first head (wild ++ tail) := h.next_eq
      rcases hwild e (.head _) with he | he
      · have hfits : int (s + 1) = some (s + 1) := if_pos (by omega)
        simp [countGroup, hitem, hnext, he, hfits]
      · have hfits : int (q + 1) = some (q + 1) := if_pos (by omega)
        simp [countGroup, hitem, hnext, he, hfits]
    have h' : m.Holds head ((front ++ [e]) ++ (wild ++ tail)) := by
      rw [List.append_assoc]
      exact h
    rw [List.cons_append, first_cons, number_cons, number_cons]
    by_cases hlast : wild ++ tail = []
    · obtain ⟨rfl, rfl⟩ := List.append_eq_nil_iff.mp hlast
      rw [loop_exit (hbody.trans (congrArg some (if_pos rfl)))]
      simp [number]
    · have hgo : first head (wild ++ tail) ≠ head := fun heq => hlast (h'.first_eq_head.mp heq)
      rw [loop_next (hbody.trans (congrArg some (if_neg hgo))),
        ih h' (fun f hf => hwild f (.tail _ hf)) hlast (by split <;> omega) (by split <;> omega)
          (by omega)]
      push_cast
      rw [add_assoc, add_comm (number .qmark wild : Int), add_assoc,
        add_comm (number .star wild : Int)]

/-- The items of a row that are of a kind, as they stand. -/
def only (item : GlobItem) (entries : List (P × GlobItem)) : List (P × GlobItem) :=
  entries.filter (·.2 = item)

omit [DecidableEq P] in
theorem only_cons_of_eq {item : GlobItem} (h : e.2 = item) :
    only item (e :: wild) = e :: only item wild :=
  List.filter_cons_of_pos (by simpa using h)

omit [DecidableEq P] in
theorem only_cons_of_ne {item : GlobItem} (h : e.2 ≠ item) :
    only item (e :: wild) = only item wild :=
  List.filter_cons_of_neg (by simpa using h)

omit [DecidableEq P] in
theorem length_only (item : GlobItem) : (only item wild).length = number item wild := by
  induction wild with
  | nil => rfl
  | cons e wild ih =>
    rw [number_cons]
    by_cases he : e.2 = item
    · rw [only_cons_of_eq he, List.length_cons, ih, if_pos he]
    · rw [only_cons_of_ne he, ih, if_neg he, Nat.add_zero]

omit [DecidableEq P] in
/-- Without the one kind a row is all of the other. -/
theorem only_of_number {a b : GlobItem} (hwild : ∀ e ∈ wild, e.2 = a ∨ e.2 = b)
    (h : number b wild = 0) : only b wild = [] ∧ only a wild = wild := by
  have hnone : only b wild = [] := List.eq_nil_of_length_eq_zero ((length_only b).trans h)
  refine ⟨hnone, List.filter_eq_self.mpr fun e he => ?_⟩
  have hnot := List.filter_eq_nil_iff.mp hnone e he
  rcases hwild e he with ha | hb
  · exact decide_eq_true ha
  · exact absurd (decide_eq_true hb) hnot

variable (poison : Poison P)

/-- **Question marks are moved to the front**, where they come in front of those moved before. -/
theorem moveQmarks_spec {qs stars : List (P × GlobItem)}
    (h : m.Holds head (front ++ (qs ++ stars) ++ (wild ++ tail))) (hwild : Wild wild)
    (hfuel : wild.length < fuel) :
    ∃ m', loop (moveQmarks poison (last head front)) fuel
        (m, first head (wild ++ tail), number .qmark wild) = some m' ∧
      m'.Holds head
        (front ++ ((only .qmark wild).reverse ++ qs ++ (stars ++ only .star wild)) ++ tail) := by
  induction wild generalizing m qs stars fuel with
  | nil =>
    obtain ⟨fuel, rfl⟩ := Nat.exists_eq_add_one_of_ne_zero (Nat.ne_of_gt hfuel)
    refine ⟨m, loop_exit rfl, ?_⟩
    rwa [only, List.filter_nil, only, List.filter_nil, List.reverse_nil, List.nil_append,
      List.append_nil]
  | cons e wild ih =>
    obtain ⟨fuel, rfl⟩ := Nat.exists_eq_add_one_of_ne_zero (Nat.ne_of_gt
      (Nat.lt_of_le_of_lt (Nat.zero_le _) hfuel))
    by_cases hzero : number .qmark (e :: wild) = 0
    · obtain ⟨hnone, hall⟩ := only_of_number hwild hzero
      refine ⟨m, loop_exit (if_pos (by rw [hzero]; rfl)), ?_⟩
      rw [hnone, hall, List.reverse_nil, List.nil_append, ← List.append_assoc qs,
        ← List.append_assoc front, List.append_assoc _ (e :: wild)]
      exact h
    have hitem : m.item e.1 = some e.2 := h.item_eq
    have hnext : m.links.next e.1 = first head (wild ++ tail) := h.next_eq
    have hwild' : Wild wild := fun f hf => hwild f (.tail _ hf)
    have hpos : ¬ (number .qmark (e :: wild) : Int) = 0 := by exact_mod_cast hzero
    rcases hwild e (.head _) with he | he
    · -- a star stays where it is
      have hne : e.2 ≠ .qmark := by rw [he]; nofun
      have hbody : moveQmarks poison (last head front) (m, e.1, number .qmark (e :: wild)) =
          some (.inl (m, first head (wild ++ tail), number .qmark wild)) := by
        rw [moveQmarks, if_neg hpos, hitem, hnext, number_cons, if_neg hne]
        simp [hne]
      have h' : m.Holds head (front ++ (qs ++ (stars ++ [e])) ++ (wild ++ tail)) := by
        simpa using h
      obtain ⟨m', hloop, hholds⟩ := ih h' hwild' (Nat.lt_of_succ_lt_succ hfuel)
      refine ⟨m', (loop_next hbody).trans hloop, ?_⟩
      rw [only_cons_of_ne hne, only_cons_of_eq he]
      simpa using hholds
    · have hne : e.2 ≠ .star := by rw [he]; nofun
      have hmoved := h.move poison
      have hbody : moveQmarks poison (last head front) (m, e.1, number .qmark (e :: wild)) =
          some (.inl (⟨listAdd (listDel poison m.links e.1) e.1 (last head front), m.item⟩,
            first head (wild ++ tail), number .qmark wild)) := by
        rw [moveQmarks, if_neg hpos, hitem, hnext, number_cons, if_pos he]
        simp [he]
      have h' : Holds ⟨listAdd (listDel poison m.links e.1) e.1 (last head front), m.item⟩ head
          (front ++ ((e :: qs) ++ stars) ++ (wild ++ tail)) := by
        simpa using hmoved
      obtain ⟨m', hloop, hholds⟩ := ih h' hwild' (Nat.lt_of_succ_lt_succ hfuel)
      refine ⟨m', (loop_next hbody).trans hloop, ?_⟩
      rw [only_cons_of_eq he, only_cons_of_ne hne, List.reverse_cons, List.append_assoc _ [e]]
      exact hholds

/-- **Of a row of stars** the last one is left. -/
theorem removeStars_spec {stars : List (P × GlobItem)} {star : P × GlobItem}
    (h : m.Holds head (front ++ (stars ++ star :: tail))) (hstars : ∀ e ∈ stars, e.2 = .star)
    (hfuel : stars.length < fuel) :
    ∃ m', loop (removeStars poison) fuel
        (m, first head (stars ++ star :: tail), stars.length + 1) = some m' ∧
      m'.Holds head (front ++ star :: tail) := by
  induction stars generalizing m fuel with
  | nil =>
    obtain ⟨fuel, rfl⟩ := Nat.exists_eq_add_one_of_ne_zero (Nat.ne_of_gt hfuel)
    exact ⟨m, loop_exit rfl, h⟩
  | cons e stars ih =>
    obtain ⟨fuel, rfl⟩ := Nat.exists_eq_add_one_of_ne_zero (Nat.ne_of_gt
      (Nat.lt_of_le_of_lt (Nat.zero_le _) hfuel))
    have hitem : m.item e.1 = some e.2 := h.item_eq
    have hnext : m.links.next e.1 = first head (stars ++ star :: tail) := h.next_eq
    have he := hstars e (.head _)
    have hbody : removeStars poison (m, e.1, ((e :: stars).length : Int) + 1) =
        some (.inl (Memory.free ⟨listDel poison m.links e.1, m.item⟩ e.1,
          first head (stars ++ star :: tail), (stars.length : Int) + 1)) := by
      rw [removeStars, if_pos (by rw [List.length_cons]; omega), hitem, hnext]
      simp [he]
    obtain ⟨m', hloop, hholds⟩ := ih (h.free poison) (fun f hf => hstars f (.tail _ hf))
      (Nat.lt_of_succ_lt_succ hfuel)
    exact ⟨m', (loop_next hbody).trans hloop, hholds⟩

/-- The loop may begin at a question mark. -/
theorem removeStars_after {stars : List (P × GlobItem)} {q star : P × GlobItem}
    (h : m.Holds head (front ++ q :: (stars ++ star :: tail))) (hq : q.2 = .qmark)
    (hstars : ∀ e ∈ stars, e.2 = .star) (hfuel : stars.length + 1 < fuel) :
    ∃ m', loop (removeStars poison) fuel (m, q.1, stars.length + 1) = some m' ∧
      m'.Holds head (front ++ q :: star :: tail) := by
  obtain ⟨fuel, rfl⟩ := Nat.exists_eq_add_one_of_ne_zero (Nat.ne_of_gt
    (Nat.lt_of_le_of_lt (Nat.zero_le _) hfuel))
  have h' : m.Holds head ((front ++ [q]) ++ (stars ++ star :: tail)) := by
    rwa [List.append_assoc, List.singleton_append]
  obtain ⟨m', hloop, hholds⟩ := removeStars_spec poison h' hstars (Nat.lt_of_succ_lt_succ hfuel)
  rw [List.append_assoc, List.singleton_append] at hholds
  cases stars with
  | nil => exact ⟨m, loop_exit rfl, h⟩
  | cons e stars =>
    have hbody : removeStars poison (m, q.1, ((e :: stars).length : Int) + 1) =
        some (.inl (m, first head (e :: stars ++ star :: tail),
          ((e :: stars).length : Int) + 1)) := by
      rw [removeStars, if_pos (by rw [List.length_cons]; omega), h.item_eq, h.next_eq]
      simp [hq]
    exact ⟨m', (loop_next hbody).trans hloop, hholds⟩

omit [DecidableEq P] in
theorem only_mem {item : GlobItem} (he : e ∈ only item wild) : e.2 = item :=
  of_decide_eq_true (List.mem_filter.mp he).2

omit [DecidableEq P] in
theorem map_only (item : GlobItem) :
    (only item wild).map Prod.snd = List.replicate (number item wild) item := by
  rw [← length_only]
  exact List.eq_replicate_iff.mpr ⟨List.length_map _, fun i hi => by
    obtain ⟨e, he, rfl⟩ := List.mem_map.mp hi
    exact only_mem he⟩

omit [DecidableEq P] in
theorem simplifyLoop_wild (hwild : Wild wild) (items : List GlobItem) (qcount scount : Nat) :
    simplifyLoop (wild.map Prod.snd ++ items) qcount scount =
      simplifyLoop items (qcount + number .qmark wild) (scount + number .star wild) := by
  induction wild generalizing qcount scount with
  | nil => rfl
  | cons e wild ih =>
    have hwild' : Wild wild := fun f hf => hwild f (.tail _ hf)
    rw [List.map_cons, List.cons_append, number_cons, number_cons]
    rcases hwild e (.head _) with he | he
    · rw [he, simplifyLoop, ih hwild', if_neg (by decide), if_pos rfl]
      congr 1
      omega
    · rw [he, simplifyLoop, ih hwild', if_pos rfl, if_neg (by decide)]
      congr 1
      omega

/-- **A row with a star** is put in order. -/
theorem row_spec {e : P × GlobItem} (h : m.Holds head (front ++ (e :: wild ++ tail)))
    (hwild : Wild (e :: wild)) (hstar : number .star (e :: wild) ≠ 0)
    (hfuel : wild.length + 1 < fuel) :
    ∃ m' m'' row, loop (moveQmarks poison (m.links.prev e.1)) fuel
        (m, e.1, number .qmark (e :: wild)) = some m' ∧
      loop (removeStars poison) fuel (m', e.1, number .star (e :: wild)) = some m'' ∧
      m''.Holds head (front ++ (row ++ tail)) ∧
      row.map Prod.snd = ordered (number .qmark (e :: wild)) (number .star (e :: wild)) := by
  have h' : m.Holds head (front ++ ([] ++ []) ++ (e :: wild ++ tail)) := by simpa using h
  have hprev : m.links.prev e.1 = last head front := h.prev_eq
  obtain ⟨m', hmove, hholds⟩ := moveQmarks_spec poison h' hwild hfuel
  rw [List.append_nil, List.nil_append] at hholds
  obtain ⟨stars, star, hstars⟩ : ∃ stars star, only .star (e :: wild) = stars ++ [star] := by
    have hne : only .star (e :: wild) ≠ [] := by
      rw [← List.length_pos_iff, length_only]
      omega
    exact ⟨_, _, (List.dropLast_append_getLast hne).symm⟩
  have hlength : number .star (e :: wild) = stars.length + 1 := by
    rw [← length_only, hstars, List.length_append, List.length_singleton]
  have hall : ∀ f ∈ stars, f.2 = .star := fun f hf =>
    only_mem (hstars ▸ List.mem_append_left [star] hf)
  have hshort : stars.length + 1 ≤ wild.length + 1 := by
    rw [← hlength, ← length_only]
    exact List.length_filter_le ..
  have hitems : ((only .qmark (e :: wild)).reverse ++ [star]).map Prod.snd =
      ordered (number .qmark (e :: wild)) (number .star (e :: wild)) := by
    have hlast : star.2 = .star := only_mem (hstars ▸ List.mem_append_right stars (.head _))
    rw [List.map_append, List.map_reverse, map_only, List.reverse_replicate, ordered,
      if_neg hstar, List.map_singleton, hlast]
  have hrow : m'.Holds head
      (front ++ ((only .qmark (e :: wild)).reverse ++ (stars ++ star :: tail))) := by
    rw [hstars] at hholds
    simpa using hholds
  rw [hprev, hlength]
  rw [hlength] at hitems
  have hturns : stars.length + 1 < fuel := by omega
  rcases hwild e (.head _) with he | he
  · -- the first node is the first of the stars
    have hfirst : e.1 = first head (stars ++ star :: tail) := by
      rw [List.append_cons, ← hstars, only_cons_of_eq he, List.cons_append, first_cons]
    rw [← List.append_assoc] at hrow
    obtain ⟨m'', hremove, hdone⟩ := removeStars_spec poison hrow hall (Nat.lt_of_succ_lt hturns)
    refine ⟨m', m'', _, hmove, ?_, ?_, hitems⟩
    · rw [hfirst]
      exact_mod_cast hremove
    · simpa using hdone
  · -- it is the last of the question marks
    rw [only_cons_of_eq he, List.reverse_cons, List.append_assoc, List.singleton_append,
      ← List.append_assoc front] at hrow
    obtain ⟨m'', hremove, hdone⟩ := removeStars_after poison hrow he hall hturns
    refine ⟨m', m'', _, hmove, ?_, ?_, hitems⟩
    · exact_mod_cast hremove
    · rw [only_cons_of_eq he]
      simpa using hdone

/-- **A turn of the outer loop**: a row of wildcards and the text that ends it. -/
theorem simplifyGroup_spec (h : m.Holds head (front ++ (wild ++ tail))) (hwild : Wild wild)
    (hend : EndsRow tail) (hne : wild ++ tail ≠ []) (hshort : wild.length ≤ intMax)
    (hfuel : wild.length < fuel) :
    ∃ m' row, simplifyGroup poison fuel head (m, first head (wild ++ tail)) =
        some (.inl (m', first head tail.tail)) ∧
      m'.Holds head (front ++ (row ++ tail)) ∧
      row.map Prod.snd = ordered (number .qmark wild) (number .star wild) := by
  have hitem : first head (wild ++ tail) ≠ head := fun heq => hne (h.first_eq_head.mp heq)
  have hcount := countGroup_spec h hwild hend hne (q := 0) (s := 0) (by omega) (by omega) hfuel
  rw [Int.zero_add, Int.zero_add] at hcount
  rw [simplifyGroup, if_neg hitem, hcount, Option.bind_eq_bind, Option.bind_some]
  by_cases hstar : number .star wild = 0
  · -- without a star nothing is moved
    have hqmarks : wild.map Prod.snd = ordered (number .qmark wild) (number .star wild) := by
      have hall := (only_of_number (fun e he => (hwild e he).symm) hstar).2
      rw [hstar, ordered, if_pos rfl, List.append_nil, ← map_only, hall]
    exact ⟨m, wild, by rw [hstar]; rfl, h, hqmarks⟩
  · cases wild with
    | nil => exact absurd rfl hstar
    | cons e wild =>
      obtain ⟨m', m'', row, hmove, hremove, hholds, hrow⟩ := row_spec poison h hwild hstar hfuel
      have hpos : ¬ (number .star (e :: wild) : Int) = 0 := by exact_mod_cast hstar
      refine ⟨m'', row, ?_, hholds, hrow⟩
      rw [List.cons_append, first_cons]
      simp only [if_neg hpos, hmove, hremove, Option.bind_eq_bind, Option.bind_some]
      rfl

omit [DecidableEq P] in
/-- A list begins with a row of wildcards, which may be empty. -/
theorem exists_row (entries : List (P × GlobItem)) :
    ∃ wild tail, entries = wild ++ tail ∧ Wild wild ∧ EndsRow tail := by
  induction entries with
  | nil => exact ⟨[], [], rfl, nofun, nofun⟩
  | cons e entries ih =>
    obtain ⟨wild, tail, rfl, hwild, hend⟩ := ih
    cases he : e.2 with
    | text t => exact ⟨[], e :: (wild ++ tail), rfl, nofun, fun f hf => ⟨t, by cases hf; exact he⟩⟩
    | star => exact ⟨e :: wild, tail, rfl, List.forall_mem_cons.mpr ⟨.inl he, hwild⟩, hend⟩
    | qmark => exact ⟨e :: wild, tail, rfl, List.forall_mem_cons.mpr ⟨.inr he, hwild⟩, hend⟩

/-- The rows that are left are put in order one after the other. -/
theorem simplifyGroups_spec {rest : List (P × GlobItem)} {turns : Nat}
    (h : m.Holds head (front ++ rest)) (hshort : rest.length ≤ intMax) (hfuel : rest.length < fuel)
    (hturns : rest.length < turns) :
    ∃ m' entries, loop (simplifyGroup poison fuel head) turns (m, first head rest) = some m' ∧
      m'.Holds head entries ∧
      entries.map Prod.snd = front.map Prod.snd ++ simplifyLoop (rest.map Prod.snd) 0 0 := by
  induction turns generalizing m front rest with
  | zero => exact absurd hturns (Nat.not_lt_zero _)
  | succ turns ih =>
    by_cases hne : rest = []
    · subst hne
      refine ⟨m, front, loop_exit (if_pos rfl), ?_, (List.append_nil _).symm⟩
      rwa [List.append_nil] at h
    obtain ⟨wild, tail, rfl, hwild, hend⟩ := exists_row rest
    rw [List.length_append] at hshort hfuel hturns
    obtain ⟨m', row, hgroup, hholds, hrow⟩ :=
      simplifyGroup_spec poison h hwild hend hne (show (wild.length : Int) ≤ intMax by omega)
        (show wild.length < fuel by omega)
    rw [List.map_append, simplifyLoop_wild hwild, Nat.zero_add, Nat.zero_add]
    cases tail with
    | nil =>
      have hpos : 0 < wild.length := by
        rw [List.append_nil] at hne
        exact List.length_pos_iff.mpr hne
      obtain ⟨turns, rfl⟩ := Nat.exists_eq_add_one_of_ne_zero (show turns ≠ 0 by omega)
      refine ⟨m', front ++ row, (loop_next hgroup).trans (loop_exit (if_pos rfl)), ?_, ?_⟩
      · simpa using hholds
      · rw [List.map_append, hrow, List.map_nil, simplifyLoop]
    | cons e more =>
      obtain ⟨t, ht⟩ := hend e rfl
      rw [List.length_cons] at hshort hfuel hturns
      have hdone : m'.Holds head ((front ++ row ++ [e]) ++ more) := by simpa using hholds
      obtain ⟨m'', entries, hloop, hentries, hitems⟩ := ih hdone (by omega) (by omega) (by omega)
      refine ⟨m'', entries, (loop_next hgroup).trans hloop, hentries, hitems.trans ?_⟩
      rw [List.map_cons, ht, simplifyLoop, List.map_append, List.map_append, hrow,
        List.map_singleton, ht]
      simp only [List.append_assoc, List.singleton_append]

end

end Memory

/-! ### The normal form -/

/-- What stands behind a star. -/
def Follows (a b : GlobItem) : Prop := a = .star → ∃ t, b = .text t

theorem replicate_chain {items : List GlobItem} (h : items.IsChain Follows) (qcount : Nat) :
    (List.replicate qcount GlobItem.qmark ++ items).IsChain Follows := by
  induction qcount with
  | zero => exact h
  | succ qcount ih => exact List.isChain_cons.mpr ⟨fun _ _ => nofun, ih⟩

theorem simplifyLoop_chain (items : List GlobItem) (qcount scount : Nat) :
    (simplifyLoop items qcount scount).IsChain Follows := by
  induction items generalizing qcount scount with
  | nil =>
    refine replicate_chain ?_ qcount
    split
    · exact .nil
    · exact .singleton _
  | cons item items ih =>
    cases item with
    | star => exact ih qcount (scount + 1)
    | qmark => exact ih (qcount + 1) scount
    | text t =>
      have htext : (GlobItem.text t :: simplifyLoop items 0 0).IsChain Follows :=
        List.isChain_cons.mpr ⟨fun _ _ => nofun, ih 0 0⟩
      rw [simplifyLoop, ordered, List.append_assoc]
      refine replicate_chain ?_ qcount
      split
      · exact htext
      · exact List.isChain_cons.mpr ⟨fun b hb _ => ⟨t, (Option.some.inj hb).symm⟩, htext⟩

/-- What is expected of the items after the simplification. -/
structure Simplified (items final : List GlobItem) : Prop where
  /-- The `BUG_ON` of `do_glob_match`. -/
  followed : ∀ front next back, final = front ++ .star :: next :: back → ∃ t, next = .text t
  apart : ∀ front back, final ≠ front ++ .star :: .star :: back
  matches_iff : ∀ (R : Glyph → Glyph → Prop) s,
    Wildcard.Matches R (itemTokens final) s ↔ Wildcard.Matches R (itemTokens items) s

theorem simplify_simplified (items : List GlobItem) : Simplified items (simplify items) := by
  have hfollowed : ∀ front next back, simplify items = front ++ .star :: next :: back →
      ∃ t, next = .text t := by
    intro front next back heq
    have hchain := simplifyLoop_chain items 0 0
    rw [show simplifyLoop items 0 0 = front ++ .star :: next :: back from heq] at hchain
    exact (List.isChain_append_cons_cons.mp hchain).2.1 rfl
  refine ⟨hfollowed, fun front back heq => ?_, fun R s => ?_⟩
  · obtain ⟨t, ht⟩ := hfollowed front .star back heq
    cases ht
  · have hsame : Wildcard.Same R Glyph.size Glyph.size (itemTokens items)
        (itemTokens (simplify items)) := simplifyLoop_tokens items 0 0
    exact (hsame.matches_iff s).symm

theorem length_compileLoop (fuel : Nat) (s : Text) : (compileLoop fuel s).length ≤ fuel := by
  induction fuel generalizing s with
  | zero => exact Nat.le_refl _
  | succ fuel ih =>
    cases s with
    | nil => exact Nat.zero_le _
    | cons c s =>
      rw [compileLoop]
      split
      · exact Nat.succ_le_succ (ih s)
      split
      · exact Nat.succ_le_succ (ih s)
      · exact Nat.succ_le_succ (ih _)

section
variable {P : Type} [DecidableEq P]

/-- **Compiled items are simplified in place**: the loops end, and what they leave is in the normal
form and matches the same texts. -/
theorem simplify_in_place (poison : Poison P) {m : Memory P} {head : P}
    {entries : List (P × GlobItem)} (h : m.Holds head entries) {pattern : Text}
    (hshort : pattern.length < 2 ^ 31)
    (hcompiled : entries.map Prod.snd = compileLoop pattern.length pattern) {fuel : Nat}
    (hfuel : entries.length < fuel) :
    ∃ m' entries', Memory.simplify poison fuel m head = some m' ∧ m'.Holds head entries' ∧
      entries'.map Prod.snd = simplify (entries.map Prod.snd) ∧
      Simplified (entries.map Prod.snd) (entries'.map Prod.snd) := by
  have hmax : intMax = 2 ^ 31 - 1 := rfl
  have hlength : entries.length ≤ pattern.length := by
    rw [← List.length_map Prod.snd, hcompiled]
    exact length_compileLoop _ _
  have hfirst : m.links.next head = Memory.first head entries := h.list.chain.next_eq
  have hfront : m.Holds head ([] ++ entries) := h
  obtain ⟨m', entries', hloop, hholds, hitems⟩ :=
    Memory.simplifyGroups_spec poison hfront (by omega) hfuel hfuel
  rw [← hfirst] at hloop
  refine ⟨m', entries', hloop, hholds, hitems, ?_⟩
  rw [hitems]
  exact simplify_simplified _

end

/-- The items of `*?*a`. -/
def starred : Memory Nat :=
  ⟨ring 4, fun i => if i = 0 then none else (compileLoop 4 (ascii "*?*a"))[i - 1]?⟩

theorem starred_holds : starred.Holds 0 ((List.range' 1 4).zip (compileLoop 4 (ascii "*?*a"))) := by
  refine ⟨?_, by decide⟩
  exact ring_isList 4

theorem simplify_in_place_starred : ∃ m' entries',
    Memory.simplify ⟨0, 0⟩ 5 starred 0 = some m' ∧ m'.Holds 0 entries' ∧
      entries'.map Prod.snd = simplify (compileLoop 4 (ascii "*?*a")) ∧
      Simplified (compileLoop 4 (ascii "*?*a")) (entries'.map Prod.snd) :=
  simplify_in_place ⟨0, 0⟩ starred_holds (show (ascii "*?*a").length < 2 ^ 31 by decide)
    (by decide) (by decide)

end GracefulMusic.Glob
