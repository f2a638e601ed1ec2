import GracefulMusic.Foundation.Runs
import GracefulMusic.Rbtree.Walk

/-! A tree as a sorted set.

Artists, albums and tracks are added where a search for their key ends, taken out, and a
node may take the place of an equal one. Whatever the order of these, the nodes in memory
are the sorted list of what was added and not taken out. -/
namespace GracefulMusic.Rbtree
open RedBlack (Color Side ColorTree Frame Context)
open RedBlack.ColorTree RedBlack.Context

inductive Op (P : Type) where
  | insert (node : P)
  | erase (node : P)
  | replace (victim new : P)

variable {P : Type}

/-- The nodes an operation is given. -/
def Op.nodes : Op P → List P
  | .insert x => [x]
  | .erase x => [x]
  | .replace v x => [v, x]

variable {K : Type} [LinearOrder K] (key : P → K)

/-- The comparisons are those of keys. -/
def Compares (cmp : P → P → Int) : Prop :=
  ∀ x y, (cmp x y < 0 ↔ key x < key y) ∧ (0 < cmp x y ↔ key y < key x)

/-- The nodes in order of their keys, without two equal keys. -/
def Sorted (l : List P) : Prop := l.Pairwise (key · < key ·)

variable [DecidableEq P] {m : Memory P} {s : Side} {c : Color} {a b t : ColorTree P} {k v x : P}
  {p : Context P} {l : List P} {rounds : Nat}

def step (cmp : P → P → Int) (rounds : Nat) (m : Memory P) : Op P → Option (Memory P)
  | .insert x => (m.rbInsert rounds (cmp x) x).map Prod.snd
  | .erase x => m.rbErase rounds x
  | .replace v x => some (m.rbReplaceNode v x)

/-- What an operation does to a sorted list. -/
def Op.onList (l : List P) : Op P → List P
  | .insert x =>
    if ∃ y ∈ l, key y = key x then l
    else l.filter (key · < key x) ++ x :: l.filter (key x < key ·)
  | .erase x => l.erase x
  | .replace v x => l.map fun y => if y = v then x else y

/-- A node is in the tree once, and only an equal one takes its place. -/
def Op.Legal (l : List P) : Op P → Prop
  | .insert x => x ∉ l
  | .erase x => x ∈ l
  | .replace v x => v ∈ l ∧ x ∉ l ∧ key x = key v

def Legal : List (Op P) → List P → Prop
  | [], _ => True
  | op :: ops, l => op.Legal key l ∧ Legal ops (op.onList key l)

instance (l : List P) : ∀ op : Op P, Decidable (op.Legal key l)
  | .insert x => inferInstanceAs (Decidable (x ∉ l))
  | .erase x => inferInstanceAs (Decidable (x ∈ l))
  | .replace v x => inferInstanceAs (Decidable (v ∈ l ∧ x ∉ l ∧ key x = key v))

instance Legal.decidable : ∀ (ops : List (Op P)) (l : List P), Decidable (Legal key ops l)
  | [], _ => isTrue trivial
  | op :: ops, l =>
    have := Legal.decidable ops (op.onList key l)
    inferInstanceAs (Decidable (op.Legal key l ∧ Legal key ops (op.onList key l)))

/-! ### One step -/

variable {key} {cmp : P → P → Int}

omit [DecidableEq P] in
theorem Sorted.graded (hs : Sorted key l) (hcmp : Compares key cmp) (x : P) :
    OrderedTree.Graded (cmp x) l := by
  refine hs.imp fun {y z} hlt => ⟨fun hy => ?_, fun hz => ?_⟩
  · have hle : key x ≤ key y := not_lt.mp fun h => absurd ((hcmp x y).2.mpr h) (by omega)
    exact (hcmp x z).1.mpr (lt_of_le_of_lt hle hlt)
  · have hle : key z ≤ key x := not_lt.mp fun h => absurd ((hcmp x z).1.mpr h) (by omega)
    exact (hcmp x y).2.mpr (lt_of_lt_of_le hlt hle)

omit [DecidableEq P] in
theorem key_eq_of_cmp (hcmp : Compares key cmp) (h : cmp x k = 0) : key k = key x := by
  refine le_antisymm (not_lt.mp fun hlt => ?_) (not_lt.mp fun hlt => ?_)
  · exact absurd ((hcmp x k).1.mpr hlt) (by omega)
  · exact absurd ((hcmp x k).2.mpr hlt) (by omega)

omit [DecidableEq P] in
theorem cmp_eq_zero (hcmp : Compares key cmp) (h : key k = key x) : cmp x k = 0 := by
  have hle : ¬ cmp x k < 0 := fun hlt => absurd ((hcmp x k).1.mp hlt) (by simp [h])
  have hge : ¬ 0 < cmp x k := fun hlt => absurd ((hcmp x k).2.mp hlt) (by simp [h])
  omega

/-- The search and the link put a node between the smaller and the greater ones. -/
theorem toList_attach (hcmp : Compares key cmp) (hs : Sorted key t.toList) (x : P) :
    (t.shape.attach (cmp x) x).toList = Op.onList key t.toList (.insert x) := by
  rw [Op.onList]
  cases hloc : t.shape.locate (cmp x) with
  | some k =>
    obtain ⟨hk, hzero⟩ := OrderedTree.locate_mem hloc
    rw [toList_shape] at hk
    rw [attach_of_locate hloc, toList_shape, if_pos ⟨k, hk, key_eq_of_cmp hcmp hzero⟩]
  | none =>
    obtain ⟨front, back, hsplit, hattach, -, hgraded⟩ := OrderedTree.attach_split x hloc
    rw [toList_shape] at hsplit hgraded
    obtain ⟨hfront, hback⟩ := hgraded (hs.graded hcmp x)
    have hlt : ∀ y ∈ front, key y < key x := fun y hy => (hcmp x y).2.mp (hfront y hy)
    have hgt : ∀ y ∈ back, key x < key y := fun y hy => (hcmp x y).1.mp (hback y hy)
    have hnew : ¬ ∃ y ∈ t.toList, key y = key x := by
      rintro ⟨y, hy, heq⟩
      rw [hsplit, List.mem_append] at hy
      rcases hy with hy | hy
      · exact (hlt y hy).ne heq
      · exact (hgt y hy).ne' heq
    rw [if_neg hnew, hattach, hsplit, List.filter_append, List.filter_append,
      List.filter_eq_self.mpr fun y hy => by simpa using hlt y hy,
      List.filter_eq_nil_iff.mpr fun y hy => by simpa using (hgt y hy).le,
      List.filter_eq_nil_iff.mpr fun y hy => by simpa using (hlt y hy).le,
      List.filter_eq_self.mpr fun y hy => by simpa using hgt y hy]
    simp

/-- `rb_replace_node` on a whole tree. -/
theorem rbReplaceNode_stores (hm : m.Stores t) (hv : v ∈ t.toList) (hx : x ∉ t.toList) :
    ∃ t', (m.rbReplaceNode v x).Stores t' ∧
      t'.toList = t.toList.map (fun y => if y = v then x else y) ∧
      ∀ q ∉ t.toList, q ≠ x → (m.rbReplaceNode v x).node q = m.node q := by
  obtain ⟨h, hb⟩ := hm
  have hnodup : t.toList.Nodup := by simpa [keys, before, after] using h.nodup
  obtain ⟨c, a, b, p, rfl⟩ := exists_path hv
  rw [mem_plug, not_or] at hx
  have h' := rbReplaceNode_at (at_plug.mpr h) hx.1 hx.2
  have hb' : IsBalanced (plug (build .left c a x b) p) := by
    obtain ⟨h₀, hvalid, htop, hfits⟩ := balanced_plug.mp hb
    refine balanced_plug.mpr ⟨h₀, ?_, htop, hfits⟩
    cases c with
    | red => exact valid_red.mpr (valid_red.mp hvalid)
    | black => exact valid_black.mpr (valid_black.mp hvalid)
  refine ⟨_, (at_plug.mp h').stores hb', ?_, fun q hq hqx => ?_⟩
  · rw [toList_plug] at hnodup
    simp only [build, toList, List.nodup_append, List.mem_append, List.mem_cons] at hnodup
    have hsame : ∀ l : List P, v ∉ l → l.map (fun y => if y = v then x else y) = l := fun l hl =>
      (List.map_congr_left fun y hy => if_neg fun (heq : y = v) => hl (heq ▸ hy)).trans
        (List.map_id l)
    rw [toList_plug, toList_plug]
    simp only [build, toList, List.map_append, List.map_cons, if_true]
    rw [hsame _ (by grind), hsame _ (by grind), hsame _ (by grind), hsame _ (by grind)]
  · rw [mem_plug, not_or] at hq
    have hqv : q ≠ v := fun heq => hq.1 (mem_toList_build.mpr (.inl heq))
    rw [h'.others q ?_ hq.2, Function.update_of_ne hqv]
    rw [mem_toList_build] at hq ⊢
    tauto

omit [DecidableEq P] in
theorem Sorted.insert (hs : Sorted key l) (x : P) :
    Sorted key (l.filter (key · < key x) ++ x :: l.filter (key x < key ·)) := by
  refine List.pairwise_append.mpr ⟨hs.filter _, List.pairwise_cons.mpr ⟨?_, hs.filter _⟩, ?_⟩
  · intro y hy
    simpa using (List.mem_filter.mp hy).2
  · intro y hy z hz
    have hyx : key y < key x := by simpa using (List.mem_filter.mp hy).2
    rcases List.mem_cons.mp hz with rfl | hz
    · exact hyx
    · exact hyx.trans (by simpa using (List.mem_filter.mp hz).2)

theorem Sorted.onList (hs : Sorted key l) {op : Op P} (hlegal : op.Legal key l) :
    Sorted key (op.onList key l) := by
  cases op with
  | insert x =>
    rw [Op.onList]
    split
    · exact hs
    · exact hs.insert x
  | erase x => exact hs.sublist (List.erase_sublist ..)
  | replace v x =>
    obtain ⟨-, -, hkey⟩ := hlegal
    have hsame : ∀ y, key (if y = v then x else y) = key y := fun y => by
      by_cases hy : y = v
      · rw [if_pos hy, hkey, hy]
      · rw [if_neg hy]
    exact List.pairwise_map.mpr (hs.imp fun h => by rwa [hsame, hsame])

theorem length_onList (key : P → K) (l : List P) (op : Op P) :
    (op.onList key l).length ≤ l.length + 1 := by
  cases op with
  | insert x =>
    rw [Op.onList]
    split
    · exact Nat.le_succ _
    · have hdisjoint : ∀ y, ¬ (key y < key x ∧ key x < key y) := fun y h => lt_asymm h.1 h.2
      have hle : (l.filter (key · < key x)).length + (l.filter (key x < key ·)).length ≤
          l.length := by
        induction l with
        | nil => simp
        | cons y l ih => grind
      simp only [List.length_append, List.length_cons]
      omega
  | erase x => exact (List.length_erase_le).trans (Nat.le_succ _)
  | replace v x => simp [Op.onList]

theorem mem_onList {op : Op P} {q : P} (h : q ∈ op.onList key l) : q ∈ l ∨ q ∈ op.nodes := by
  cases op with
  | insert x =>
    rw [Op.onList] at h
    split at h
    · exact .inl h
    · simp only [List.mem_append, List.mem_cons, List.mem_filter] at h
      rcases h with h | rfl | h
      · exact .inl h.1
      · exact .inr (.head _)
      · exact .inl h.1
  | erase x => exact .inl (List.mem_of_mem_erase h)
  | replace v x =>
    obtain ⟨y, hy, rfl⟩ := List.mem_map.mp h
    split
    · exact .inr (.tail _ (.head _))
    · exact .inl hy

/-- Each step keeps the tree, with the list that the operation makes of its own. -/
theorem step_stores (hcmp : Compares key cmp) (hm : m.Stores t) (hs : Sorted key t.toList)
    {op : Op P} (hlegal : op.Legal key t.toList)
    (hrounds : 2 * Nat.log 2 (t.toList.length + 1) < rounds) :
    ∃ m' t', step cmp rounds m op = some m' ∧ m'.Stores t' ∧
      t'.toList = op.onList key t.toList ∧
      ∀ q ∉ t.toList, q ∉ op.nodes → m'.node q = m.node q := by
  cases op with
  | insert x =>
    obtain ⟨m', t', hrun, hm', hlist, hframe⟩ := rbInsert_stores (cmp x) hm hlegal hrounds
    rw [toList_attach hcmp hs] at hlist
    refine ⟨m', t', by rw [step, hrun]; rfl, hm', hlist, fun q hq hqx => hframe q fun hmem => ?_⟩
    exact (mem_onList (hlist ▸ hmem)).elim hq hqx
  | erase x =>
    obtain ⟨m', t', hrun, hm', hlist, hframe⟩ := rbErase_stores hm hlegal hrounds
    exact ⟨m', t', hrun, hm', hlist, fun q hq _ => hframe q hq⟩
  | replace v x =>
    obtain ⟨hv, hx, -⟩ := hlegal
    obtain ⟨t', hm', hlist, hframe⟩ := rbReplaceNode_stores hm hv hx
    exact ⟨_, t', rfl, hm', hlist, fun q hq hqx => hframe q hq (by grind [Op.nodes])⟩

/-! ### Histories -/

theorem run_stores (hcmp : Compares key cmp) {ops : List (Op P)} (hm : m.Stores t)
    (hs : Sorted key t.toList) (hlegal : Legal key ops t.toList)
    (hrounds : 2 * Nat.log 2 (t.toList.length + ops.length + 1) < rounds) :
    ∃ m' t', Runs.run (step cmp rounds) m ops = some m' ∧ m'.Stores t' ∧
      t'.toList = ops.foldl (Op.onList key) t.toList ∧ Sorted key t'.toList ∧
      t'.toList.length ≤ t.toList.length + ops.length ∧
      ∀ q ∉ t.toList, (∀ op ∈ ops, q ∉ op.nodes) → m'.node q = m.node q := by
  induction ops generalizing m t with
  | nil => exact ⟨m, t, rfl, hm, rfl, hs, Nat.le_refl _, fun _ _ _ => rfl⟩
  | cons op ops ih =>
    obtain ⟨hop, hlegal⟩ := hlegal
    have hlog : 2 * Nat.log 2 (t.toList.length + 1) < rounds :=
      lt_of_le_of_lt (Nat.mul_le_mul_left 2 (Nat.log_mono_right (by omega))) hrounds
    obtain ⟨m₁, t₁, hstep, hm₁, hlist₁, hframe₁⟩ := step_stores hcmp hm hs hop hlog
    have hlength := length_onList key t.toList op
    rw [← hlist₁] at hlegal hlength
    have hs₁ : Sorted key t₁.toList := hlist₁ ▸ hs.onList hop
    simp only [List.length_cons] at hrounds ⊢
    have hrounds₁ : 2 * Nat.log 2 (t₁.toList.length + ops.length + 1) < rounds :=
      lt_of_le_of_lt (Nat.mul_le_mul_left 2 (Nat.log_mono_right (by omega))) hrounds
    obtain ⟨m', t', hrun, hm', hlist, hs', hlength', hframe⟩ := ih hm₁ hs₁ hlegal hrounds₁
    refine ⟨m', t', by rw [Runs.run, hstep, Option.bind_some, hrun], hm', ?_, hs', by omega,
      fun q hq hops => ?_⟩
    · rw [hlist, hlist₁, List.foldl_cons]
    · have hq₁ : q ∉ t₁.toList := fun hmem =>
        (mem_onList (hlist₁ ▸ hmem)).elim hq (hops op (.head _))
      rw [hframe q hq₁ fun op' h => hops op' (.tail _ h), hframe₁ q hq (hops op (.head _))]

omit [DecidableEq P] in
/-- A search ends at the node with the key that is sought, or there is none. -/
theorem search_sorted (hcmp : Compares key cmp) (hm : m.Stores t) (hs : Sorted key t.toList)
    (hrounds : 2 * Nat.log 2 (t.toList.length + 1) < rounds) (x : P) :
    (∃ y ∈ t.toList, key y = key x ∧ m.search (cmp x) rounds none m.root = some (.taken y)) ∨
    (∀ y ∈ t.toList, key y ≠ key x) ∧
      ∃ link, m.search (cmp x) rounds none m.root = some (.free link) := by
  obtain ⟨h, hb⟩ := hm
  rw [h.root]
  rcases search_at (cmp x) h (lt_of_le_of_lt hb.height_le hrounds) with
    ⟨k, hk, hsearch⟩ | ⟨hnone, p, -, -, hsearch, -⟩
  · obtain ⟨hmem, hzero⟩ := OrderedTree.locate_mem hk
    exact .inl ⟨k, toList_shape t ▸ hmem, key_eq_of_cmp hcmp hzero, hsearch⟩
  · refine .inr ⟨fun y hy heq => ?_, _, hsearch⟩
    obtain ⟨front, back, hsplit, -, -, hgraded⟩ := OrderedTree.attach_split x hnone
    rw [toList_shape] at hsplit hgraded
    obtain ⟨hfront, hback⟩ := hgraded (hs.graded hcmp x)
    have hzero := cmp_eq_zero hcmp heq
    rw [hsplit, List.mem_append] at hy
    rcases hy with hy | hy
    · exact absurd (hfront y hy) (by omega)
    · exact absurd (hback y hy) (by omega)

/-- From an empty tree on, in memory with anything in it: each history of additions, removals
and replacements leaves the sorted set of its nodes. The tree is balanced, so rounds for
twice the logarithm of the number of operations are enough for it, and for each search; the
loops over the tree see its nodes in order, and other nodes are as they were. -/
theorem history_sorted (key : P → K) (cmp : P → P → Int) (hcmp : Compares key cmp) (m : Memory P)
    (hroot : m.root = none) (ops : List (Op P)) (hlegal : Legal key ops []) (rounds : Nat)
    (hrounds : 2 * Nat.log 2 (ops.length + 1) < rounds) :
    ∃ m' t, Runs.run (step cmp rounds) m ops = some m' ∧ m'.Stores t ∧
      t.toList = ops.foldl (Op.onList key) [] ∧ Sorted key t.toList ∧
      t.height ≤ 2 * Nat.log 2 (t.toList.length + 1) ∧
      m'.rbForEach (t.toList.length + 1) = some t.toList ∧
      m'.rbForEachPrev (t.toList.length + 1) = some t.toList.reverse ∧
      (∀ x, (∃ y ∈ t.toList, key y = key x ∧
          m'.search (cmp x) rounds none m'.root = some (.taken y)) ∨
        (∀ y ∈ t.toList, key y ≠ key x) ∧
          ∃ link, m'.search (cmp x) rounds none m'.root = some (.free link)) ∧
      ∀ q, (∀ op ∈ ops, q ∉ op.nodes) → m'.node q = m.node q := by
  have hempty : m.Stores .leaf := ⟨⟨trivial, hroot, .nil, fun _ _ _ => rfl⟩, rfl, 0, .leaf⟩
  obtain ⟨m', t, hrun, hm', hlist, hs, hlength, hframe⟩ :=
    run_stores hcmp hempty .nil hlegal (by simpa [toList] using hrounds)
  have hlog : 2 * Nat.log 2 (t.toList.length + 1) < rounds :=
    lt_of_le_of_lt (Nat.mul_le_mul_left 2 (Nat.log_mono_right (by simpa [toList] using hlength)))
      hrounds
  obtain ⟨hforward, hbackward, -⟩ := rbForEach_visits hm' (Nat.lt_succ_self _)
  exact ⟨m', t, hrun, hm', hlist, hs, hm'.2.height_le, hforward, hbackward,
    search_sorted hcmp hm' hs hlog, fun q hq => hframe q (notMem_leaf q) hq⟩

/-- Nothing is linked. -/
def noNodes : Memory Nat := ⟨fun _ => ⟨none, .red, none, none⟩, none⟩

def tens (n : Nat) : Nat := n / 10

/-- 21 is refused and has the place of 20 later. -/
def tensOps : List (Op Nat) :=
  [.insert 20, .insert 10, .insert 30, .insert 21, .replace 20 21, .erase 10]

def cmpTens (x y : Nat) : Int := tens x - tens y

theorem history_tens : ∃ m t, Runs.run (step cmpTens 6) noNodes tensOps = some m ∧ m.Stores t ∧
    t.toList = [21, 30] ∧ m.rbForEach 3 = some [21, 30] := by
  have hcmp : Compares tens cmpTens := fun x y => by
    unfold cmpTens
    omega
  have hlist : tensOps.foldl (Op.onList tens) [] = [21, 30] := by decide
  obtain ⟨m, t, hrun, hm, ht, -, -, hall, -⟩ :=
    history_sorted tens cmpTens hcmp noNodes rfl tensOps (by decide) 6 (by decide)
  rw [hlist] at ht
  rw [ht] at hall
  exact ⟨m, t, hrun, hm, ht, hall⟩

end GracefulMusic.Rbtree
