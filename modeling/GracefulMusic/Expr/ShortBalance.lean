import GracefulMusic.Expr.ShortBuffer
import GracefulMusic.Expr.Expansion

/-! What the expansion of the short form writes, against what it reads.

`weight` is what the states on the stack may still write, and the digits in `num` count
too. A character raises output and weight by seven at most, and only at the very start is
the balance short of one byte: for the empty input, and while it is `~A`. -/
namespace GracefulMusic.Expr

def weight : List ExpandState → Nat → Nat
  | [], _ => 0
  | .skipSpace :: rest, n => weight rest n
  | .top :: _, _ => 1
  | .expectKey :: rest, n => 6 + weight rest n
  | .expectOp :: rest, n => 1 + weight rest n
  | .expectInt :: rest, n => weight rest n
  | .inInt :: rest, n => 1 + weight rest n
  | .memInt :: rest, n => 5 + weight rest n
  | .in2ndInt :: rest, n => (if n = 0 then 10 else 15 + n) + weight rest n
  | .expectStr :: rest, n => 2 + weight rest n
  | .inQuoteStr :: rest, n => weight rest n
  | .inStr :: rest, n => 2 + weight rest n

/-- The bytes written and those that may follow. -/
def cost (stack : List ExpandState) (x : Scratch) : Nat :=
  x.out.length + weight stack x.num.length + x.num.length

/-- After `i` characters. -/
structure Balanced (debt i : Nat) (stack : List ExpandState) (x : Scratch) : Prop where
  shape : stack ∈ stackShapes
  cost : cost stack x ≤ 7 * i + debt
  num : x.num.length ≤ i
  key : x.key.length ≤ 11

/-- A character from a stack that occurs leads to another one, and costs seven. -/
theorem feed_cost {stack stack' : List ExpandState} {x x' : Scratch} {c : UInt8}
    (hstack : stack ∈ stackShapes) (hkey : x.key.length ≤ 11)
    (hfeed : feed stack x c = .ok (stack', x')) :
    stack' ∈ stackShapes ∧ cost stack' x' ≤ cost stack x + 7 ∧
      x'.num.length ≤ x.num.length + 1 ∧ x'.key.length ≤ 11 := by
  induction stack generalizing x with
  | nil => simp [stackShapes] at hstack
  | cons state rest ih =>
    have hpass : ∀ x₁ : Scratch, feed rest x₁ c = .ok (stack', x') → rest ∈ stackShapes →
        x₁.key = x.key → x₁.num.length ≤ x.num.length → cost rest x₁ ≤ cost (state :: rest) x →
        stack' ∈ stackShapes ∧ cost stack' x' ≤ cost (state :: rest) x + 7 ∧
          x'.num.length ≤ x.num.length + 1 ∧ x'.key.length ≤ 11 := by
      intro x₁ hf hrest hkey₁ hnum₁ hcost
      obtain ⟨hshape, hcost', hnum, hkey'⟩ := ih hrest (hkey₁ ▸ hkey) hf
      exact ⟨hshape, by omega, by omega, hkey'⟩
    have hdone : ∀ (stack₁ : List ExpandState) (x₁ : Scratch),
        (.ok (stack₁, x₁) : Except Text _) = .ok (stack', x') → stack₁ ∈ stackShapes →
        cost stack₁ x₁ ≤ cost (state :: rest) x + 7 → x₁.num.length ≤ x.num.length + 1 →
        x₁.key.length ≤ 11 → stack' ∈ stackShapes ∧
          cost stack' x' ≤ cost (state :: rest) x + 7 ∧
          x'.num.length ≤ x.num.length + 1 ∧ x'.key.length ≤ 11 := by
      intro stack₁ x₁ heq hshape hcost hnum hkey'
      obtain ⟨rfl, rfl⟩ := Prod.mk.inj (Except.ok.inj heq)
      exact ⟨hshape, hcost, hnum, hkey'⟩
    cases state with
    | skipSpace =>
      rw [feed_skipSpace] at hfeed
      split at hfeed
      · exact hdone _ _ hfeed hstack (Nat.le_add_right _ _) (Nat.le_succ _) hkey
      · exact hpass x hfeed (stackShapes_below hstack (fun h => by cases h)) rfl (Nat.le_refl _)
          (Nat.le_refl _)
    | top =>
      obtain rfl : rest = [] := by simpa [stackShapes] using hstack
      simp only [feed] at hfeed
      split at hfeed
      · exact hdone _ _ hfeed (by decide) (by simp [cost, weight]; omega) (Nat.le_succ _) hkey
      split at hfeed
      · exact hdone _ _ hfeed (by decide) (by simp [cost, weight, Scratch.write]; omega)
          (Nat.le_succ _) hkey
      split at hfeed
      · exact hdone _ _ hfeed (by decide) (by simp [cost, weight, Scratch.write]; omega)
          (Nat.le_succ _) hkey
      split at hfeed
      · exact hdone _ _ hfeed (by decide) (by simp [cost, weight, Scratch.write]; omega)
          (Nat.le_succ _) hkey
      split at hfeed
      · split at hfeed
        · cases hfeed
        · exact hdone _ _ hfeed (by decide) (by simp [cost, weight, Scratch.write]; omega)
            (Nat.le_succ _) hkey
      · cases hfeed
    | expectKey =>
      obtain rfl : rest = [.skipSpace, .expectOp, .top] := by simpa [stackShapes] using hstack
      simp only [feed] at hfeed
      split at hfeed
      · cases hfeed
      · obtain ⟨-, hlen⟩ := lookupLongKey_length ‹_›
        split at hfeed
        · exact hdone _ _ hfeed (by decide) (by simp [cost, weight, Scratch.write]; omega)
            (Nat.le_succ _) hlen
        · exact hdone _ _ hfeed (by decide) (by simp [cost, weight, Scratch.write]; omega)
            (Nat.le_succ _) hlen
        · exact hdone _ _ hfeed (by decide) (by simp [cost, weight, Scratch.write]; omega)
            (Nat.le_succ _) hlen
    | expectOp =>
      rw [feed] at hfeed
      obtain rfl : rest = [.top] := by simpa [stackShapes] using hstack
      generalize hx₁ : (if c = ch '~' ∨ c = ch '(' ∨ c = ch '!' then x.write [ch '&'] else x) = x₁
        at hfeed
      have hx : x₁.out.length ≤ x.out.length + 1 ∧ x₁.num = x.num ∧ x₁.key = x.key := by
        rw [← hx₁]
        split
        · exact ⟨by simp [Scratch.write], rfl, rfl⟩
        · exact ⟨Nat.le_succ _, rfl, rfl⟩
      obtain ⟨hout, hnum, hkey₁⟩ := hx
      split at hfeed
      · exact hdone _ _ hfeed (by decide) (by simp only [cost, weight, hnum]; omega)
          (by rw [hnum]; exact Nat.le_succ _) (hkey₁ ▸ hkey)
      · exact hpass x₁ hfeed (by decide) hkey₁ (by rw [hnum])
          (by simp only [cost, weight, hnum]; omega)
    | expectInt =>
      obtain rfl : rest = [.skipSpace, .expectOp, .top] := by simpa [stackShapes] using hstack
      simp only [feed] at hfeed
      split at hfeed
      · exact hdone _ _ hfeed (by decide) (by simp [cost, weight, Scratch.write]; omega)
          (Nat.le_succ _) hkey
      split at hfeed
      · exact hdone _ _ hfeed (by decide) (by simp [cost, weight, Scratch.write, ascii]; omega)
          (Nat.le_succ _) hkey
      split at hfeed
      · exact hdone _ _ hfeed (by decide) (by simp [cost, weight]; omega) (by simp) hkey
      · cases hfeed
    | inInt =>
      rw [feed] at hfeed
      obtain rfl : rest = [.skipSpace, .expectOp, .top] := by simpa [stackShapes] using hstack
      split at hfeed
      · exact hdone _ _ hfeed (by decide) (by simp [cost, weight, Scratch.write]; omega)
          (Nat.le_succ _) hkey
      · exact hpass _ hfeed (by decide) rfl (Nat.le_refl _)
          (by simp [cost, weight, Scratch.write, ascii])
    | memInt =>
      rw [feed] at hfeed
      obtain rfl : rest = [.skipSpace, .expectOp, .top] := by simpa [stackShapes] using hstack
      split at hfeed
      · exact hdone _ _ hfeed (by decide) (by simp [cost, weight]; omega) (by simp) hkey
      split at hfeed
      · exact hdone _ _ hfeed (by decide) (by simp [cost, weight, Scratch.write, ascii]; omega)
          (by simp) hkey
      · exact hpass _ hfeed (by decide) rfl (by simp)
          (by simp [cost, weight, Scratch.write, ascii]; omega)
    | in2ndInt =>
      rw [feed] at hfeed
      obtain rfl : rest = [.skipSpace, .expectOp, .top] := by simpa [stackShapes] using hstack
      split at hfeed
      · refine hdone _ _ hfeed (by decide) ?_ (by simp) hkey
        simp only [cost, weight, List.length_append, List.length_singleton]
        grind
      · dsimp only at hfeed
        refine hpass _ hfeed (by decide) rfl (Nat.le_refl _) ?_
        by_cases hnone : x.num = []
        · simp [cost, weight, Scratch.write, ascii, hnone]
        · have hne : x.num.length ≠ 0 := fun h => hnone (List.length_eq_zero_iff.mp h)
          simp [cost, weight, Scratch.write, ascii, hnone]
          omega
    | expectStr =>
      obtain rfl : rest = [.skipSpace, .expectOp, .top] := by simpa [stackShapes] using hstack
      simp only [feed] at hfeed
      split at hfeed
      · exact hdone _ _ hfeed (by decide) (by simp [cost, weight, Scratch.write, ascii])
          (Nat.le_succ _) hkey
      · exact hdone _ _ hfeed (by decide) (by simp [cost, weight, Scratch.write, ascii]; omega)
          (Nat.le_succ _) hkey
    | inQuoteStr =>
      obtain rfl : rest = [.skipSpace, .expectOp, .top] := by simpa [stackShapes] using hstack
      simp only [feed] at hfeed
      split at hfeed
      · exact hdone _ _ hfeed (by decide) (by simp [cost, weight, Scratch.write]; omega)
          (Nat.le_succ _) hkey
      · exact hdone _ _ hfeed (by decide) (by simp [cost, weight, Scratch.write]; omega)
          (Nat.le_succ _) hkey
    | inStr =>
      rw [feed] at hfeed
      obtain rfl : rest = [.skipSpace, .expectOp, .top] := by simpa [stackShapes] using hstack
      have hle : (x.out.rdropWhile (· = ch ' ')).length ≤ x.out.length :=
        (List.rdropWhile_prefix _ _).length_le
      split at hfeed
      · exact hdone _ _ hfeed (by decide) (by simp [cost, weight, Scratch.write]; omega)
          (Nat.le_succ _) hkey
      · exact hpass _ hfeed (by decide) rfl (Nat.le_refl _)
          (by simp [cost, weight, ascii]; omega)

theorem Balanced.feed {debt i : Nat} {stack stack' : List ExpandState} {x x' : Scratch} {c : UInt8}
    (h : Balanced debt i stack x) (hfeed : Expr.feed stack x c = .ok (stack', x')) :
    Balanced debt (i + 1) stack' {x' with prev := c} := by
  obtain ⟨hshape, hcost, hnum, hkey⟩ := feed_cost h.shape h.key hfeed
  have hbound := h.cost
  refine ⟨hshape, ?_, Nat.le_trans hnum (Nat.succ_le_succ h.num), hkey⟩
  show Expr.cost stack' x' ≤ _
  omega

/-! ### Room -/

/-- A character that is there pays for what is written for it. -/
theorem spend_le {stack : List ExpandState} (hstack : stack ∈ stackShapes) (c : UInt8) {k : Nat}
    (hk : k ≤ 11) (n : Nat) : spend c k stack n ≤ weight stack n + n + 6 := by
  have hone : (if c = 0 then 0 else 1) ≤ 1 := by
    split
    · exact Nat.zero_le 1
    · exact Nat.le_refl 1
  have hkey : (if c = 0 then 0 else 13) ≤ 13 := by
    split
    · exact Nat.zero_le 13
    · exact Nat.le_refl 13
  have hint : (if c = 0 then 0 else 2) ≤ 2 := by
    split
    · exact Nat.zero_le 2
    · exact Nat.le_refl 2
  simp only [stackShapes, List.mem_cons, List.not_mem_nil, or_false] at hstack
  rcases hstack with rfl | rfl | rfl | rfl | rfl | rfl | rfl | rfl | rfl | rfl | rfl | rfl | rfl |
    rfl | rfl
  all_goals
    simp only [spend, weight]
    grind

/-- The terminator pays nothing. -/
theorem spend_zero_le {stack : List ExpandState} (hstack : stack ∈ stackShapes) {k : Nat}
    (hk : k ≤ 11) (n : Nat) : spend 0 k stack n ≤ weight stack n + n := by
  simp only [stackShapes, List.mem_cons, List.not_mem_nil, or_false] at hstack
  rcases hstack with rfl | rfl | rfl | rfl | rfl | rfl | rfl | rfl | rfl | rfl | rfl | rfl | rfl |
    rfl | rfl
  all_goals
    simp only [spend, weight, if_true]
    grind

theorem Leads.trans {exprShort : Text} {e : Expander} {r r' : Except Text Expander}
    (h : Leads exprShort e r) (hok : ∀ e', r = .ok e' → Leads exprShort e' r')
    (herror : ∀ message, r = .error message → r' = .error message) : Leads exprShort e r' := by
  obtain ⟨n, hn⟩ := h
  cases r with
  | error message =>
    rw [herror message rfl]
    exact ⟨n, hn⟩
  | ok e' =>
    obtain ⟨m, hm⟩ := hok e' rfl
    refine ⟨n + m, fun fuel => ?_⟩
    rw [Nat.add_assoc, hn]
    exact hm fuel

theorem Balanced.feedAll {debt i : Nat} {stack stack' : List ExpandState} {x x' : Scratch}
    (input : Text) (h : Balanced debt i stack x)
    (hfeed : Expr.feedAll (stack, x) input = .ok (stack', x')) :
    Balanced debt (i + input.length) stack' x' := by
  induction input generalizing i stack x with
  | nil =>
    obtain ⟨rfl, rfl⟩ := Prod.mk.inj (Except.ok.inj hfeed)
    exact h
  | cons c input ih =>
    rw [feedAll_cons] at hfeed
    cases hone : Expr.feed stack x c with
    | error message =>
      rw [hone] at hfeed
      cases hfeed
    | ok r =>
      rw [hone] at hfeed
      have hrest := ih (h.feed (show Expr.feed stack x c = Except.ok (r.1, r.2) from hone)) hfeed
      rwa [List.length_cons, Nat.add_comm input.length, ← Nat.add_assoc]

/-- The whole input read by the machine, if there is room for the terminator. -/
theorem feedAll_leads {exprShort : Text} (rest : Text) {w : Text} (hw : exprShort = w ++ rest)
    {stack : List ExpandState} {x : Scratch} (h : Balanced 1 w.length stack x)
    (hprev : .inQuoteStr ∈ stack → x.prev = exprShort[w.length - 1]?.getD 0)
    (hend : ∀ stack' x', feedAll (stack, x) rest = .ok (stack', x') →
      x'.out.length + spend 0 x'.key.length stack' x'.num.length ≤ 7 * exprShort.length) :
    Leads exprShort (load w.length stack x)
      ((feedAll (stack, x) (rest ++ [0])).map fun r => load (exprShort.length + 1) r.1 r.2) := by
  induction rest generalizing w stack x with
  | nil =>
    rw [List.append_nil] at hw
    have hone := feed_leads (i := w.length) (c := 0) (show w.length ≤ exprShort.length by rw [hw])
      (by rw [hw]; simp) stack x h.shape hprev (hend stack x rfl)
      (fun hdigit => absurd hdigit (by decide))
    rw [List.nil_append, feedAll_cons]
    rw [hw] at hone ⊢
    cases hfeed : feed stack x 0 with
    | error message =>
      rw [hfeed] at hone
      exact hone
    | ok r =>
      rw [hfeed] at hone
      exact hone
  | cons c rest ih =>
    have hlen : exprShort.length = w.length + rest.length + 1 := by
      rw [hw, List.length_append, List.length_cons, Nat.add_assoc]
    have hc : exprShort[w.length]?.getD 0 = c := by
      rw [hw]
      simp
    have hroom : x.out.length + spend c x.key.length stack x.num.length ≤ 7 * exprShort.length := by
      have hspend := spend_le h.shape c h.key x.num.length
      have hcost := h.cost
      unfold cost at hcost
      omega
    have hone := feed_leads (by omega) hc stack x h.shape hprev hroom
      (fun _ => by have := h.num; omega)
    rw [List.cons_append, feedAll_cons]
    cases hfeed : feed stack x c with
    | error message =>
      rw [hfeed] at hone
      exact hone
    | ok r =>
      rw [hfeed] at hone
      have hbalanced : Balanced 1 (w ++ [c]).length r.1 {r.2 with prev := c} := by
        rw [List.length_append]
        exact h.feed hfeed
      have hnext := ih (w := w ++ [c]) (by rw [hw, List.append_cons]) hbalanced
        (fun _ => by
          rw [List.length_append, List.length_singleton, Nat.add_sub_cancel, hc])
        (fun stack' x' hrest => hend stack' x' (by rw [feedAll_cons, hfeed]; exact hrest))
      rw [List.length_append, List.length_singleton] at hnext
      refine hone.trans (fun e' he => ?_) (fun _ hfail => by cases hfail)
      rw [← Except.ok.inj he]
      exact hnext

/-! ### The start -/

def start : List ExpandState × Scratch := ([.skipSpace, .top], ⟨[], [], [], 0, 0⟩)

/-- The machine does what the automaton does, where there is room for the terminator. -/
theorem expandShort_of_room {exprShort : Text}
    (hend : ∀ stack' x', feedAll start exprShort = .ok (stack', x') →
      x'.out.length + spend 0 x'.key.length stack' x'.num.length ≤ 7 * exprShort.length) :
    ∃ fuel, expandShort exprShort fuel = some (expandShortExpr exprShort) := by
  have hstart : Balanced 1 ([] : Text).length start.1 start.2 :=
    ⟨by decide, by decide, by decide, by decide⟩
  have hleads : Leads exprShort (load 0 start.1 start.2)
      ((feedAll start (exprShort ++ [0])).map fun r => load (exprShort.length + 1) r.1 r.2) :=
    feedAll_leads exprShort (w := []) rfl hstart (fun h => absurd h (by decide)) hend
  obtain ⟨n, hn⟩ := hleads
  refine ⟨n + 1, ?_⟩
  have hinit : ((stack4Push 0 .top).bind fun s => stack4Push s .skipSpace) =
      some (pack start.1) := by decide
  rw [expandShort, hinit, Option.bind_some]
  show (expandLoop exprShort (n + 1) (load 0 start.1 start.2)).map _ = _
  rw [hn 1, expandShortExpr]
  show _ = some ((feedAll start (exprShort ++ [0])).bind fun r =>
    .ok (r.2.out.takeWhile (· ≠ 0)))
  cases feedAll start (exprShort ++ [0]) with
  | error message => rfl
  | ok r =>
    show (if exprShort.length < exprShort.length + 1 then _ else _ : Option _).map _ = _
    rw [if_pos (Nat.lt_succ_self _)]
    rfl

theorem feedAll_append (a b : Text) (s : List ExpandState × Scratch) :
    feedAll s (a ++ b) = (feedAll s a).bind fun r => feedAll r b := by
  induction a generalizing s with
  | nil => rfl
  | cons c a ih =>
    rw [List.cons_append, feedAll_cons, feedAll_cons]
    cases feed s.1 s.2 c with
    | error message => rfl
    | ok r => exact ih _

/-- Once the balance is even, it stays so. -/
theorem room_of_balanced {w : Text} (rest : Text)
    (h : ∀ s, feedAll start w = .ok s → Balanced 0 w.length s.1 s.2)
    (stack' : List ExpandState) (x' : Scratch)
    (hfeed : feedAll start (w ++ rest) = .ok (stack', x')) :
    x'.out.length + spend 0 x'.key.length stack' x'.num.length ≤ 7 * (w ++ rest).length := by
  rw [feedAll_append] at hfeed
  cases hw : feedAll start w with
  | error message =>
    rw [hw] at hfeed
    cases hfeed
  | ok s =>
    rw [hw] at hfeed
    have hbalanced := (h s hw).feedAll rest hfeed
    have hspend := spend_zero_le hbalanced.shape hbalanced.key x'.num.length
    have hcost := hbalanced.cost
    unfold cost at hcost
    rw [List.length_append]
    omega

/-- The last of some first characters. -/
theorem balanced_last {i : Nat} (stack : List ExpandState) (x : Scratch) {c : UInt8}
    (h : Balanced 1 i stack x)
    (hcost : ∀ r, feed stack x c = .ok r → cost r.1 r.2 ≤ 7 * (i + 1))
    (s : List ExpandState × Scratch) (hs : feedAll (stack, x) [c] = .ok s) :
    Balanced 0 (i + 1) s.1 s.2 := by
  rw [feedAll_cons] at hs
  cases hfeed : feed stack x c with
  | error message =>
    rw [hfeed] at hs
    cases hs
  | ok r =>
    rw [hfeed] at hs
    cases hs
    have hnext := h.feed (show feed stack x c = .ok (r.1, r.2) from hfeed)
    exact ⟨hnext.shape, hcost r hfeed, hnext.num, hnext.key⟩

theorem balanced_plain {c : UInt8} (hc : c ≠ ch '~') (s : List ExpandState × Scratch)
    (hs : feedAll start [c] = .ok s) : Balanced 0 1 s.1 s.2 := by
  refine balanced_last _ _ ⟨by decide, by decide, by decide, by decide⟩ (fun r hr => ?_) s hs
  simp only [feed, if_neg hc] at hr
  split at hr
  · cases hr
    decide
  split at hr
  · cases hr
    simp [cost, weight, Scratch.write]
  split at hr
  · cases hr
    simp [cost, weight, Scratch.write]
  split at hr
  · cases hr
    simp [cost, weight, Scratch.write]
  split at hr
  · split at hr
    · cases hr
    · cases hr
      simp [cost, weight, Scratch.write]
  · cases hr

theorem balanced_key {c : UInt8} (hc : c ≠ ch 'A') (s : List ExpandState × Scratch)
    (hs : feedAll start [ch '~', c] = .ok s) : Balanced 0 2 s.1 s.2 := by
  have hkeys : ∀ entry ∈ shortKeys, entry.1 ≠ ch 'A' → entry.2.length ≤ 11 ∧
      (lookupKeyType entry.2 = some .int ∨ entry.2.length ≤ 8) := by decide
  refine balanced_last [.expectKey, .skipSpace, .expectOp, .top] {start.2 with prev := ch '~'}
    ⟨by decide, by decide, by decide, by decide⟩ (fun r hr => ?_) s hs
  rw [feed] at hr
  cases hkey : lookupLongKey c with
  | none =>
    rw [hkey] at hr
    cases hr
  | some key =>
    obtain ⟨entry, hentry, rfl⟩ := Option.map_eq_some_iff.mp hkey
    have hc' : entry.1 = c := by simpa using List.find?_some hentry
    obtain ⟨hlen, hint⟩ := hkeys entry (List.mem_of_find?_eq_some hentry) (by rwa [hc'])
    rw [hkey] at hr
    dsimp only at hr
    split at hr
    · cases hr
      simp [cost, weight, Scratch.write, start]
      omega
    · have hshort := hint.resolve_left (by simp [*])
      cases hr
      simp [cost, weight, Scratch.write, start]
      omega
    · have hshort := hint.resolve_left (by assumption)
      cases hr
      simp [cost, weight, Scratch.write, start]
      omega

theorem balanced_albumartist (c : UInt8) (s : List ExpandState × Scratch)
    (hs : feedAll start [ch '~', ch 'A', c] = .ok s) : Balanced 0 3 s.1 s.2 := by
  refine balanced_last (i := 2) [.skipSpace, .expectStr, .skipSpace, .expectOp, .top]
    ⟨ascii "albumartist", [], ascii "albumartist", 0, ch 'A'⟩
    ⟨by decide, by decide, by decide, by decide⟩ (fun r hr => ?_) s hs
  rw [feed_skipSpace, feed] at hr
  split at hr
  · cases hr
    decide
  split at hr
  · cases hr
    simp [cost, weight, Scratch.write, ascii]
  · cases hr
    simp [cost, weight, Scratch.write, ascii]

/-- Every input but two is expanded inside of the buffers. -/
theorem expand_short_memory (exprShort : Text) :
    (∃ fuel, expandShort exprShort fuel = some (expandShortExpr exprShort)) ↔
      exprShort ≠ [] ∧ exprShort ≠ ascii "~A" := by
  constructor
  · intro h
    obtain ⟨fuel, hfuel⟩ := h
    refine ⟨?_, ?_⟩
    · intro heq
      subst heq
      rcases fuel with _ | _ | _ | fuel <;> cases hfuel
    · intro heq
      subst heq
      rcases fuel with _ | _ | _ | _ | _ | _ | _ | fuel <;> cases hfuel
  · intro h
    obtain ⟨hne, hA⟩ := h
    apply expandShort_of_room
    rcases exprShort with _ | ⟨c, rest⟩
    · exact absurd rfl hne
    by_cases hc : c = ch '~'
    · subst hc
      rcases rest with _ | ⟨d, rest⟩
      · intro stack' x' hfeed
        cases hfeed
        decide
      by_cases hd : d = ch 'A'
      · subst hd
        rcases rest with _ | ⟨e, rest⟩
        · exact absurd rfl hA
        · exact room_of_balanced (w := [ch '~', ch 'A', e]) rest (balanced_albumartist e)
      · exact room_of_balanced (w := [ch '~', d]) rest (balanced_key hd)
    · exact room_of_balanced (w := [c]) rest (balanced_plain hc)

/-- The longest key, its operand missing: fifteen bytes for two characters. -/
theorem expand_short_overflow :
    ¬∃ fuel, expandShort (ascii "~A") fuel = some (expandShortExpr (ascii "~A")) := by
  intro h
  obtain ⟨fuel, hfuel⟩ := h
  rcases fuel with _ | _ | _ | _ | _ | _ | _ | fuel <;> cases hfuel

end GracefulMusic.Expr
