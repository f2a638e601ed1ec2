import GracefulMusic.Foundation.Loops
import GracefulMusic.Foundation.Successor

/-! Seeking along a list, round its end.

A seeker looks at a state and goes on to the next one until it has found what it looks for, can
go no further, or comes to a place where it stops. What it comes by is a trail. On a course it
goes from each place of a list to the next one behind it that is allowed and, where the list
ends, may begin again at the first one. It stops where it came from, if it comes there. -/
namespace Seeking
open Loops Sequence

variable {σ : Type*}

/-- One look: what is found, or where to look next. -/
def seek (found stop : σ → Bool) (advance : σ → Option σ) (s : σ) : Option (σ ⊕ Option σ) :=
  if found s then some (.inr (some s))
  else
    match advance s with
    | none => some (.inr none)
    | some t => if stop t then some (.inr none) else some (.inl t)

/-- From one state through the states of a list, the last of which is the other one. -/
def Trail (advance : σ → Option σ) : σ → List σ → σ → Prop
  | s, [], t => s = t
  | s, u :: l, t => advance s = some u ∧ Trail advance u l t

variable {found stop : σ → Bool} {advance : σ → Option σ} {s t u : σ} {l l' : List σ}

theorem Trail.append (h : Trail advance s l t) (h' : Trail advance t l' u) :
    Trail advance s (l ++ l') u := by
  induction l generalizing s with
  | nil => exact h ▸ h'
  | cons v l ih => exact ⟨h.1, ih h.2⟩

/-- Along a trail on which nothing stops, and that has what is sought or ends. -/
theorem seek_eq (htrail : Trail advance s l t) (hstop : ∀ u ∈ l, stop u = false)
    (hend : (∃ u ∈ s :: l, found u = true) ∨ ∀ u, advance t = some u → stop u = true) {fuel : Nat}
    (hfuel : l.length < fuel) :
    loop (seek found stop advance) fuel s = some ((s :: l).find? found) := by
  induction l generalizing s fuel with
  | nil =>
    obtain ⟨fuel, rfl⟩ : ∃ n, fuel = n + 1 := ⟨fuel - 1, by simp at hfuel; omega⟩
    obtain rfl : s = t := htrail
    cases hs : found s with
    | true => rw [loop_exit (a := some s) (by simp [seek, hs]), List.find?_cons_of_pos hs]
    | false =>
      have hnone : seek found stop advance s = some (.inr none) := by
        have hend' := hend.resolve_left (by simp [hs])
        cases hadvance : advance s with
        | none => simp [seek, hs, hadvance]
        | some u => simp [seek, hs, hadvance, hend' u hadvance]
      rw [loop_exit hnone]
      simp [hs]
  | cons v l ih =>
    obtain ⟨fuel, rfl⟩ : ∃ n, fuel = n + 1 := ⟨fuel - 1, by omega⟩
    cases hs : found s with
    | true => rw [loop_exit (a := some s) (by simp [seek, hs]), List.find?_cons_of_pos hs]
    | false =>
      obtain ⟨hv, hl⟩ := List.forall_mem_cons.mp hstop
      have hnext : seek found stop advance s = some (.inl v) := by
        simp [seek, hs, htrail.1, hv]
      have hskip : (s :: v :: l).find? found = (v :: l).find? found :=
        List.find?_cons_of_neg (by simp [hs])
      rw [loop_next hnext, ih htrail.2 hl (by simpa [hs] using hend) (by simpa using hfuel), hskip]

/-- Nothing is found, and there is always a way on. -/
theorem seek_diverges {I : σ → Prop} (hfound : ∀ s, I s → found s = false)
    (hstep : ∀ s, I s → ∃ t, advance s = some t ∧ stop t = false ∧ I t) (hs : I s) (fuel : Nat) :
    loop (seek found stop advance) fuel s = none := by
  induction fuel generalizing s with
  | zero => rfl
  | succ fuel ih =>
    obtain ⟨t, hadvance, hstop, ht⟩ := hstep s hs
    have hnext : seek found stop advance s = some (.inl t) := by
      simp [seek, hfound s hs, hadvance, hstop]
    rw [loop_next hnext, ih ht]

/-! ### Courses -/

variable {ι : Type*} [DecidableEq ι]

/-- The next place when these are ahead, with whether the list has ended before. -/
def onward (all : List ι) (allowed : ι → Bool) (wrap ended : Bool) (ahead : List ι) :
    Option (ι × Bool) :=
  match ahead.find? allowed with
  | some a => some (a, ended)
  | none => if wrap then (all.find? allowed).map (·, true) else none

/-- The way from each place of a list leads on behind it. -/
structure Course (all : List ι) (allowed : ι → Bool) (wrap : Bool)
    (advance : ι × Bool → Option (ι × Bool)) : Prop where
  nodup : all.Nodup
  advance : ∀ a ∈ all, ∀ ended, advance (a, ended) = onward all allowed wrap ended (behind all a)

/-- The places that one comes by from a place on. -/
def visited (all : List ι) (allowed : ι → Bool) (wrap : Bool) (a : ι) (ended : Bool) :
    List (ι × Bool) :=
  (a, ended) :: ((behind all a).filter allowed).map (·, ended) ++
    if wrap then ((before all a).filter allowed).map (·, true) else []

namespace Course
variable {all : List ι} {allowed found : ι → Bool} {wrap ended : Bool}
  {advance : ι × Bool → Option (ι × Bool)} {a b : ι} {s : ι × Bool} {pre mid rest : List ι}

omit [DecidableEq ι] in
theorem onward_ended : onward all allowed true true all = (all.find? allowed).map (·, true) := by
  cases h : all.find? allowed <;> simp [onward, h]

theorem split (h : Course all allowed wrap advance) (ha : a ∈ all) :
    all = before all a ++ a :: behind all a ∧ a ∉ before all a ∧ a ∉ behind all a := by
  obtain ⟨front, back, rfl⟩ := List.append_of_mem ha
  have hnot := (List.nodup_middle.mp h.nodup).notMem
  have hfront : a ∉ front := fun hmem => hnot (List.mem_append_left _ hmem)
  rw [before_split rfl hfront, behind_split rfl hfront]
  exact ⟨rfl, hfront, fun hmem => hnot (List.mem_append_right _ hmem)⟩

/-- By the allowed ones of a stretch of the list. -/
theorem trail (h : Course all allowed wrap advance) (hall : all = pre ++ (mid ++ rest))
    (hs : advance s = onward all allowed wrap ended (mid ++ rest)) :
    ∃ t, Trail advance s ((mid.filter allowed).map (·, ended)) t ∧
      advance t = onward all allowed wrap ended rest := by
  induction mid generalizing s pre with
  | nil => exact ⟨s, rfl, hs⟩
  | cons b mid ih =>
    have hall' : all = (pre ++ [b]) ++ (mid ++ rest) := by simp [hall]
    cases hb : allowed b with
    | true =>
      have hnot : b ∉ pre := fun hmem =>
        (List.nodup_middle.mp (hall ▸ h.nodup)).notMem (List.mem_append_left _ hmem)
      have hnext : advance (b, ended) = onward all allowed wrap ended (mid ++ rest) := by
        have hsplit : all = pre ++ b :: (mid ++ rest) := by simp [hall]
        rw [h.advance b (by simp [hall]), behind_split hsplit hnot]
      obtain ⟨t, htrail, ht⟩ := ih hall' hnext
      refine ⟨t, ?_, ht⟩
      rw [List.filter_cons_of_pos hb, List.map_cons]
      exact ⟨by simp [hs, onward, hb], htrail⟩
    | false =>
      rw [List.filter_cons_of_neg (by simp [hb])]
      refine ih hall' ?_
      simpa [onward, hb] using hs

variable (ended) in
/-- From a place to the end of the list, and through it again up to where one came from. -/
theorem visited_trail (h : Course all allowed wrap advance) (ha : a ∈ all) :
    ∃ t, Trail advance (a, ended) (visited all allowed wrap a ended).tail t ∧
      advance t = if wrap then onward all allowed wrap true (a :: behind all a) else none := by
  obtain ⟨hall, -, -⟩ := h.split ha
  have hsplit : all = (before all a ++ [a]) ++ (behind all a ++ []) := by simp [← hall]
  have hnext : advance (a, ended) = onward all allowed wrap ended (behind all a ++ []) := by
    simp [h.advance a ha]
  obtain ⟨t, htrail, ht⟩ := h.trail hsplit hnext
  cases wrap with
  | false => exact ⟨t, by simpa [visited] using htrail, by simpa [onward] using ht⟩
  | true =>
    have hfirst : advance t = onward all allowed true true (before all a ++ a :: behind all a) := by
      rw [ht, ← hall, onward_ended]
      simp [onward]
    obtain ⟨t', htrail', ht'⟩ := h.trail (hall.trans (List.nil_append _).symm) hfirst
    exact ⟨t', by simpa [visited] using htrail.append htrail', by simpa using ht'⟩

variable (found) in
/-- The search ends where nothing is behind the end of the list, where it may stop at its
start, and where it finds something. -/
theorem seek_visited (h : Course all allowed wrap advance) (ha : a ∈ all)
    (hend : wrap = false ∨ allowed a = true ∨ ∃ b ∈ visited all allowed wrap a ended, found b.1 = true)
    {fuel : Nat} (hfuel : (visited all allowed wrap a ended).length ≤ fuel) :
    loop (seek (fun s => found s.1) (fun s => s.1 = a) advance) fuel (a, ended) =
      some ((visited all allowed wrap a ended).find? fun s => found s.1) := by
  obtain ⟨t, htrail, ht⟩ := h.visited_trail ended ha
  have hcons : visited all allowed wrap a ended =
      (a, ended) :: (visited all allowed wrap a ended).tail := rfl
  obtain ⟨-, hfront, hback⟩ := h.split ha
  rw [hcons] at hfuel hend ⊢
  refine seek_eq htrail ?_ ?_ hfuel
  · intro u hu
    have hmem : u.1 ∈ behind all a ∨ u.1 ∈ before all a := by
      rcases List.mem_append.mp hu with hu | hu
      · obtain ⟨b, hb, rfl⟩ := List.mem_map.mp hu
        exact .inl (List.mem_of_mem_filter hb)
      · cases wrap with
        | false => cases hu
        | true =>
          obtain ⟨b, hb, rfl⟩ := List.mem_map.mp hu
          exact .inr (List.mem_of_mem_filter hb)
    simp only [decide_eq_false_iff_not]
    rintro rfl
    exact hmem.elim hback hfront
  · rcases hend with hwrap | hallowed | hfound
    · exact .inr fun u hu => by simp [ht, hwrap] at hu
    · cases wrap with
      | false => exact .inr fun u hu => by simp [ht] at hu
      | true =>
        refine .inr fun u hu => ?_
        simp [ht, onward, hallowed] at hu
        simp [← hu]
    · exact .inl hfound

/-- The place with the allowed ones that are ahead: all of them, or those behind it. -/
theorem mem_visited (h : Course all allowed wrap advance) (ha : a ∈ all) :
    b ∈ (visited all allowed wrap a ended).map Prod.fst ↔
      b ∈ a :: (if wrap then all else behind all a).filter allowed := by
  have hfst : ∀ (l : List ι) (w : Bool), (l.map (·, w)).map Prod.fst = l := fun l w => by
    simp [Function.comp_def]
  cases wrap with
  | false => simp [visited, hfst]
  | true =>
    obtain ⟨hall, -, -⟩ := h.split ha
    have hmem : b ∈ all ↔ b ∈ before all a ∨ b = a ∨ b ∈ behind all a := by
      conv_lhs => rw [hall]
      simp
    simp only [visited, if_true, List.map_append, List.map_cons, hfst, List.mem_append,
      List.mem_cons, List.mem_filter, hmem]
    tauto

/-- The first allowed one of an end of the list, and the allowed ones behind it. -/
theorem filter_of_find? (h : Course all allowed wrap advance) (hall : all = pre ++ rest)
    (hb : rest.find? allowed = some b) :
    rest.filter allowed = b :: (behind all b).filter allowed := by
  obtain ⟨hallow, skipped, later, rfl, hskipped⟩ := List.find?_eq_some_iff_append.mp hb
  have hall' : all = (pre ++ skipped) ++ b :: later := by simp [hall]
  have hnot : b ∉ pre ++ skipped := fun hmem =>
    (List.nodup_middle.mp (hall' ▸ h.nodup)).notMem (List.mem_append_left _ hmem)
  have hnone : skipped.filter allowed = [] := List.filter_eq_nil_iff.mpr fun c hc => by
    simpa using hskipped c hc
  rw [behind_split hall' hnot, List.filter_append, hnone, List.filter_cons_of_pos hallow,
    List.nil_append]

variable (found) in
/-- It does not end when it begins where it may not come again, and nothing is to be found. -/
theorem seek_diverges (h : Course all allowed true advance) (ha : a ∈ all)
    (hallowed : allowed a = false) (hsome : ∃ b ∈ all, allowed b = true)
    (hfound : ∀ b ∈ visited all allowed true a ended, found b.1 = false) (fuel : Nat) :
    loop (seek (fun s => found s.1) (fun s => s.1 = a) advance) fuel (a, ended) = none := by
  obtain ⟨hall, -, -⟩ := h.split ha
  have hnone : ∀ b ∈ all, allowed b = true → found b = false := by
    intro b hb hallow
    have hne : b ≠ a := by
      rintro rfl
      simp [hallow] at hallowed
    rw [hall] at hb
    have hmem : b ∈ before all a ∨ b ∈ behind all a := by simpa [hne] using hb
    refine hmem.elim (fun hb => ?_) fun hb => ?_
    · exact hfound (b, true) (by simp [visited, hb, hallow])
    · exact hfound (b, ended) (by simp [visited, hb, hallow])
  have hfirst : ∃ b, all.find? allowed = some b := Option.isSome_iff_exists.mp (by simpa using hsome)
  refine Seeking.seek_diverges
    (I := fun s => s.1 ∈ all ∧ (s.1 = a ∨ allowed s.1 = true)) ?_ ?_ ⟨ha, .inl rfl⟩ fuel
  · rintro ⟨b, w⟩ ⟨hb, rfl | hallow⟩
    · exact hfound (b, ended) (by simp [visited])
    · exact hnone b hb hallow
  · rintro ⟨b, w⟩ ⟨hb, -⟩
    have hon : ∃ t, onward all allowed true w (behind all b) = some t ∧ t.1 ∈ all ∧
        allowed t.1 = true := by
      cases hahead : (behind all b).find? allowed with
      | some c =>
        refine ⟨(c, w), by simp [onward, hahead], ?_, by simpa using List.find?_some hahead⟩
        obtain ⟨hsplit, -, -⟩ := h.split hb
        rw [hsplit]
        simp [List.mem_of_find?_eq_some hahead]
      | none =>
        obtain ⟨c, hc⟩ := hfirst
        exact ⟨(c, true), by simp [onward, hahead, hc], List.mem_of_find?_eq_some hc,
          by simpa using List.find?_some hc⟩
    obtain ⟨t, ht, hmem, hallow⟩ := hon
    refine ⟨t, by rw [h.advance b hb, ht], ?_, hmem, .inr hallow⟩
    simp only [decide_eq_false_iff_not]
    rintro rfl
    simp [hallow] at hallowed

end Course
end Seeking
