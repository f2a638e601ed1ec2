import Mathlib.Data.Nat.Init

/-! Loops with a bound on their turns.

The body of a loop goes on with another state, leaves with a result, or is undefined (`none`).
A bound that suffices gives the result, and a larger one the same, also where the body has
loops with bounds of its own. -/
namespace Loops
variable {σ α : Type*}

/-- `none` where the body is undefined, or the turns do not suffice. -/
def loop (body : σ → Option (σ ⊕ α)) : Nat → σ → Option α
  | 0, _ => none
  | fuel + 1, s =>
    match body s with
    | none => none
    | some (.inl t) => loop body fuel t
    | some (.inr a) => some a

variable {body body' : σ → Option (σ ⊕ α)} {fuel fuel' : Nat} {s t : σ} {a : α}

theorem loop_next (h : body s = some (.inl t)) : loop body (fuel + 1) s = loop body fuel t := by
  simp only [loop, h]

theorem loop_exit (h : body s = some (.inr a)) : loop body (fuel + 1) s = some a := by
  simp only [loop, h]

theorem loop_undefined (h : body s = none) : loop body fuel s = none := by
  cases fuel with
  | zero => rfl
  | succ fuel => simp only [loop, h]

theorem loop_mono (hbody : ∀ s r, body s = some r → body' s = some r) (hfuel : fuel ≤ fuel')
    (h : loop body fuel s = some a) : loop body' fuel' s = some a := by
  induction fuel generalizing fuel' s with
  | zero => cases h
  | succ fuel ih =>
    obtain ⟨fuel', rfl⟩ : ∃ n, fuel' = n + 1 := ⟨fuel' - 1, by omega⟩
    cases hs : body s with
    | none => simp [loop, hs] at h
    | some r =>
      cases r with
      | inl t =>
        rw [loop_next hs] at h
        rw [loop_next (hbody s _ hs)]
        exact ih (by omega) h
      | inr b =>
        rw [loop_exit hs] at h
        rw [loop_exit (hbody s _ hs), h]

end Loops
