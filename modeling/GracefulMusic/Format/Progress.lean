import GracefulMusic.Format.Print

/-! The readers of a format go forward, and not far behind its end. -/
namespace GracefulMusic.Format

/-- A position that a reader comes to. -/
structure Forward (format : Text) (s s' : Nat) : Prop where
  le : s ≤ s'
  bound : s' = s ∨ s' ≤ format.length + 1

variable {format : Text} {s s' t : Nat} {u v : Uchar}

namespace Forward

theorem refl : Forward format s s := ⟨Nat.le_refl _, .inl rfl⟩

theorem trans (h : Forward format s s') (h' : Forward format s' t) : Forward format s t := by
  refine ⟨h.le.trans h'.le, ?_⟩
  rcases h'.bound with rfl | hbound
  · exact h.bound
  · exact .inr hbound

end Forward

/-- A character lies at the position or is the terminator there. -/
theorem getChar_spec (h : getChar format s = .ok (u, s')) :
    s < s' ∧ s' ≤ format.length + 1 ∧ (u ≠ 0 → s' ≤ format.length) := by
  unfold getChar at h
  cases hget : uGetChar format s with
  | none =>
    rw [hget] at h
    cases h
  | some r =>
    rw [hget] at h
    cases h
    obtain ⟨hlt, ⟨hend, rfl, rfl⟩ | hle⟩ := uGetChar_next hget
    · exact ⟨hlt, Nat.succ_le_succ (Nat.le_of_eq hend), fun hne => absurd rfl hne⟩
    · exact ⟨hlt, Nat.le_succ_of_le hle, fun _ => hle⟩

theorem getChar_forward (h : getChar format s = .ok (u, s')) : Forward format s s' := by
  obtain ⟨hlt, hle, -⟩ := getChar_spec h
  exact ⟨Nat.le_of_lt hlt, .inr hle⟩

theorem skipIf_forward {c : Char} (h : skipIf format c u s = .ok (v, s')) :
    Forward format s s' := by
  unfold skipIf at h
  split at h
  · exact getChar_forward h
  · cases h
    exact .refl

theorem skipDigits_forward {fuel : Nat} (h : skipDigits format fuel u s = .ok (v, s')) :
    Forward format s s' := by
  induction fuel generalizing u s with
  | zero => cases h
  | succ fuel ih =>
    rw [skipDigits] at h
    split at h
    · obtain ⟨⟨u', s₁⟩, hget, h⟩ := bind_eq_ok.mp h
      exact (getChar_forward hget).trans (ih h)
    · cases h
      exact .refl

theorem skipModifiers_forward (h : skipModifiers format u s = .ok (v, s')) :
    Forward format s s' := by
  obtain ⟨⟨u₁, s₁⟩, h₁, h⟩ := bind_eq_ok.mp h
  obtain ⟨⟨u₂, s₂⟩, h₂, h⟩ := bind_eq_ok.mp h
  exact (skipIf_forward h₁).trans ((skipIf_forward h₂).trans (skipDigits_forward h))

theorem skipBraces_forward {fuel level : Nat} {closed : Bool}
    (h : skipBraces format fuel level s = .ok (closed, s')) : Forward format s s' := by
  induction fuel generalizing level s with
  | zero => cases h
  | succ fuel ih =>
    rw [skipBraces] at h
    split at h
    · cases h
      exact .refl
    obtain ⟨⟨u, s₁⟩, h₁, h⟩ := bind_eq_ok.mp h
    refine (getChar_forward h₁).trans ?_
    dsimp only at h
    split at h
    · cases h
      exact .refl
    split at h
    · exact ih h
    obtain ⟨⟨u, s₂⟩, h₂, h⟩ := bind_eq_ok.mp h
    refine (getChar_forward h₂).trans ?_
    dsimp only at h
    split at h
    · exact ih h
    obtain ⟨⟨u, s₃⟩, h₃, h⟩ := bind_eq_ok.mp h
    refine (skipModifiers_forward h₃).trans ?_
    dsimp only at h
    split at h
    · cases h
      exact .refl
    · exact ih h

/-- The character that ends an expression lies in the format. -/
theorem formatSkipCondExpr_spec {fuel : Nat}
    (h : formatSkipCondExpr format fuel s = .ok (u, s')) (hne : u ≠ 0) :
    s < s' ∧ s' ≤ format.length := by
  induction fuel generalizing s with
  | zero => cases h
  | succ fuel ih =>
    obtain ⟨c, -, h⟩ := bind_eq_ok.mp h
    split at h
    · cases h
      exact absurd rfl hne
    obtain ⟨⟨u₁, s₁⟩, h₁, h⟩ := bind_eq_ok.mp h
    obtain ⟨hlt, -, hin⟩ := getChar_spec h₁
    dsimp only at h
    split at h
    · cases h
      exact ⟨hlt, hin hne⟩
    split at h
    · obtain ⟨hlt', hle⟩ := ih h
      exact ⟨hlt.trans hlt', hle⟩
    obtain ⟨⟨u₂, s₂⟩, h₂, h⟩ := bind_eq_ok.mp h
    have hlt₂ := hlt.trans (getChar_spec h₂).1
    dsimp only at h
    split at h
    · obtain ⟨hlt', hle⟩ := ih h
      exact ⟨hlt₂.trans hlt', hle⟩
    obtain ⟨⟨u₃, s₃⟩, h₃, h⟩ := bind_eq_ok.mp h
    have hlt₃ := hlt₂.trans_le (skipModifiers_forward h₃).le
    dsimp only at h
    split at h
    · obtain ⟨⟨closed, s₄⟩, h₄, h⟩ := bind_eq_ok.mp h
      have hlt₄ := hlt₃.trans_le (skipBraces_forward h₄).le
      dsimp only at h
      split at h
      · obtain ⟨hlt', hle⟩ := ih h
        exact ⟨hlt₄.trans hlt', hle⟩
      · cases h
        exact absurd rfl hne
    · obtain ⟨hlt', hle⟩ := ih h
      exact ⟨hlt₃.trans hlt', hle⟩

/-- The parts of a conditional lie behind each other in the format. -/
theorem formatReadCond_spec {b : Branches} (h : formatReadCond format s = .ok (some b)) :
    s ≤ b.thenPos ∧ b.thenPos < b.elsePos.getD b.endPos ∧
      (∀ elsePos ∈ b.elsePos, b.thenPos < elsePos ∧ elsePos < b.endPos) ∧
      b.endPos < format.length := by
  obtain ⟨⟨t₁, s₁⟩, h₁, h⟩ := bind_eq_ok.mp h
  dsimp only at h
  split at h
  · cases h
  rename_i hthen
  obtain ⟨hlt₁, hle₁⟩ := formatSkipCondExpr_spec h₁ (by rw [not_not.mp hthen]; decide)
  obtain ⟨⟨t₂, s₂⟩, h₂, h⟩ := bind_eq_ok.mp h
  dsimp only at h
  split at h
  · cases h
  rename_i hne
  obtain ⟨hlt₂, hle₂⟩ := formatSkipCondExpr_spec h₂ hne
  split at h
  · obtain ⟨⟨t₃, s₃⟩, h₃, h⟩ := bind_eq_ok.mp h
    dsimp only at h
    split at h
    · cases h
    rename_i hend
    obtain ⟨hlt₃, hle₃⟩ := formatSkipCondExpr_spec h₃ (by rw [not_not.mp hend]; decide)
    cases h
    refine ⟨by simp only; omega, by simp only [Option.getD_some]; omega, fun elsePos helse => ?_,
      by simp only; omega⟩
    cases helse
    exact ⟨by simp only; omega, by simp only; omega⟩
  · cases h
    exact ⟨by simp only; omega, by simp only [Option.getD_none]; omega, nofun, by simp only; omega⟩

theorem readLongName_forward {fSize fuel n longLen : Nat}
    (h : readLongName format fSize fuel s n = .ok (some (longLen, s'))) :
    Forward format s s' := by
  induction fuel generalizing s n with
  | zero => cases h
  | succ fuel ih =>
    rw [readLongName] at h
    split at h
    · cases h
    obtain ⟨⟨u, s₁⟩, h₁, h⟩ := bind_eq_ok.mp h
    refine (getChar_forward h₁).trans ?_
    dsimp only at h
    split at h
    · cases h
      exact .refl
    · exact ih h

theorem readWidth_forward {fuel : Nat} {width width' : Int}
    (h : readWidth format fuel width u s = .ok (width', v, s')) : Forward format s s' := by
  induction fuel generalizing width u s with
  | zero => cases h
  | succ fuel ih =>
    rw [readWidth] at h
    split at h
    · obtain ⟨⟨u', s₁⟩, hget, h⟩ := bind_eq_ok.mp h
      exact (getChar_forward hget).trans (ih h)
    · cases h
      exact .refl

theorem readField_forward {field : Field} (h : readField format u s = .ok (field, v, s')) :
    Forward format s s' := by
  obtain ⟨⟨u₁, s₁⟩, h₁, h⟩ := bind_eq_ok.mp h
  obtain ⟨⟨u₂, s₂⟩, h₂, h⟩ := bind_eq_ok.mp h
  obtain ⟨⟨u₃, s₃⟩, h₃, h⟩ := bind_eq_ok.mp h
  obtain ⟨⟨width, u₄, s₄⟩, h₄, h⟩ := bind_eq_ok.mp h
  obtain ⟨⟨u₅, s₅⟩, h₅, h⟩ := bind_eq_ok.mp h
  cases h
  exact (skipIf_forward h₁).trans ((skipIf_forward h₂).trans ((skipIf_forward h₃).trans
    ((readWidth_forward h₄).trans (skipIf_forward h₅))))

end GracefulMusic.Format
