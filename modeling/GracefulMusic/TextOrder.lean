import GracefulMusic.Text

/-! The order of `strcmp`. -/
namespace GracefulMusic

theorem strcmp_swap (s t : Text) : strcmp t s = -strcmp s t := by
  induction s generalizing t with
  | nil => cases t <;> simp [strcmp]
  | cons c s ih =>
    cases t with
    | nil => simp [strcmp]
    | cons d t =>
      rw [strcmp, strcmp]
      by_cases hcd : c = d
      · rw [if_pos hcd, if_pos hcd.symm, ih]
      · rw [if_neg hcd, if_neg (Ne.symm hcd)]
        omega

theorem strcmp_self (s : Text) : strcmp s s = 0 := by
  induction s with
  | nil => rfl
  | cons c s ih => rwa [strcmp, if_pos rfl]

theorem toNat_pos {c : UInt8} (h : c ≠ 0) : 0 < c.toNat := by
  rcases Nat.eq_zero_or_pos c.toNat with hc | hc
  · exact absurd (UInt8.toNat_inj.mp hc) h
  · exact hc

/-- Without terminators inside, only equal strings compare equal. -/
theorem strcmp_eq_zero {s t : Text} (hs : 0 ∉ s) (ht : 0 ∉ t) : strcmp s t = 0 ↔ s = t := by
  induction s generalizing t with
  | nil =>
    cases t with
    | nil => simp [strcmp]
    | cons d t =>
      have := toNat_pos fun hd : d = 0 => ht (hd ▸ List.mem_cons_self)
      simp only [strcmp, reduceCtorEq, iff_false]
      omega
  | cons c s ih =>
    have hc := toNat_pos fun hc : c = 0 => hs (hc ▸ List.mem_cons_self)
    cases t with
    | nil =>
      simp only [strcmp, reduceCtorEq, iff_false]
      omega
    | cons d t =>
      rw [strcmp]
      by_cases hcd : c = d
      · rw [if_pos hcd, ih (fun h => hs (.tail _ h)) fun h => ht (.tail _ h), hcd]
        simp
      · have hne : c.toNat ≠ d.toNat := fun h => hcd (UInt8.toNat_inj.mp h)
        rw [if_neg hcd]
        simp only [List.cons.injEq, hcd, false_and, iff_false]
        omega

theorem strcmp_trans {s t u : Text} (hs : 0 ∉ s) (ht : 0 ∉ t) (hu : 0 ∉ u)
    (hst : strcmp s t ≤ 0) (htu : strcmp t u ≤ 0) : strcmp s u ≤ 0 := by
  induction s generalizing t u with
  | nil =>
    cases u with
    | nil => exact Int.le_refl 0
    | cons e u =>
      show -(e.toNat : Int) ≤ 0
      omega
  | cons c s ih =>
    have hc := toNat_pos fun hc : c = 0 => hs (hc ▸ List.mem_cons_self)
    cases t with
    | nil =>
      have : (c.toNat : Int) ≤ 0 := hst
      omega
    | cons d t =>
      have hd := toNat_pos fun hd : d = 0 => ht (hd ▸ List.mem_cons_self)
      cases u with
      | nil =>
        have : (d.toNat : Int) ≤ 0 := htu
        omega
      | cons e u =>
        rw [strcmp] at hst htu ⊢
        by_cases hcd : c = d
        · by_cases hde : d = e
          · rw [if_pos hcd] at hst
            rw [if_pos hde] at htu
            rw [if_pos (hcd.trans hde)]
            exact ih (fun h => hs (.tail _ h)) (fun h => ht (.tail _ h)) (fun h => hu (.tail _ h))
              hst htu
          · rw [if_neg hde] at htu
            rwa [if_neg (hcd ▸ hde), hcd]
        · have hne : c.toNat ≠ d.toNat := fun h => hcd (UInt8.toNat_inj.mp h)
          rw [if_neg hcd] at hst
          have hde : d.toNat ≤ e.toNat := by
            by_cases hde : d = e
            · rw [hde]
            · rw [if_neg hde] at htu
              omega
          have hce : c ≠ e := by
            intro heq
            subst heq
            omega
          rw [if_neg hce]
          omega

theorem strcmp_lt_trans {s t u : Text} (hs : 0 ∉ s) (ht : 0 ∉ t) (hu : 0 ∉ u)
    (hst : strcmp s t < 0) (htu : strcmp t u < 0) : strcmp s u < 0 := by
  refine lt_of_le_of_ne (strcmp_trans hs ht hu (Int.le_of_lt hst) (Int.le_of_lt htu)) fun heq => ?_
  obtain rfl := (strcmp_eq_zero hs hu).mp heq
  have hswap := strcmp_swap s t
  omega

end GracefulMusic
