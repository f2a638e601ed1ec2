import Mathlib.Data.Set.Finite.List
import GracefulMusic.Tracks.SortFields

/-! The order of tracks (`track_info_cmp`).

Modulo 2^32 numbers are in an order where they lie within one half of the circle, and in
none otherwise: of two opposite ones each is in front of the other. -/
namespace GracefulMusic

/-! ### One key -/

theorem toInt_spec (x : Int) :
    -2 ^ 31 ≤ toInt x ∧ toInt x < 2 ^ 31 ∧ toInt x % 2 ^ 32 = x % 2 ^ 32 := by
  rw [toInt, Int.bmod_def]
  omega

theorem toInt_of_range {x : Int} (hlow : -2 ^ 31 ≤ x) (hhigh : x < 2 ^ 31) : toInt x = x := by
  have := toInt_spec x
  omega

variable {locale : SortLocale} {doublecmp0 : SortField → TrackInfo → TrackInfo → Int}
  {field : SortField} {key : SortKey} {keys : List SortKey} {S : TrackInfo → Prop} {a b : TrackInfo}

theorem WithinHalf.mono {T : TrackInfo → Prop} (h : WithinHalf field T) (hST : ∀ ti, S ti → T ti) :
    WithinHalf field S := by
  intro entry hentry
  obtain ⟨base, hbase⟩ := h entry hentry
  exact ⟨base, fun ti hti => hbase ti (hST ti hti)⟩

theorem sortFieldCmp_number {entry : TrackInfo → Int} (h : field.number = some entry) :
    sortFieldCmp locale doublecmp0 field a b = toInt (entry a - entry b) := by
  rw [sortFieldCmp, h]

theorem sortFieldCmp_filename :
    sortFieldCmp locale doublecmp0 .filename a b = locale.strcoll a.filename b.filename := rfl

theorem sortFieldCmp_string (h : field.number = none) (hname : field ≠ .filename)
    (hfield : field.isReplayGain = false) : sortFieldCmp locale doublecmp0 field a b =
      strcmp0 (field.string locale a) (field.string locale b) := by
  rw [sortFieldCmp, h]
  dsimp only
  rw [if_neg hname, if_neg (by rw [hfield]; exact Bool.false_ne_true)]

variable (locale doublecmp0) in
theorem sortFieldCmp_range (a b : TrackInfo) (hfield : field.isReplayGain = false) :
    -2 ^ 31 ≤ sortFieldCmp locale doublecmp0 field a b ∧
      sortFieldCmp locale doublecmp0 field a b < 2 ^ 31 := by
  cases hnumber : field.number with
  | some entry =>
    rw [sortFieldCmp_number hnumber]
    have := toInt_spec (entry a - entry b)
    omega
  | none =>
    by_cases hname : field = .filename
    · subst hname
      rw [sortFieldCmp_filename]
      have := locale.strcoll_range a.filename b.filename
      omega
    · rw [sortFieldCmp_string hnumber hname hfield]
      have := strcmp0_range (field.string locale a) (field.string locale b)
      omega

theorem sameField_iff (hfield : field.isReplayGain = false) (ha : CStrings a) (hb : CStrings b) :
    SameField locale field a b ↔ sortFieldCmp locale doublecmp0 field a b = 0 := by
  unfold SameField
  cases hnumber : field.number with
  | some entry =>
    rw [sortFieldCmp_number hnumber]
    dsimp only
    have := toInt_spec (entry a - entry b)
    omega
  | none =>
    dsimp only
    by_cases hname : field = .filename
    · subst hname
      rw [if_pos rfl, sortFieldCmp_filename]
    · rw [if_neg hname, sortFieldCmp_string hnumber hname hfield,
        strcmp0_eq_zero (ha.string locale field) (hb.string locale field)]

variable (locale doublecmp0) in
/-- A field orders the tracks, unless its numbers go around. -/
theorem sortFieldCmp_order (hfield : field.isReplayGain = false)
    (hstrings : ∀ ti, S ti → CStrings ti) (hhalf : WithinHalf field S) :
    TotalPreorder (fun a b : {ti // S ti} => sortFieldCmp locale doublecmp0 field a b) ∧
      ∀ a b, S a → S b → -2 ^ 31 < sortFieldCmp locale doublecmp0 field a b := by
  cases hnumber : field.number with
  | some entry =>
    obtain ⟨base, hbase⟩ := hhalf entry hnumber
    have hsub : ∀ a b, S a → S b → sortFieldCmp locale doublecmp0 field a b =
        (entry a - base) % 2 ^ 32 - (entry b - base) % 2 ^ 32 := by
      intro a b ha hb
      rw [sortFieldCmp_number hnumber]
      have := toInt_spec (entry a - entry b)
      have := hbase a ha
      have := hbase b hb
      omega
    constructor
    · have horder := TotalPreorder.sub fun a : {ti // S ti} => (entry a - base) % 2 ^ 32
      exact horder.of_signs fun a b => by rw [hsub a b a.2 b.2]; exact ⟨.rfl, .rfl⟩
    · intro a b ha hb
      rw [hsub a b ha hb]
      have := hbase b hb
      omega
  | none =>
    by_cases hname : field = .filename
    · subst hname
      exact ⟨locale.strcoll_order.comap fun a : {ti // S ti} => a.1.filename,
        fun a b _ _ => (locale.strcoll_range a.filename b.filename).1⟩
    · constructor
      · have horder := strcmp0_order (fun a : {ti // S ti} => field.string locale a)
          fun a => (hstrings a a.2).string locale field
        exact horder.of_signs fun a b => by
          rw [sortFieldCmp_string hnumber hname hfield]
          exact ⟨.rfl, .rfl⟩
      · intro a b _ _
        rw [sortFieldCmp_string hnumber hname hfield]
        exact (strcmp0_range _ _).1

variable (locale doublecmp0) in
theorem keyCmp_order (hfield : key.field.isReplayGain = false)
    (hstrings : ∀ ti, S ti → CStrings ti) (hhalf : WithinHalf key.field S) :
    TotalPreorder fun a b : {ti // S ti} => keyCmp locale doublecmp0 key a b := by
  obtain ⟨horder, hlow⟩ :=
    sortFieldCmp_order locale doublecmp0 hfield hstrings hhalf
  have hkey : ∀ a b : {ti // S ti}, keyCmp locale doublecmp0 key a b =
      if key.rev then -sortFieldCmp locale doublecmp0 key.field a b
      else sortFieldCmp locale doublecmp0 key.field a b := by
    intro a b
    have := hlow a b a.2 b.2
    have := sortFieldCmp_range locale doublecmp0 a b hfield
    unfold keyCmp
    split <;> exact toInt_of_range (by omega) (by omega)
  by_cases hrev : key.rev = true
  · exact horder.neg.of_signs fun a b => by rw [hkey, if_pos hrev]; exact ⟨.rfl, .rfl⟩
  · exact horder.of_signs fun a b => by rw [hkey, if_neg hrev]; exact ⟨.rfl, .rfl⟩

theorem keyCmp_eq_zero (hfield : key.field.isReplayGain = false) :
    keyCmp locale doublecmp0 key a b = 0 ↔ sortFieldCmp locale doublecmp0 key.field a b = 0 := by
  have := sortFieldCmp_range locale doublecmp0 a b hfield
  unfold keyCmp
  split
  · have := toInt_spec (-sortFieldCmp locale doublecmp0 key.field a b)
    omega
  · have := toInt_spec (sortFieldCmp locale doublecmp0 key.field a b)
    omega

/-! ### All keys -/

theorem sortCmp_cons (hfield : key.field.isReplayGain = false) :
    sortCmp locale doublecmp0 (key :: keys) a b =
      if keyCmp locale doublecmp0 key a b ≠ 0 then keyCmp locale doublecmp0 key a b
      else sortCmp locale doublecmp0 keys a b := by
  unfold sortCmp
  rw [trackInfoCmp]
  by_cases hzero : sortFieldCmp locale doublecmp0 key.field a b = 0
  · rw [if_neg (not_not.mpr hzero), if_neg (not_not.mpr ((keyCmp_eq_zero hfield).mpr hzero))]
  · rw [if_pos hzero, if_pos (mt (keyCmp_eq_zero hfield).mp hzero)]
    rfl

/-- Two tracks on opposite sides of the circle are each in front of the other. -/
theorem keyCmp_opposite {entry : TrackInfo → Int} (h : key.field.number = some entry)
    (hab : keyCmp locale doublecmp0 key a b = -2 ^ 31) :
    keyCmp locale doublecmp0 key b a = -2 ^ 31 := by
  unfold keyCmp at hab ⊢
  rw [sortFieldCmp_number h] at hab ⊢
  have hforth := toInt_spec (entry a - entry b)
  have hback := toInt_spec (entry b - entry a)
  by_cases hrev : key.rev = true
  · rw [if_pos hrev] at hab ⊢
    have := toInt_spec (-toInt (entry a - entry b))
    have := toInt_spec (-toInt (entry b - entry a))
    omega
  · rw [if_neg hrev] at hab ⊢
    have := toInt_spec (toInt (entry a - entry b))
    have := toInt_spec (toInt (entry b - entry a))
    omega

/-- All numbers lie behind the first one. -/
theorem withinHalf_of_order [Finite {ti // S ti}] (hfield : key.field.isReplayGain = false)
    (h : TotalPreorder fun a b : {ti // S ti} => sortCmp locale doublecmp0 (key :: keys) a b) :
    WithinHalf key.field S := by
  intro entry hentry
  by_cases hempty : ∃ ti, S ti
  · have hnonempty : Nonempty {ti // S ti} := hempty.elim fun ti hti => ⟨⟨ti, hti⟩⟩
    obtain ⟨m, hfirst⟩ := h.exists_first
    have hbehind : ∀ ti, S ti → -2 ^ 31 < keyCmp locale doublecmp0 key m ti ∧
        keyCmp locale doublecmp0 key m ti ≤ 0 := by
      intro ti hti
      have hle := hfirst ⟨ti, hti⟩
      have hswap := h.swap m ⟨ti, hti⟩
      have hlow : -2 ^ 31 ≤ keyCmp locale doublecmp0 key m ti := (toInt_spec _).1
      dsimp only at hle hswap
      rw [sortCmp_cons hfield] at hle
      rw [sortCmp_cons hfield, sortCmp_cons hfield] at hswap
      have hnot : keyCmp locale doublecmp0 key m ti ≠ -2 ^ 31 := by
        intro hopposite
        rw [hopposite, keyCmp_opposite hentry hopposite] at hswap
        have hforth := hswap.mp (by rw [if_pos (by decide)]; decide)
        rw [if_pos (by decide)] at hforth
        exact absurd hforth (by decide)
      refine ⟨by omega, ?_⟩
      by_cases hzero : keyCmp locale doublecmp0 key m ti = 0
      · exact Int.le_of_eq hzero
      · rwa [if_pos hzero] at hle
    unfold keyCmp at hbehind
    by_cases hrev : key.rev = true
    · refine ⟨entry m - (2 ^ 31 - 1), fun ti hti => ?_⟩
      have hti := hbehind ti hti
      rw [if_pos hrev, sortFieldCmp_number hentry] at hti
      have := toInt_spec (entry m - entry ti)
      have := toInt_spec (-toInt (entry m - entry ti))
      omega
    · refine ⟨entry m, fun ti hti => ?_⟩
      have hti := hbehind ti hti
      rw [if_neg hrev, sortFieldCmp_number hentry] at hti
      have := toInt_spec (entry m - entry ti)
      have := toInt_spec (toInt (entry m - entry ti))
      omega
  · exact ⟨0, fun ti hti => absurd ⟨ti, hti⟩ hempty⟩

/-- Among the tracks that the keys in front do not tell apart, the numbers of every key lie in
one half. -/
def KeysFit (locale : SortLocale) (keys : List SortKey) (S : TrackInfo → Prop) : Prop :=
  ∀ front key back, keys = front ++ key :: back → ∀ ti, S ti →
    WithinHalf key.field fun u => S u ∧ ∀ k ∈ front, SameField locale k.field ti u

theorem SameField.refl (locale : SortLocale) (field : SortField) (a : TrackInfo) :
    SameField locale field a a := by
  unfold SameField
  cases field.number with
  | some entry => rfl
  | none =>
    dsimp only
    split
    · exact locale.strcoll_order.refl _
    · rfl

theorem SameField.trans_symm {c : TrackInfo} (hab : SameField locale field a b)
    (hac : SameField locale field a c) : SameField locale field b c := by
  unfold SameField at hab hac ⊢
  cases hnumber : field.number with
  | some entry =>
    rw [hnumber] at hab hac
    exact hab.symm.trans hac
  | none =>
    rw [hnumber] at hab hac
    dsimp only at hab hac ⊢
    split
    · rename_i hname
      rw [if_pos hname] at hab hac
      exact locale.strcoll_order.eq_trans (locale.strcoll_order.eq_symm hab) hac
    · rename_i hname
      rw [if_neg hname] at hab hac
      exact hab.symm.trans hac

/-- The first key, and the others among the tracks that it does not tell apart. -/
theorem keysFit_cons : KeysFit locale (key :: keys) S ↔ WithinHalf key.field S ∧
    ∀ ti, S ti → KeysFit locale keys fun u => S u ∧ SameField locale key.field ti u := by
  constructor
  · intro h
    refine ⟨fun entry hentry => ?_, fun ti hti front k back hkeys u hu => ?_⟩
    · by_cases hempty : ∃ ti, S ti
      · obtain ⟨ti, hti⟩ := hempty
        exact (h [] key keys rfl ti hti).mono
          (fun u hu => ⟨hu, fun k hk => absurd hk List.not_mem_nil⟩) entry hentry
      · exact ⟨0, fun ti hti => absurd ⟨ti, hti⟩ hempty⟩
    · apply (h (key :: front) k back (by rw [hkeys]; rfl) u hu.1).mono
      intro v hv
      refine ⟨hv.1.1, fun k' hk' => ?_⟩
      obtain rfl | hk' := List.mem_cons.mp hk'
      · exact hu.2.trans_symm hv.1.2
      · exact hv.2 k' hk'
  · intro h front k back hkeys ti hti
    cases front with
    | nil =>
      obtain ⟨rfl, -⟩ := List.cons.inj hkeys
      exact h.1.mono fun u hu => hu.1
    | cons first front =>
      obtain ⟨rfl, hrest⟩ := List.cons.inj hkeys
      apply (h.2 ti hti front k back hrest ti ⟨hti, .refl locale key.field ti⟩).mono
      intro u hu
      exact ⟨⟨hu.1, hu.2 key List.mem_cons_self⟩,
        fun k' hk' => hu.2 k' (List.mem_cons_of_mem key hk')⟩

theorem sortCmp_order [Finite {ti // S ti}] (hfields : ∀ k ∈ keys, k.field.isReplayGain = false)
    (hstrings : ∀ ti, S ti → CStrings ti) :
    TotalPreorder (fun a b : {ti // S ti} => sortCmp locale doublecmp0 keys a b) ↔
      KeysFit locale keys S := by
  induction keys generalizing S with
  | nil =>
    refine iff_of_true ⟨fun _ _ => Iff.rfl, fun _ _ _ _ _ => Int.le_refl 0⟩ ?_
    intro front key back hkeys
    exact absurd hkeys.symm (by simp)
  | cons key keys ih =>
    have hfield := hfields key List.mem_cons_self
    have hrest := fun k hk => hfields k (List.mem_cons_of_mem key hk)
    have hsame : ∀ a b, S a → S b →
        (SameField locale key.field a b ↔ keyCmp locale doublecmp0 key a b = 0) := by
      intro a b ha hb
      rw [keyCmp_eq_zero hfield]
      exact sameField_iff hfield (hstrings a ha) (hstrings b hb)
    have hih : ∀ ti, (TotalPreorder fun a b : {u // S u ∧ SameField locale key.field ti u} =>
        sortCmp locale doublecmp0 keys a b) ↔
          KeysFit locale keys fun u => S u ∧ SameField locale key.field ti u := by
      intro ti
      have hfinite : Finite {u // S u ∧ SameField locale key.field ti u} :=
        Finite.of_injective (fun u => (⟨u.1, u.2.1⟩ : {u // S u})) fun u v huv =>
          Subtype.ext (congrArg (fun w : {u // S u} => w.1) huv)
      exact ih hrest fun u hu => hstrings u hu.1
    rw [keysFit_cons]
    constructor
    · intro h
      refine ⟨withinHalf_of_order hfield h, fun ti hti => (hih ti).mp ?_⟩
      have hinside := h.comap fun u : {u // S u ∧ SameField locale key.field ti u} =>
        (⟨u.1, u.2.1⟩ : {u // S u})
      refine hinside.of_signs fun a b => ?_
      have hzero := (hsame a b a.2.1 b.2.1).mp (a.2.2.trans_symm b.2.2)
      dsimp only
      rw [sortCmp_cons hfield, if_neg (not_not.mpr hzero)]
      exact ⟨.rfl, .rfl⟩
    · intro h
      have hkey := keyCmp_order locale doublecmp0 hfield hstrings h.1
      have hclasses : ∀ x : {ti // S ti}, TotalPreorder
          fun a b : {y : {ti // S ti} // keyCmp locale doublecmp0 key x y = 0} =>
            sortCmp locale doublecmp0 keys a b := by
        intro x
        exact ((hih x).mpr (h.2 x x.2)).comap
          fun y : {y : {ti // S ti} // keyCmp locale doublecmp0 key x y = 0} =>
            ⟨y.1.1, y.1.2, (hsame x y.1 x.2 y.1.2).mpr y.2⟩
      have hlex := @TotalPreorder.lex_classes {ti // S ti} _ hkey
        (fun a b => sortCmp locale doublecmp0 keys a b) hclasses
      refine hlex.of_signs fun a b => ?_
      rw [sortCmp_cons hfield]
      exact ⟨.rfl, .rfl⟩

/-- The tracks are ordered exactly where no key that has to decide between some of them goes
around. -/
theorem sortCmp_order_iff (locale : SortLocale)
    (doublecmp0 : SortField → TrackInfo → TrackInfo → Int) {keys : List SortKey}
    (hfields : ∀ k ∈ keys, k.field.isReplayGain = false) {tracks : List TrackInfo}
    (hstrings : ∀ ti ∈ tracks, CStrings ti) :
    TotalPreorder (fun a b : {ti // ti ∈ tracks} => sortCmp locale doublecmp0 keys a b) ↔
      KeysFit locale keys fun ti => ti ∈ tracks := by
  have hfinite : Finite {ti // ti ∈ tracks} := (List.finite_toSet tracks).to_subtype
  exact sortCmp_order hfields hstrings

theorem noNul_filter (s : Text) : 0 ∉ s.filter (· ≠ 0) := by
  simp

theorem strcmp_filter_order : TotalPreorder fun s t : Text =>
    strcmp (s.filter (· ≠ 0)) (t.filter (· ≠ 0)) := by
  refine ⟨fun s t => ?_, fun s t u hst htu => ?_⟩
  · rw [strcmp_swap (s.filter (· ≠ 0))]
    omega
  · exact strcmp_trans (noNul_filter s) (noNul_filter t) (noNul_filter u) hst htu

theorem strcmp_filter_range (s t : Text) : -2 ^ 31 < strcmp (s.filter (· ≠ 0)) (t.filter (· ≠ 0)) ∧
    strcmp (s.filter (· ≠ 0)) (t.filter (· ≠ 0)) < 2 ^ 31 := by
  have := strcmp_range (s.filter (· ≠ 0)) (t.filter (· ≠ 0))
  omega

/-- Bytes in their order, as in the locale `C`. -/
def plainSortLocale : SortLocale where
  strcoll s t := strcmp (s.filter (· ≠ 0)) (t.filter (· ≠ 0))
  strcoll_order := strcmp_filter_order
  strcoll_range := strcmp_filter_range
  strcasecollKey s := s.filter (· ≠ 0)
  strcasecollKey_noNul := noNul_filter

def fileOf (name : String) (mtime : Int) : TrackInfo :=
  {uid := 1, filename := ascii name, mtime := mtime}

theorem fileOf_strings (name : String) (mtime : Int) : CStrings (fileOf name mtime) :=
  ⟨fun _ h => (by cases h), fun _ h => (by cases h), fun _ h => (by cases h)⟩

/-- Newest first, and by name where the times are the same. -/
theorem sortCmp_order_newest : TotalPreorder fun a b :
    {ti // ti ∈ [fileOf "/b" 1600000000, fileOf "/a" 1600000000, fileOf "/c" (-1)]} =>
      sortCmp plainSortLocale (fun _ _ _ => 0) [⟨.filemtime, true⟩, ⟨.filename, false⟩] a b := by
  refine (sortCmp_order_iff plainSortLocale (fun _ _ _ => 0) (by decide) ?_).mpr ?_
  · intro ti hti
    simp only [List.mem_cons, List.not_mem_nil, or_false] at hti
    rcases hti with rfl | rfl | rfl <;> exact fileOf_strings _ _
  · intro front key back hkeys ti _ entry hentry
    refine ⟨-1, fun u hu => ?_⟩
    have hmtime : entry = (·.mtime) := by
      rcases front with _ | ⟨first, _ | ⟨second, front⟩⟩
      · obtain ⟨rfl, -⟩ := List.cons.inj hkeys
        exact (Option.some.inj hentry).symm
      · obtain ⟨-, htail⟩ := List.cons.inj hkeys
        obtain ⟨rfl, -⟩ := List.cons.inj htail
        cases hentry
      · simp at hkeys
    have hu := hu.1
    simp only [List.mem_cons, List.not_mem_nil, or_false] at hu
    rw [hmtime]
    rcases hu with rfl | rfl | rfl <;> decide

/-- Two files whose times lie 2^31 seconds apart are each in front of the other. -/
theorem sortCmp_opposite : ∃ a b : TrackInfo, CStrings a ∧ CStrings b ∧
    sortCmp plainSortLocale (fun _ _ _ => 0) [⟨.filemtime, false⟩] a b < 0 ∧
      sortCmp plainSortLocale (fun _ _ _ => 0) [⟨.filemtime, false⟩] b a < 0 :=
  ⟨fileOf "/a" 0, fileOf "/b" (2 ^ 31), fileOf_strings _ _, fileOf_strings _ _, by decide,
    by decide⟩

end GracefulMusic
