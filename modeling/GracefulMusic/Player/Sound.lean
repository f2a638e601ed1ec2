import GracefulMusic.Player.Machine

/-! What the handle is at each status of the producer.

A handle is there exactly when the producer is not unloaded, and it is open exactly when
the producer plays or is paused. While `_producer_play` opens a new handle its status lags
behind, so that the phase of the handle is a parameter. -/
namespace GracefulMusic.Player

/-- A use that finds its handle. `_producer_play` opens a handle before the status says
that there is one, and `player_pause` looks at the pointer without asking for it. -/
def Use.Good (u : Use) : Prop :=
  match u.caller with
  | .playerPause => u.live = true ↔ u.status ≠ .unloaded
  | .producerPlay => u.live = true
  | _ => u.live = true ∧ u.status ≠ .unloaded

/-- The handle is as in a phase, which is the status between the operations, and all was
well so far. -/
structure Sound (phase : ProducerStatus) (s : State) : Prop where
  only : ∀ i, (s.handles i).isSome → s.ip = some i ∧ phase ≠ .unloaded
  loaded : phase ≠ .unloaded → ∃ h, s.handle = some h ∧ (h.isOpen = true ↔ phase ≠ .stopped)
  uses : ∀ u ∈ s.uses, u.Good
  bug : s.bug = false

/-- From one state to another in which the handle is as in a phase, no status has changed,
but `player_info_priv` may have heard of the one it did not have. -/
structure Within (s₀ : State) (phase : ProducerStatus) (s : State) : Prop where
  sound : Sound phase s
  producer : s.producerStatus = s₀.producerStatus
  consumer : s.consumerStatus = s₀.consumerStatus
  info : s₀.infoStatus = s₀.consumerStatus → s.infoStatus = s.consumerStatus
  main : s.main = s₀.main
  producerRunning : s.producerRunning = s₀.producerRunning
  consumerRunning : s.consumerRunning = s₀.consumerRunning

/-- Who may use the handle in a phase, with which status. -/
def MayUse (phase : ProducerStatus) (caller : Caller) (status : ProducerStatus) : Prop :=
  phase ≠ .unloaded ∧ (caller = .producerPlay ∨ status ≠ .unloaded)

namespace Sound
variable {phase phase' : ProducerStatus} {s : State} {caller : Caller}

theorem isSome_iff (h : Sound phase s) : s.handle.isSome = true ↔ phase ≠ .unloaded := by
  constructor
  · intro hsome
    obtain ⟨h', hh⟩ := Option.isSome_iff_exists.mp hsome
    obtain ⟨i, -, hi⟩ := Option.bind_eq_some_iff.mp hh
    exact (h.only i (hi ▸ rfl)).2
  · intro hphase
    obtain ⟨h', hh, -⟩ := h.loaded hphase
    rw [hh]
    rfl

theorem good (h : Sound phase s) (hmay : MayUse phase caller s.producerStatus) :
    (⟨caller, s.handle.isSome, s.producerStatus⟩ : Use).Good := by
  have hlive : s.handle.isSome = true := h.isSome_iff.mpr hmay.1
  obtain ⟨-, rfl | hstatus⟩ := hmay
  · exact hlive
  · cases caller with
    | playerPause => exact iff_of_true hlive hstatus
    | producerPlay => exact hlive
    | _ => exact ⟨hlive, hstatus⟩

theorem touch (h : Sound phase s)
    (hgood : (⟨caller, s.handle.isSome, s.producerStatus⟩ : Use).Good) :
    Sound phase (s.touch caller) := by
  refine ⟨h.only, h.loaded, fun u hu => ?_, h.bug⟩
  rcases List.mem_cons.mp hu with rfl | hu
  · exact hgood
  · exact h.uses u hu

theorem updateHandle_of {i : Nat} (hip : s.ip = some i) (f : Option Handle → Option Handle) :
    s.updateHandle f = {s with handles := Function.update s.handles i (f (s.handles i))} := by
  unfold State.updateHandle
  split
  · rename_i j hj
    obtain rfl := Option.some.inj (hip.symm.trans hj)
    rfl
  · rename_i hnone
    rw [hip] at hnone
    cases hnone

theorem updateHandle (h : Sound phase s) {f : Handle → Handle}
    (hphase : phase ≠ .unloaded) (hphase' : phase' ≠ .unloaded)
    (hopen : ∀ h, (h.isOpen = true ↔ phase ≠ .stopped) →
      ((f h).isOpen = true ↔ phase' ≠ .stopped)) :
    Sound phase' (s.updateHandle <| .map f) := by
  obtain ⟨h', hh, hopen'⟩ := h.loaded hphase
  obtain ⟨i, hip, hi⟩ := Option.bind_eq_some_iff.mp hh
  rw [updateHandle_of hip]
  refine ⟨fun j hj => ⟨?_, hphase'⟩, fun _ => ⟨f h', ?_, hopen h' hopen'⟩, h.uses, h.bug⟩
  · by_cases hji : j = i
    · rw [hji]
      exact hip
    · simp only [Function.update_of_ne hji] at hj
      exact (h.only j hj).1
  · simp [State.handle, hip, hi]

theorem delete (h : Sound phase s) (hphase : phase ≠ .unloaded) :
    Sound .unloaded (s.updateHandle fun _ => none) := by
  obtain ⟨h', hh, -⟩ := h.loaded hphase
  obtain ⟨i, hip, -⟩ := Option.bind_eq_some_iff.mp hh
  rw [updateHandle_of hip]
  refine ⟨fun j hj => ?_, fun hne => absurd rfl hne, h.uses, h.bug⟩
  by_cases hji : j = i
  · simp [hji] at hj
  · simp only [Function.update_of_ne hji] at hj
    exact absurd (Option.some.inj (hip.symm.trans (h.only j hj).1)).symm hji

theorem ipNew (h : Sound .unloaded s) (remote : Bool) : Sound .stopped (s.ipNew remote) := by
  refine ⟨fun i hi => ⟨?_, nofun⟩, fun _ => ⟨⟨remote, false, false⟩, ?_, by simp⟩, h.uses, h.bug⟩
  · by_cases heq : i = s.nextHandle
    · rw [heq]
      rfl
    · simp only [State.ipNew, Function.update_of_ne heq] at hi
      exact absurd rfl (h.only i hi).2
  · simp [State.ipNew, State.handle]

theorem bugOn (h : Sound phase s) {cond : Bool} (hcond : cond = false) :
    Sound phase (s.bugOn cond) := by
  refine ⟨h.only, h.loaded, h.uses, ?_⟩
  rw [State.bugOn, hcond, Bool.or_false]
  exact h.bug

end Sound

namespace Within
variable {phase phase' : ProducerStatus} {s₀ s : State} {caller : Caller}

theorem refl (h : Sound phase s) : Within s phase s := ⟨h, rfl, rfl, id, rfl, rfl, rfl⟩

/-! ### Functions of the handle -/

theorem ask (h : Within s₀ phase s) : Within s₀ phase s.ask.2 :=
  ⟨⟨h.sound.only, h.sound.loaded, h.sound.uses, h.sound.bug⟩, h.producer, h.consumer, h.info,
    h.main, h.producerRunning, h.consumerRunning⟩

theorem bugOn (h : Within s₀ phase s) {cond : Bool} (hcond : cond = false) :
    Within s₀ phase (s.bugOn cond) :=
  ⟨h.sound.bugOn hcond, h.producer, h.consumer, h.info, h.main, h.producerRunning,
    h.consumerRunning⟩

theorem touch (h : Within s₀ phase s) (hmay : MayUse phase caller s₀.producerStatus) :
    Within s₀ phase (s.touch caller) :=
  ⟨h.sound.touch (h.sound.good (h.producer ▸ hmay)), h.producer, h.consumer, h.info, h.main,
    h.producerRunning, h.consumerRunning⟩

theorem of_updateHandle (h : Within s₀ phase s) {f : Option Handle → Option Handle}
    (hsound : Sound phase' (s.updateHandle f)) : Within s₀ phase' (s.updateHandle f) := by
  revert hsound
  unfold State.updateHandle
  split
  · exact fun hsound => ⟨hsound, h.producer, h.consumer, h.info, h.main, h.producerRunning,
      h.consumerRunning⟩
  · exact fun hsound => ⟨hsound, h.producer, h.consumer, h.info, h.main, h.producerRunning,
      h.consumerRunning⟩

/-- A handle that is changed in nothing but its position. -/
theorem updateHandle (h : Within s₀ phase s) (hphase : phase ≠ .unloaded) {f : Handle → Handle}
    (hf : ∀ h, (f h).isOpen = h.isOpen) : Within s₀ phase (s.updateHandle <| .map f) :=
  h.of_updateHandle (h.sound.updateHandle hphase hphase fun h hopen => by rw [hf, hopen])

theorem ipNew (h : Within s₀ .unloaded s) (remote : Bool) : Within s₀ .stopped (s.ipNew remote) :=
  ⟨h.sound.ipNew remote, h.producer, h.consumer, h.info, h.main, h.producerRunning,
    h.consumerRunning⟩

theorem ipDelete (h : Within s₀ phase s) (hmay : MayUse phase caller s₀.producerStatus) :
    Within s₀ .unloaded (s.ipDelete caller) :=
  (h.touch hmay).of_updateHandle ((h.touch hmay).sound.delete hmay.1)

theorem ipOpen (h : Within s₀ .stopped s) (hmay : MayUse .stopped caller s₀.producerStatus) :
    Within s₀ (if (s.ipOpen caller).1 = 0 then .playing else .stopped) (s.ipOpen caller).2 := by
  have ht := h.touch hmay
  obtain ⟨h', hh, hopen⟩ := ht.sound.loaded nofun
  have hclosed : (s.touch caller).handle.any Handle.isOpen = false := by
    rw [hh, Option.any_some]
    simpa using hopen
  have ha := (ht.bugOn hclosed).ask
  unfold State.ipOpen
  dsimp only
  split
  · rename_i hrc
    exact ha.of_updateHandle (ha.sound.updateHandle nofun nofun fun h _ => by simp [hrc])
  · rename_i hrc
    exact ha.of_updateHandle (ha.sound.updateHandle nofun nofun fun h _ => by simp [hrc])

theorem ipClose (h : Within s₀ phase s) (hmay : MayUse phase caller s₀.producerStatus) :
    Within s₀ .stopped (s.ipClose caller) :=
  (h.touch hmay).of_updateHandle
    ((h.touch hmay).sound.updateHandle hmay.1 nofun fun h _ => by simp)

theorem ipIsRemote (h : Within s₀ phase s) (hmay : MayUse phase caller s₀.producerStatus) :
    Within s₀ phase (s.ipIsRemote caller).2 := by
  unfold State.ipIsRemote
  dsimp only
  split
  · exact h.touch hmay
  · exact (h.touch hmay).ask

theorem ipAsk (h : Within s₀ phase s) (hmay : MayUse phase caller s₀.producerStatus) :
    Within s₀ phase (s.ipAsk caller).2 := (h.touch hmay).ask

theorem ipSeek (h : Within s₀ phase s) (hmay : MayUse phase caller s₀.producerStatus) :
    Within s₀ phase (s.ipSeek caller).2 := by
  have hr := h.ipIsRemote hmay
  unfold State.ipSeek
  generalize s.ipIsRemote caller = r at hr ⊢
  obtain ⟨remote, s₁⟩ := r
  dsimp only at hr ⊢
  split
  · exact hr
  split
  · exact hr.ask.updateHandle hmay.1 fun _ => rfl
  · exact hr.ask

theorem ipRead (h : Within s₀ phase s) (hmay : MayUse phase caller s₀.producerStatus) :
    Within s₀ phase (s.ipRead caller).2.2 := by
  have ht := h.touch hmay
  unfold State.ipRead
  dsimp only
  split
  · exact ht.ask.ask
  split
  · exact ht.ask
  have hr := ht.ask.ask
  generalize (s.touch caller).ask.2.ask = r at hr ⊢
  obtain ⟨rc, s₁⟩ := r
  dsimp only at hr ⊢
  have hagain : Within s₀ phase (if rc = -1 then s₁.ask else (0, s₁)).2 := by
    split
    · exact hr.ask
    · exact hr
  generalize (if rc = -1 then s₁.ask else (0, s₁)) = r at hagain ⊢
  obtain ⟨again, s₂⟩ := r
  dsimp only at hagain ⊢
  split
  · exact hagain
  split
  · exact hagain.updateHandle hmay.1 fun _ => rfl
  · exact hagain

/-- Functions that ask for an open handle. -/
theorem bugOnClosed (h : Within s₀ phase s) (hphase : phase ≠ .unloaded)
    (hopen : phase ≠ .stopped) : Within s₀ phase s.bugOnClosed := by
  obtain ⟨h', hh, hiff⟩ := h.sound.loaded hphase
  refine h.bugOn ?_
  rw [hh, Option.any_some, hiff.mpr hopen]
  rfl

theorem ipGet (h : Within s₀ phase s) (hmay : MayUse phase caller s₀.producerStatus)
    (hopen : phase ≠ .stopped) : Within s₀ phase (s.ipGet caller).2 :=
  ((h.touch hmay).bugOnClosed hmay.1 hopen).ask

theorem ipEof (h : Within s₀ phase s) (hmay : MayUse phase caller s₀.producerStatus)
    (hopen : phase ≠ .stopped) : Within s₀ phase (s.ipEof caller).2 := by
  have hb := (h.touch hmay).bugOnClosed hmay.1 hopen
  unfold State.ipEof
  dsimp only
  split
  · exact hb
  · exact hb.ask

/-! ### Functions of the player that change no status -/

theorem playerError (h : Within s₀ phase s) : Within s₀ phase s.playerError :=
  ⟨⟨h.sound.only, h.sound.loaded, h.sound.uses, h.sound.bug⟩, h.producer, h.consumer,
    fun _ => rfl, h.main, h.producerRunning, h.consumerRunning⟩

theorem playerStatusChanged (h : Within s₀ phase s) : Within s₀ phase s.playerStatusChanged :=
  h.playerError

theorem playerIpError (h : Within s₀ phase s) (hmay : MayUse phase caller s₀.producerStatus) :
    Within s₀ phase (s.playerIpError caller) := (h.ipAsk hmay).playerError

theorem cmusGetNextTrack (h : Within s₀ phase s) : Within s₀ phase s.cmusGetNextTrack.2 := by
  unfold State.cmusGetNextTrack
  dsimp only
  split
  · exact h.ask
  · exact h.ask.ask

theorem checkMetadata (h : Within s₀ phase s) (hmay : MayUse phase caller s₀.producerStatus)
    (hstatus : s₀.producerStatus ≠ .unloaded) (hopen : phase ≠ .stopped) :
    Within s₀ phase (s.checkMetadata caller) := by
  have hmay' : MayUse phase .metadataChanged s₀.producerStatus := ⟨hmay.1, .inr hstatus⟩
  unfold State.checkMetadata
  dsimp only
  split
  · exact ((h.ipGet hmay hopen).ipGet hmay' hopen).ipAsk hmay'
  · exact h.ipGet hmay hopen

theorem consumerPositionUpdate (h : Within s₀ phase s) (hphase : phase ≠ .unloaded)
    (hstatus : s₀.producerStatus ≠ .unloaded) : Within s₀ phase s.consumerPositionUpdate := by
  unfold State.consumerPositionUpdate
  dsimp only
  split
  · exact h.ask.ipAsk ⟨hphase, .inr hstatus⟩
  · exact h.ask

theorem setBufferSf (h : Within s₀ phase s) (hphase : phase ≠ .unloaded)
    (hstatus : s₀.producerStatus ≠ .unloaded) (hopen : phase ≠ .stopped) :
    Within s₀ phase s.setBufferSf :=
  have hmay : MayUse phase .setBufferSf s₀.producerStatus := ⟨hphase, .inr hstatus⟩
  (h.ipGet hmay hopen).ipGet hmay hopen

/-- What is read fills a chunk, or there is an error, and the metadata are looked at. -/
theorem afterRead (h : Within s₀ phase s) (hmay : MayUse phase caller s₀.producerStatus)
    (hstatus : s₀.producerStatus ≠ .unloaded) (hopen : phase ≠ .stopped) (failed : Prop)
    [Decidable failed] :
    Within s₀ phase ((if failed then s.playerIpError caller else s).checkMetadata caller) := by
  split
  · exact (h.playerIpError hmay).checkMetadata hmay hstatus hopen
  · exact h.checkMetadata hmay hstatus hopen

theorem prebufferLoop (h : Within s₀ .playing s) (hstatus : s₀.producerStatus ≠ .unloaded)
    (fuel : Nat) : Within s₀ .playing (State.prebufferLoop fuel s) := by
  have hmay : MayUse .playing .prebuffer s₀.producerStatus := ⟨nofun, .inr hstatus⟩
  induction fuel generalizing s with
  | zero => exact h
  | succ fuel ih =>
    unfold State.prebufferLoop
    dsimp only
    split
    · exact h.ask
    have hr := h.ask.ipRead hmay
    generalize s.ask.2.ipRead .prebuffer = r at hr ⊢
    obtain ⟨nrRead, again, s₁⟩ := r
    dsimp only at hr ⊢
    split
    · exact ih hr
    split
    · exact hr.afterRead hmay hstatus nofun _
    · exact ih (hr.afterRead hmay hstatus nofun _)

theorem prebuffer (h : Within s₀ .playing s) (hstatus : s₀.producerStatus = .playing) :
    Within s₀ .playing s.prebuffer := by
  have hne : s₀.producerStatus ≠ .unloaded := by
    rw [hstatus]
    nofun
  have hplaying : decide (s.producerStatus ≠ .playing) = false := by simp [h.producer, hstatus]
  exact ((h.bugOn hplaying).ipIsRemote ⟨nofun, .inr hne⟩).prebufferLoop hne _

theorem producerInner (h : Within s₀ .playing s) (hstatus : s₀.producerStatus ≠ .unloaded)
    (n : Nat) : Within s₀ .playing (State.producerInner n s) := by
  have hmay : MayUse .playing .producerLoop s₀.producerStatus := ⟨nofun, .inr hstatus⟩
  induction n generalizing s with
  | zero => exact h
  | succ n ih =>
    unfold State.producerInner
    dsimp only
    split
    · exact h.ask
    have hr := h.ask.ipRead hmay
    generalize s.ask.2.ipRead .producerLoop = r at hr ⊢
    obtain ⟨nrRead, again, s₁⟩ := r
    dsimp only at hr ⊢
    split
    · exact hr
    split
    · exact hr.afterRead hmay hstatus nofun _
    · exact ih (hr.afterRead hmay hstatus nofun _)

end Within

end GracefulMusic.Player
