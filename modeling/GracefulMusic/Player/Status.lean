import GracefulMusic.Player.Sound

/-! What the functions of the producer and of the consumer do to the two statuses.

One lemma a function: from a state whose handle is as its producer's status says to
another such state, with the statuses that the function may leave behind. -/
namespace GracefulMusic.Player

/-- From one state to another with a producer's and a consumer's status, and a handle as the
former says. -/
structure At (s₀ : State) (p : ProducerStatus) (c : ConsumerStatus) (s : State) : Prop where
  sound : Sound p s
  producer : s.producerStatus = p
  consumer : s.consumerStatus = c
  left : s.main = .left ↔ s₀.main = .left
  producerRunning : s.producerRunning = s₀.producerRunning
  consumerRunning : s.consumerRunning = s₀.consumerRunning

/-- `player_info_priv` has the status of the consumer. -/
def State.Told (s : State) : Prop := s.infoStatus = s.consumerStatus

/-- Where `_producer_play` can lead. -/
def PlayLeads (p p' : ProducerStatus) : Prop :=
  p' = .playing ∨ (p' = .unloaded ∧ (p = .unloaded ∨ p = .stopped))

/-- To the handle, playing and paused are the same. -/
theorem Within.phase {s₀ s : State} {p p' : ProducerStatus} (h : Within s₀ p s)
    (hp : p = .paused ∧ p' = .playing ∨ p = .playing ∧ p' = .paused) : Within s₀ p' s := by
  have hloaded : p ≠ .unloaded ∧ p ≠ .stopped ∧ p' ≠ .unloaded ∧ p' ≠ .stopped := by
    rcases hp with ⟨rfl, rfl⟩ | ⟨rfl, rfl⟩ <;> exact ⟨nofun, nofun, nofun, nofun⟩
  obtain ⟨hu, hs, hu', hs'⟩ := hloaded
  refine ⟨⟨fun i hi => ⟨(h.sound.only i hi).1, hu'⟩, fun _ => ?_, h.sound.uses, h.sound.bug⟩,
    h.producer, h.consumer, h.info, h.main, h.producerRunning, h.consumerRunning⟩
  obtain ⟨h', hh, hopen⟩ := h.sound.loaded hu
  exact ⟨h', hh, iff_of_true (hopen.mpr hs) hs'⟩

namespace At
variable {s₀ s s' : State} {p p' : ProducerStatus} {c : ConsumerStatus}

theorem here (h : At s₀ p c s) : Within s p s := .refl h.sound

theorem within (h : At s₀ p c s) (hw : Within s p s') : At s₀ p c s' :=
  ⟨hw.sound, hw.producer.trans h.producer, hw.consumer.trans h.consumer, hw.main ▸ h.left,
    hw.producerRunning.trans h.producerRunning, hw.consumerRunning.trans h.consumerRunning⟩

/-- The status follows the handle. -/
theorem producerStatusUpdate (h : At s₀ p c s) (hw : Within s p' s') :
    At s₀ p' c (s'.producerStatusUpdate p') :=
  ⟨⟨hw.sound.only, hw.sound.loaded, hw.sound.uses, hw.sound.bug⟩, rfl,
    hw.consumer.trans h.consumer, hw.main ▸ h.left,
    hw.producerRunning.trans h.producerRunning, hw.consumerRunning.trans h.consumerRunning⟩

theorem consumerStatusUpdate (h : At s₀ p c s) (c' : ConsumerStatus) :
    At s₀ p c' (s.consumerStatusUpdate c') :=
  ⟨⟨h.sound.only, h.sound.loaded, h.sound.uses, h.sound.bug⟩, h.producer, rfl, h.left,
    h.producerRunning, h.consumerRunning⟩

theorem goOn (h : At s₀ p c s) (hleft : s₀.main ≠ .left) {m : Main} (hm : m ≠ .left) :
    At s₀ p c {s with main := m} :=
  ⟨⟨h.sound.only, h.sound.loaded, h.sound.uses, h.sound.bug⟩, h.producer, h.consumer,
    iff_of_false hm hleft, h.producerRunning, h.consumerRunning⟩

theorem ask (h : At s₀ p c s) : At s₀ p c s.ask.2 := h.within h.here.ask

theorem playerError (h : At s₀ p c s) : At s₀ p c s.playerError := h.within h.here.playerError

theorem playerStatusChanged (h : At s₀ p c s) : At s₀ p c s.playerStatusChanged := h.playerError

theorem told_playerError (s : State) : s.playerError.Told := rfl

theorem status_ne_unloaded (h : At s₀ p c s) (hp : p ≠ .unloaded) :
    s.producerStatus ≠ .unloaded := by
  rw [h.producer]
  exact hp

theorem mayUse (h : At s₀ p c s) (hp : p ≠ .unloaded) (caller : Caller) :
    MayUse p caller s.producerStatus := ⟨hp, .inr (h.status_ne_unloaded hp)⟩

theorem prebuffer (h : At s₀ .playing c s) (htold : s.Told) :
    At s₀ .playing c s.prebuffer ∧ s.prebuffer.Told := by
  have hw := h.here.prebuffer h.producer
  exact ⟨h.within hw, hw.info htold⟩

/-! ### The producer -/

theorem producerPlay (h : At s₀ p c s) :
    ∃ p', At s₀ p' c s.producerPlay ∧ PlayLeads p p' ∧ (s.Told → s.producerPlay.Told) := by
  have hmay : ∀ phase, phase ≠ .unloaded → MayUse phase .producerPlay s.producerStatus :=
    fun phase hphase => ⟨hphase, .inl rfl⟩
  unfold State.producerPlay
  cases p with
  | unloaded =>
    rw [h.producer]
    dsimp only
    have hn := h.here.cmusGetNextTrack
    generalize s.cmusGetNextTrack = r at hn ⊢
    obtain ⟨_ | remote, s₁⟩ := r
    · exact ⟨.unloaded, h.within hn, .inr ⟨rfl, .inl rfl⟩, hn.info⟩
    -- the handle is ahead of the status until it is open, or deleted again
    have ho := (hn.ipNew remote).ipOpen (hmay _ nofun)
    dsimp only at ho ⊢
    generalize (s₁.ipNew remote).ipOpen .producerPlay = r at ho ⊢
    obtain ⟨rc, s₂⟩ := r
    dsimp only at ho ⊢
    by_cases hrc : rc = 0
    · rw [if_pos hrc] at ho
      rw [if_neg (not_not.mpr hrc)]
      exact ⟨.playing, h.producerStatusUpdate (ho.touch (hmay _ nofun)), .inl rfl,
        (ho.touch (hmay _ nofun)).info⟩
    · rw [if_neg hrc] at ho
      rw [if_pos hrc]
      have hd := (ho.playerIpError (hmay _ nofun)).ipDelete (hmay _ nofun)
      exact ⟨.unloaded, h.within hd, .inr ⟨rfl, .inl rfl⟩, hd.info⟩
  | stopped =>
    rw [h.producer]
    dsimp only
    have ho := h.here.ipOpen (hmay _ nofun)
    generalize s.ipOpen .producerPlay = r at ho ⊢
    obtain ⟨rc, s₁⟩ := r
    dsimp only at ho ⊢
    by_cases hrc : rc = 0
    · rw [if_pos hrc] at ho
      rw [if_neg (not_not.mpr hrc)]
      exact ⟨.playing, h.producerStatusUpdate (ho.touch (hmay _ nofun)), .inl rfl,
        (ho.touch (hmay _ nofun)).info⟩
    · rw [if_neg hrc] at ho
      rw [if_pos hrc]
      have hd := (ho.playerIpError (hmay _ nofun)).ipDelete (hmay _ nofun)
      exact ⟨.unloaded, h.producerStatusUpdate hd, .inr ⟨rfl, .inr rfl⟩, hd.info⟩
  | playing =>
    rw [h.producer]
    have hs := h.here.ipSeek (hmay _ nofun)
    exact ⟨.playing, h.within hs, .inl rfl, hs.info⟩
  | paused =>
    rw [h.producer]
    exact ⟨.playing, h.producerStatusUpdate (h.here.phase (.inl ⟨rfl, rfl⟩)), .inl rfl, id⟩

theorem producerStop (h : At s₀ p c s) :
    ∃ p', At s₀ p' c s.producerStop ∧ (p' = .stopped ∨ p' = .unloaded ∧ p = .unloaded) ∧
      (s.Told → s.producerStop.Told) := by
  have hmay := h.mayUse
  unfold State.producerStop
  rw [h.producer]
  cases p with
  | unloaded => exact ⟨.unloaded, h, .inr ⟨rfl, rfl⟩, id⟩
  | stopped => exact ⟨.stopped, h, .inl rfl, id⟩
  | playing =>
    have hc := h.here.ipClose (hmay nofun .producerStop)
    exact ⟨.stopped, h.producerStatusUpdate hc, .inl rfl, hc.info⟩
  | paused =>
    have hc := h.here.ipClose (hmay nofun .producerStop)
    exact ⟨.stopped, h.producerStatusUpdate hc, .inl rfl, hc.info⟩

theorem producerUnload (h : At s₀ p c s) :
    At s₀ .unloaded c s.producerUnload ∧ (s.Told → s.producerUnload.Told) := by
  obtain ⟨p', hs, rfl | ⟨rfl, -⟩, htold⟩ := h.producerStop
  · have hd := hs.here.ipDelete (hs.mayUse nofun .producerUnload)
    rw [State.producerUnload, if_pos hs.producer]
    exact ⟨hs.producerStatusUpdate hd, fun ht => hd.info (htold ht)⟩
  · rw [State.producerUnload, if_neg (by simp [hs.producer])]
    exact ⟨hs, htold⟩

theorem producerSetFile (h : At s₀ p c s) (remote : Bool) :
    At s₀ .stopped c (s.producerSetFile remote) ∧ (s.Told → (s.producerSetFile remote).Told) := by
  obtain ⟨hu, htold⟩ := h.producerUnload
  exact ⟨hu.producerStatusUpdate (hu.here.ipNew remote), htold⟩

theorem producerPause (h : At s₀ p c s) :
    At s₀ (if p = .playing then .paused else if p = .paused then .playing else p) c
      s.producerPause := by
  unfold State.producerPause
  rw [h.producer]
  cases p with
  | playing => exact h.producerStatusUpdate (h.here.phase (.inr ⟨rfl, rfl⟩))
  | paused => exact h.producerStatusUpdate (h.here.phase (.inl ⟨rfl, rfl⟩))
  | _ => exact h

/-! ### The consumer -/

theorem infoStatus_ipGet (caller : Caller) (s : State) :
    (s.ipGet caller).2.infoStatus = s.infoStatus := rfl

theorem infoStatus_setBufferSf (s : State) : s.setBufferSf.infoStatus = s.infoStatus := by
  rw [State.setBufferSf, infoStatus_ipGet, infoStatus_ipGet]

theorem consumerPlay (h : At s₀ .playing c s) :
    ∃ c', At s₀ .playing c' s.consumerPlay ∧
      (c' = .playing ∧ s.consumerPlay.infoStatus = s.infoStatus ∨
        c' = .stopped ∧ s.consumerPlay.Told) := by
  unfold State.consumerPlay
  cases c with
  | playing =>
    rw [h.consumer]
    exact ⟨.playing, h, .inl ⟨rfl, rfl⟩⟩
  | paused =>
    rw [h.consumer]
    exact ⟨.playing, h.consumerStatusUpdate _, .inl ⟨rfl, rfl⟩⟩
  | stopped =>
    rw [h.consumer]
    dsimp only
    have hb := (h.within (h.here.setBufferSf nofun (h.status_ne_unloaded nofun) nofun)).ask
    split
    · exact ⟨.stopped, hb.playerError, .inr ⟨rfl, told_playerError _⟩⟩
    · exact ⟨.playing, hb.consumerStatusUpdate _, .inl ⟨rfl, infoStatus_setBufferSf s⟩⟩

theorem consumerStop (h : At s₀ p c s) : At s₀ p .stopped s.consumerStop := by
  unfold State.consumerStop
  rw [h.consumer]
  cases c with
  | stopped => exact h
  | _ => exact h.consumerStatusUpdate _

theorem consumerPause (h : At s₀ p c s) :
    At s₀ p (if c = .playing then .paused else if c = .paused then .playing else c)
      s.consumerPause := by
  unfold State.consumerPause
  rw [h.consumer]
  cases c with
  | stopped => exact h
  | _ => exact h.consumerStatusUpdate _

theorem changeSf (h : At s₀ .playing c s) :
    s.changeSf.1 = false ∧ At s₀ .playing .playing s.changeSf.2 ∨
      s.changeSf.1 = true ∧ At s₀ .stopped .stopped s.changeSf.2 := by
  have hb := h.within (h.here.setBufferSf nofun (h.status_ne_unloaded nofun) nofun)
  unfold State.changeSf
  dsimp only
  split
  · split
    · obtain ⟨p', hs, rfl | ⟨-, hp⟩, -⟩ :=
        (hb.ask.ask.playerError.consumerStatusUpdate .stopped).producerStop
      · exact .inr ⟨rfl, hs⟩
      · cases hp
    · exact .inl ⟨rfl, hb.ask.ask.consumerStatusUpdate _⟩
  · exact .inl ⟨rfl, hb.ask.consumerStatusUpdate _⟩

end At

end GracefulMusic.Player
