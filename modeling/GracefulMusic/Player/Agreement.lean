import GracefulMusic.Player.Status

/-! Producer, consumer and `player_info_priv` agree after every operation.

An operation begins where the two statuses agree. Whatever fails in it, it takes both to
statuses that agree again, and reports the consumer's (`Lands`). -/
namespace GracefulMusic.Player

/-- What the status of the consumer says about the producer's. -/
def Agree (p : ProducerStatus) : ConsumerStatus → Prop
  | .stopped => p ≠ .paused
  | .playing => p = .playing
  | .paused => p = .paused

/-- Where the consumer does not stand still, the producer has an open handle. -/
theorem Agree.opened {p : ProducerStatus} {c : ConsumerStatus} (h : Agree p c)
    (hc : c ≠ .stopped) : p ≠ .unloaded ∧ p ≠ .stopped := by
  cases c with
  | stopped => exact absurd rfl hc
  | playing =>
    rw [show p = .playing from h]
    exact ⟨nofun, nofun⟩
  | paused =>
    rw [show p = .paused from h]
    exact ⟨nofun, nofun⟩

/-- From one state to another where the statuses agree. -/
def Meets (s₀ s : State) : Prop := ∃ p c, At s₀ p c s ∧ Agree p c

/-- They agree, and it is known. -/
def Lands (s₀ s : State) : Prop := Meets s₀ s ∧ s.Told

namespace Meets
variable {s₀ s : State}

theorem told (h : Meets s₀ s) : Lands s₀ s.playerStatusChanged := by
  obtain ⟨p, c, hat, hagree⟩ := h
  exact ⟨⟨p, c, hat.playerStatusChanged, hagree⟩, rfl⟩

end Meets

namespace Lands
variable {s₀ s s' : State}

theorem within (h : Lands s₀ s) (hw : ∀ p, Sound p s → s.producerStatus = p → Within s p s') :
    Lands s₀ s' := by
  obtain ⟨⟨p, c, hat, hagree⟩, htold⟩ := h
  have hw := hw p hat.sound hat.producer
  exact ⟨⟨p, c, hat.within hw, hagree⟩, hw.info htold⟩

theorem prebuffer (h : Lands s₀ s) (hplaying : s.producerStatus = .playing) :
    Lands s₀ s.prebuffer := by
  refine h.within fun p hsound hp => ?_
  obtain rfl := hplaying.symm.trans hp
  exact (Within.refl hsound).prebuffer hp

theorem prebuffer_of_consumer (h : Lands s₀ s) (hplaying : s.consumerStatus = .playing) :
    Lands s₀ s.prebuffer := by
  obtain ⟨⟨p, c, hat, hagree⟩, -⟩ := id h
  obtain rfl := hplaying.symm.trans hat.consumer
  exact h.prebuffer (hat.producer.trans hagree)

end Lands

theorem Meets.prebuffer {s₀ s : State} (h : Meets s₀ s) (cond : Prop) [Decidable cond]
    (hcond : cond → s.consumerStatus = .playing) :
    Lands s₀ (if cond then s.playerStatusChanged.prebuffer else s.playerStatusChanged) := by
  split
  · rename_i h'
    exact h.told.prebuffer_of_consumer (hcond h')
  · exact h.told

namespace At
variable {s₀ s : State} {p : ProducerStatus} {c : ConsumerStatus}

theorem not_stopped (h : At s₀ p c s)
    (hplaying : s.consumerStatus = .playing ∨ s.consumerStatus = .paused) : c ≠ .stopped := by
  intro heq
  subst heq
  rw [h.consumer] at hplaying
  rcases hplaying with h | h <;> cases h

/-- The consumer begins to play, or the producer stops as well. -/
theorem consumerPlay_or_stop (h : At s₀ .playing c s) :
    Meets s₀ (if s.consumerPlay.consumerStatus ≠ .playing then s.consumerPlay.producerStop
      else s.consumerPlay) := by
  obtain ⟨c', hc, ⟨rfl, -⟩ | ⟨rfl, -⟩⟩ := h.consumerPlay
  · rw [if_neg (not_not.mpr hc.consumer)]
    exact ⟨_, _, hc, rfl⟩
  · rw [if_pos (by simp [hc.consumer])]
    obtain ⟨p', hs, rfl | ⟨rfl, -⟩, -⟩ := hc.producerStop
    · exact ⟨_, _, hs, nofun⟩
    · exact ⟨_, _, hs, nofun⟩

theorem meets_unloaded (h : At s₀ .unloaded c s) : Meets s₀ s.consumerStop :=
  ⟨_, _, h.consumerStop, nofun⟩

theorem meets_changeSf (h : At s₀ .playing c s) : Meets s₀ s.changeSf.2 := by
  obtain ⟨-, h⟩ | ⟨-, h⟩ := h.changeSf
  · exact ⟨_, _, h, rfl⟩
  · exact ⟨_, _, h, nofun⟩

theorem meets_stop (h : At s₀ p c s) : Meets s₀ s.producerStop.consumerStop := by
  obtain ⟨p', hs, rfl | ⟨rfl, -⟩, -⟩ := h.producerStop
  · exact ⟨_, _, hs.consumerStop, nofun⟩
  · exact ⟨_, _, hs.consumerStop, nofun⟩

/-! ### Operations -/

theorem playerStop (h : At s₀ p c s) : Lands s₀ s.playerStop := by
  obtain ⟨p', hs, rfl | ⟨rfl, -⟩, -⟩ := h.consumerStop.producerStop
  · exact Meets.told ⟨_, _, hs, nofun⟩
  · exact Meets.told ⟨_, _, hs, nofun⟩

theorem playerSetBufferChunks (h : At s₀ p c s) : Lands s₀ s.playerSetBufferChunks :=
  h.meets_stop.told

theorem playerPlay (h : At s₀ p c s) (hagree : Agree p c) (htold : s.Told) :
    Lands s₀ s.playerPlay := by
  unfold State.playerPlay
  have hr : At s₀ p c (if s.producerStatus = .playing then s.ipIsRemote .playerPlay
      else (false, s)).2 ∧ (if s.producerStatus = .playing then s.ipIsRemote .playerPlay
      else (false, s)).2.Told := by
    split
    · rename_i hplaying
      obtain rfl := h.producer.symm.trans hplaying
      have hw := h.here.ipIsRemote (h.mayUse nofun .playerPlay)
      exact ⟨h.within hw, hw.info htold⟩
    · exact ⟨h, htold⟩
  generalize (if s.producerStatus = .playing then s.ipIsRemote .playerPlay else (false, s)) = r
    at hr ⊢
  obtain ⟨remote, s₁⟩ := r
  obtain ⟨h₁, htold₁⟩ := hr
  dsimp only at h₁ htold₁ ⊢
  split
  · exact ⟨⟨p, c, h₁, hagree⟩, htold₁⟩
  have hmeets : Meets s₀ (if s₁.producerPlay.producerStatus = .playing then
      if s₁.producerPlay.consumerPlay.consumerStatus ≠ .playing then
        s₁.producerPlay.consumerPlay.producerStop else s₁.producerPlay.consumerPlay
      else s₁.producerPlay.consumerStop) := by
    obtain ⟨p', hp, rfl | ⟨rfl, -⟩, -⟩ := h₁.producerPlay
    · rw [if_pos hp.producer]
      exact hp.consumerPlay_or_stop
    · rw [if_neg (by simp [hp.producer])]
      exact hp.meets_unloaded
  exact hmeets.prebuffer _ And.left

theorem playerPauseRest (h : At s₀ p c s) (hagree : Agree p c) : Lands s₀ s.playerPauseRest := by
  unfold State.playerPauseRest
  dsimp only
  split
  · rename_i hstopped
    obtain rfl := h.consumer.symm.trans hstopped
    have hmeets : Meets s₀ (if s.producerPlay.producerStatus = .playing then
        if s.producerPlay.consumerPlay.consumerStatus ≠ .playing then
          s.producerPlay.consumerPlay.producerStop else s.producerPlay.consumerPlay
        else s.producerPlay) := by
      obtain ⟨p', hp, rfl | ⟨rfl, -⟩, -⟩ := h.producerPlay
      · rw [if_pos hp.producer]
        exact hp.consumerPlay_or_stop
      · rw [if_neg (by simp [hp.producer])]
        exact ⟨_, _, hp, nofun⟩
    exact hmeets.prebuffer _ id
  · rename_i hstopped
    have hboth := h.producerPause.consumerPause
    cases c with
    | stopped => exact absurd h.consumer hstopped
    | playing =>
      obtain rfl := hagree
      exact Meets.told ⟨_, _, hboth, rfl⟩
    | paused =>
      obtain rfl := hagree
      exact Meets.told ⟨_, _, hboth, rfl⟩

theorem fileSet (h : Meets s₀ s) : Lands s₀ s.fileSet := by
  unfold State.fileSet
  dsimp only
  split
  · rename_i hplaying
    exact h.told.prebuffer hplaying
  · exact h.told

theorem playerSetFile (h : At s₀ p c s) (remote : Bool) : Lands s₀ (s.playerSetFile remote) := by
  obtain ⟨hs, -⟩ := h.producerSetFile remote
  unfold State.playerSetFile
  dsimp only
  rw [if_neg (by simp [hs.producer])]
  split
  · obtain ⟨p', hp, rfl | ⟨rfl, -⟩, -⟩ := hs.producerPlay
    · rw [if_neg (by simp [hp.producer])]
      exact fileSet hp.meets_changeSf
    · rw [if_pos hp.producer]
      exact fileSet hp.meets_unloaded
  · rename_i hc
    rw [hs.consumer] at hc
    cases c with
    | stopped => exact fileSet ⟨_, _, hs, nofun⟩
    | playing => exact absurd (.inl rfl) hc
    | paused => exact absurd (.inr rfl) hc

theorem playerPlayFile (h : At s₀ p c s) (remote : Bool) : Lands s₀ (s.playerPlayFile remote) := by
  obtain ⟨hs, -⟩ := h.producerSetFile remote
  unfold State.playerPlayFile
  dsimp only
  rw [if_neg (by simp [hs.producer])]
  obtain ⟨p', hp, rfl | ⟨rfl, -⟩, -⟩ := hs.producerPlay
  · rw [if_neg (by simp [hp.producer])]
    split
    · obtain ⟨c', hc, ⟨rfl, -⟩ | ⟨rfl, -⟩⟩ := hp.consumerPlay
      · rw [if_neg (by simp [hc.consumer])]
        exact fileSet ⟨_, _, hc, rfl⟩
      · rw [if_pos hc.consumer]
        obtain ⟨p', hs, rfl | ⟨rfl, -⟩, -⟩ := hc.producerStop
        · exact fileSet ⟨_, _, hs, nofun⟩
        · exact fileSet ⟨_, _, hs, nofun⟩
    · exact fileSet hp.meets_changeSf
  · rw [if_pos hp.producer]
    exact fileSet hp.meets_unloaded

theorem seekTo (h : At s₀ p c s) (hagree : Agree p c) (htold : s.Told) (hc : c ≠ .stopped)
    (stopped startPlaying : Bool) : Lands s₀ (s.seekTo stopped startPlaying) := by
  have hp := (hagree.opened hc).1
  have hmay := h.mayUse hp .playerSeek
  have hne := h.status_ne_unloaded hp
  have hw := h.here.ipSeek hmay
  unfold State.seekTo
  generalize s.ipSeek .playerSeek = r at hw ⊢
  obtain ⟨rc, s₁⟩ := r
  dsimp only at hw ⊢
  split
  · have hu := hw.consumerPositionUpdate hp hne
    split
    · have hboth := (h.within hu).producerPause.consumerPause
      cases c with
      | stopped => exact absurd rfl hc
      | playing =>
        obtain rfl := hagree
        exact Meets.told ⟨_, _, hboth, rfl⟩
      | paused =>
        obtain rfl := hagree
        exact Meets.told ⟨_, _, hboth, rfl⟩
    · exact ⟨⟨p, c, h.within hu, hagree⟩, hu.info htold⟩
  · have he := hw.playerIpError hmay
    exact ⟨⟨p, c, h.within he, hagree⟩, he.info htold⟩

theorem seek (h : At s₀ p c s) (hagree : Agree p c) (htold : s.Told) (hleft : s₀.main ≠ .left)
    (relative stopped startPlaying : Bool) : Lands s₀ (s.seek relative stopped startPlaying) := by
  unfold State.seek
  split
  · rename_i hplaying
    have hc := h.not_stopped hplaying
    have hp := (hagree.opened hc).1
    have hd := h.here.ipAsk (h.mayUse hp .playerSeek)
    generalize s.ipAsk .playerSeek = r at hd ⊢
    obtain ⟨duration, s₁⟩ := r
    dsimp only at hd ⊢
    split
    · exact ⟨⟨p, c, h.within hd, hagree⟩, hd.info htold⟩
    have hpast : Within s p (if relative then s₁.ask else (0, s₁)).2 := by
      split
      · exact hd.ask
      · exact hd
    generalize (if relative then s₁.ask else (0, s₁)) = r at hpast ⊢
    obtain ⟨past, s₂⟩ := r
    dsimp only at hpast ⊢
    split
    · exact ⟨⟨p, c, (h.within hpast).goOn hleft nofun, hagree⟩, hpast.info htold⟩
    split
    · exact ⟨⟨p, c, h.within hpast.ask, hagree⟩, hpast.ask.info htold⟩
    · exact (h.within hpast.ask).seekTo hagree (hpast.ask.info htold) hc stopped startPlaying
  · exact ⟨⟨p, c, h, hagree⟩, htold⟩

theorem playerSeek (h : At s₀ p c s) (hagree : Agree p c) (htold : s.Told)
    (hleft : s₀.main ≠ .left) (relative startPlaying : Bool) :
    Lands s₀ (s.playerSeek relative startPlaying) := by
  unfold State.playerSeek
  dsimp only
  split
  · rename_i hstopped
    obtain rfl := h.consumer.symm.trans hstopped
    obtain ⟨p', hp, rfl | ⟨rfl, -⟩, htold'⟩ := h.producerPlay
    · rw [if_pos hp.producer]
      obtain ⟨c', hc, ⟨rfl, -⟩ | ⟨rfl, hknown⟩⟩ := hp.consumerPlay
      · rw [if_neg (by simp [hc.consumer])]
        exact hc.playerStatusChanged.seek rfl rfl hleft relative true startPlaying
      · rw [if_pos (by simp [hc.consumer])]
        obtain ⟨p', hs, rfl | ⟨rfl, -⟩, htold''⟩ := hc.producerStop
        · exact ⟨⟨_, _, hs, nofun⟩, htold'' hknown⟩
        · exact ⟨⟨_, _, hs, nofun⟩, htold'' hknown⟩
    · rw [if_neg (by simp [hp.producer])]
      exact hp.seek nofun (htold' htold) hleft relative true startPlaying
  · exact h.seek hagree htold hleft relative false startPlaying

theorem cmusNext (h : At s₀ p c s) (hagree : Agree p c) (htold : s.Told) : Lands s₀ s.cmusNext := by
  have hn := h.here.cmusGetNextTrack
  unfold State.cmusNext
  generalize s.cmusGetNextTrack = r at hn ⊢
  obtain ⟨_ | remote, s₁⟩ := r
  · exact ⟨⟨p, c, h.within hn, hagree⟩, hn.info htold⟩
  · exact (h.within hn).playerSetFile remote

theorem playerSetOp (h : At s₀ p c s) (hagree : Agree p c) (htold : s.Told) :
    Lands s₀ s.playerSetOp := by
  unfold State.playerSetOp
  dsimp only
  split
  · rename_i hplaying
    have hp := hagree.opened (h.not_stopped hplaying)
    have hb := (h.here.setBufferSf hp.1 (h.status_ne_unloaded hp.1) hp.2).ask
    split
    · obtain ⟨p', hs, rfl | ⟨-, hu⟩, -⟩ :=
        ((h.within hb).consumerStatusUpdate .stopped).producerStop
      · exact ⟨⟨_, _, hs.playerError, nofun⟩, told_playerError _⟩
      · exact absurd hu hp.1
    · exact ⟨⟨p, c, h.within hb, hagree⟩, hb.info htold⟩
  · exact ⟨⟨p, c, h, hagree⟩, htold⟩

/-! ### The two threads -/

/-- The end of `_consumer_handle_eof` where a next file is set. -/
theorem playNext (h : At s₀ .stopped c s) (cont : Prop) [Decidable cont] :
    Meets s₀ (if cont then
      if s.producerPlay.producerStatus = .unloaded then s.producerPlay.consumerStop
      else if s.producerPlay.changeSf.1 then s.producerPlay.changeSf.2
      else s.producerPlay.changeSf.2.prebuffer
      else s.consumerStop) := by
  split
  · obtain ⟨p', hp, rfl | ⟨rfl, -⟩, -⟩ := h.producerPlay
    · rw [if_neg (by simp [hp.producer])]
      obtain ⟨hfailed, hc⟩ | ⟨hfailed, hc⟩ := hp.changeSf
      · rw [hfailed]
        exact ⟨_, _, hc.within (hc.here.prebuffer hc.producer), rfl⟩
      · rw [if_pos hfailed]
        exact ⟨_, _, hc, nofun⟩
    · rw [if_pos hp.producer]
      exact hp.meets_unloaded
  · exact ⟨_, _, h.consumerStop, nofun⟩

theorem consumerHandleEof (h : At s₀ .playing .playing s) : Lands s₀ s.consumerHandleEof := by
  have hr := h.here.ipIsRemote (h.mayUse nofun .consumerHandleEof)
  unfold State.consumerHandleEof
  generalize s.ipIsRemote .consumerHandleEof = r at hr ⊢
  obtain ⟨remote, s₁⟩ := r
  dsimp only at hr ⊢
  have h₁ := h.within hr
  split
  · exact h₁.meets_stop.told
  split
  · have hmeets : Meets s₀ (if s₁.ask.2.ask.1 ≠ 0 then
        (s₁.ask.2.ask.2.ipSeek .consumerHandleEof).2
        else s₁.ask.2.ask.2.producerStop.consumerStop) := by
      split
      · exact ⟨_, _, h.within (hr.ask.ask.ipSeek (h.mayUse nofun .consumerHandleEof)), rfl⟩
      · exact (h.within hr.ask.ask).meets_stop
    exact hmeets.told
  · have hn := h.within hr.ask.cmusGetNextTrack
    generalize s₁.ask.2.cmusGetNextTrack = r at hn ⊢
    obtain ⟨_ | remote, s₂⟩ := r
    · exact hn.producerUnload.1.meets_unloaded.told
    · have hu := hn.producerUnload.1
      have hs := hu.producerStatusUpdate (hu.here.ipNew remote)
      exact (hs.ask.playNext _).told

theorem reopen (h : At s₀ .playing .playing s) (htold : s.Told) : Lands s₀ s.reopen := by
  obtain ⟨c', hc, ⟨rfl, hinfo⟩ | ⟨rfl, hknown⟩⟩ :=
    (h.consumerStatusUpdate .stopped).consumerPlay
  · refine ⟨⟨_, _, hc, rfl⟩, ?_⟩
    calc s.reopen.infoStatus = s.infoStatus := hinfo
      _ = s.consumerStatus := htold
      _ = s.reopen.consumerStatus := h.consumer.trans hc.consumer.symm
  · exact ⟨⟨_, _, hc, nofun⟩, hknown⟩

theorem consumerInner (h : At s₀ .playing .playing s) (htold : s.Told) (fuel : Nat) :
    Lands s₀ (State.consumerInner fuel s) := by
  induction fuel generalizing s with
  | zero => exact ⟨⟨_, _, h, rfl⟩, htold⟩
  | succ fuel ih =>
    have hlands : ∀ t, Within s .playing t → Lands s₀ t := fun t ht =>
      ⟨⟨_, _, h.within ht, rfl⟩, ht.info htold⟩
    have hne := h.status_ne_unloaded nofun
    unfold State.consumerInner
    dsimp only
    split
    · exact hlands _ (h.here.ask.consumerPositionUpdate nofun hne)
    split
    · exact hlands _ h.here.ask.ask
    have hsize : Within s .playing (if s.ask.2.ask.1 = 0 then s.ask.2.ask.2.ask
        else (s.ask.2.ask.1, s.ask.2.ask.2)).2 := by
      split
      · exact h.here.ask.ask.ask
      · exact h.here.ask.ask
    generalize (if s.ask.2.ask.1 = 0 then s.ask.2.ask.2.ask
      else (s.ask.2.ask.1, s.ask.2.ask.2)) = r at hsize ⊢
    obtain ⟨size, s₁⟩ := r
    dsimp only at hsize ⊢
    split
    · have he := hsize.ipEof (h.mayUse nofun .consumerLoop) nofun
      generalize s₁.ipEof .consumerLoop = r at he ⊢
      obtain ⟨eof, s₂⟩ := r
      dsimp only at he ⊢
      split
      · exact (h.within he).consumerHandleEof
      · exact hlands _ (he.consumerPositionUpdate nofun hne)
    split
    · exact (h.within hsize.ask).reopen (hsize.ask.info htold)
    · exact ih (h.within hsize.ask) (hsize.ask.info htold)

theorem consumerLoop (h : At s₀ p c s) (hagree : Agree p c) (htold : s.Told)
    (hrunning : s.consumerRunning = true) : Lands s₀ s.consumerLoop := by
  unfold State.consumerLoop
  rw [if_neg (by simp [hrunning])]
  split
  · exact ⟨⟨p, c, h, hagree⟩, htold⟩
  rename_i hc
  rw [h.consumer] at hc
  cases c with
  | stopped => exact absurd (.inr rfl) hc
  | paused => exact absurd (.inl rfl) hc
  | playing =>
    obtain rfl := hagree
    have ha := h.within h.here.ask
    dsimp only
    split
    · exact ha.reopen htold
    · exact ha.consumerInner htold _

theorem producerLoop (h : At s₀ p c s) (hagree : Agree p c) (htold : s.Told)
    (hrunning : s.producerRunning = true) : Lands s₀ s.producerLoop := by
  unfold State.producerLoop
  rw [if_neg (by simp [hrunning])]
  split
  · exact ⟨⟨p, c, h, hagree⟩, htold⟩
  rename_i hplaying
  obtain rfl := h.producer.symm.trans (not_not.mp hplaying)
  have hlands : ∀ t, Within s .playing t → Lands s₀ t := fun t ht =>
    ⟨⟨_, c, h.within ht, hagree⟩, ht.info htold⟩
  have he := h.here.ipEof (h.mayUse nofun .producerLoop) nofun
  generalize s.ipEof .producerLoop = r at he ⊢
  obtain ⟨eof, s₁⟩ := r
  dsimp only at he ⊢
  split
  · exact hlands _ he
  · exact hlands _ (he.producerInner (h.status_ne_unloaded nofun) 2)

end At

end GracefulMusic.Player
