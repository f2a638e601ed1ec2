import GracefulMusic.Player.Agreement

/-! Runs of the player, in any order and with any outcomes.

What holds between the steps is `Inv`: the handle is as the producer's status says, and
until the player exits the statuses agree. The two results read it off the end of a run. -/
namespace GracefulMusic.Player

structure Inv (s : State) : Prop where
  sound : Sound s.producerStatus s
  agree : s.main ≠ .left → Agree s.producerStatus s.consumerStatus
  told : s.main ≠ .left → s.Told
  running : s.main ≠ .left → s.producerRunning = true ∧ s.consumerRunning = true
  ended : s.main = .left → s.producerRunning = false ∧ s.consumerRunning = false

namespace Inv
variable {s s' : State}

theorem init : Inv init where
  sound := ⟨nofun, fun h => absurd rfl h, nofun, rfl⟩
  agree _ := nofun
  told _ := rfl
  running _ := ⟨rfl, rfl⟩
  ended := nofun

theorem outcomes (h : Inv s) (outcomes : List Int) : Inv {s with outcomes := outcomes} :=
  ⟨⟨h.sound.only, h.sound.loaded, h.sound.uses, h.sound.bug⟩, h.agree, h.told, h.running, h.ended⟩

theorem here (h : Inv s) : At s s.producerStatus s.consumerStatus s :=
  ⟨h.sound, rfl, rfl, Iff.rfl, rfl, rfl⟩

theorem lands (h : Inv s) (hlands : Lands s s') (hleft : s.main ≠ .left) : Inv s' := by
  obtain ⟨⟨p, c, hat, hagree⟩, htold⟩ := hlands
  obtain ⟨hp, hc⟩ := h.running hleft
  refine ⟨?_, fun _ => ?_, fun _ => htold, fun _ => ?_, fun h => absurd (hat.left.mp h) hleft⟩
  · rw [hat.producer]
    exact hat.sound
  · rw [hat.producer, hat.consumer]
    exact hagree
  · rw [hat.producerRunning, hat.consumerRunning]
    exact ⟨hp, hc⟩

/-- After the exit it is only the handle that matters. -/
theorem at_end {p : ProducerStatus} {c : ConsumerStatus} (h : Inv s) (hat : At s p c s')
    (hleft : s.main = .left) : Inv s' := by
  refine ⟨?_, fun hne => absurd (hat.left.mpr hleft) hne, fun hne => absurd (hat.left.mpr hleft) hne,
    fun hne => absurd (hat.left.mpr hleft) hne, fun _ => ?_⟩
  · rw [hat.producer]
    exact hat.sound
  · rw [hat.producerRunning, hat.consumerRunning]
    exact h.ended hleft

/-- The test of `player_pause` changes nothing; but the handle may be deleted. -/
theorem playerPause (h : Inv s) (hleft : s.main ≠ .left) : Inv s.playerPause := by
  have hat := h.here
  have hgood : (⟨.playerPause, s.handle.isSome, s.producerStatus⟩ : Use).Good := h.sound.isSome_iff
  have htouch : Within s s.producerStatus (s.touch .playerPause) :=
    ⟨h.sound.touch hgood, rfl, rfl, id, rfl, rfl, rfl⟩
  have hr : Within s s.producerStatus
      (if s.ip.isSome then s.ipIsRemote .playerPause else (false, s)).2 := by
    split
    · unfold State.ipIsRemote
      dsimp only
      split
      · exact htouch
      · exact htouch.ask
    · exact .refl h.sound
  unfold State.playerPause
  generalize (if s.ip.isSome then s.ipIsRemote .playerPause else (false, s)) = r at hr ⊢
  obtain ⟨remote, s₁⟩ := r
  dsimp only at hr ⊢
  have hm : ∀ m, m ≠ Main.left → Inv {s₁ with main := m} := fun m hm =>
    h.lands ⟨⟨_, _, (hat.within hr).goOn hleft hm, h.agree hleft⟩, hr.info (h.told hleft)⟩ hleft
  split
  · exact hm _ nofun
  · exact hm _ nofun

theorem goOn (h : Inv s) (hleft : s.main ≠ .left) : Inv s.goOn := by
  have hat := h.here.goOn hleft (show Main.idle ≠ .left from nofun)
  have hagree := h.agree hleft
  have htold := h.told hleft
  unfold State.goOn
  dsimp only
  split
  · exact h.playerPause hleft
  · exact h.lands hat.playerStop hleft
  · exact h.lands (hat.playerPauseRest hagree) hleft
  · exact h.lands (hat.cmusNext hagree htold) hleft
  · exact h

theorem exec (h : Inv s) {op : Op} (hready : op.Ready s) : Inv (op.exec s) := by
  have hat := h.here
  have hidle : ∀ m, s.main = m → m ≠ .left → s.main ≠ .left := by
    rintro m rfl hm
    exact hm
  cases op with
  | play =>
    have hleft := hidle _ hready nofun
    exact h.lands (hat.playerPlay (h.agree hleft) (h.told hleft)) hleft
  | stop => exact h.lands hat.playerStop (hidle _ hready nofun)
  | pause => exact h.playerPause (hidle _ hready nofun)
  | pausePlayback =>
    have hleft := hidle _ hready nofun
    show Inv s.playerPausePlayback
    unfold State.playerPausePlayback
    split
    · exact h.lands ⟨⟨_, _, hat.goOn hleft nofun, h.agree hleft⟩, h.told hleft⟩ hleft
    · exact h
  | seek relative startPlaying =>
    have hleft := hidle _ hready nofun
    exact h.lands (hat.playerSeek (h.agree hleft) (h.told hleft) hleft relative startPlaying) hleft
  | setFile remote => exact h.lands (hat.playerSetFile remote) (hidle _ hready nofun)
  | playFile remote => exact h.lands (hat.playerPlayFile remote) (hidle _ hready nofun)
  | setOp =>
    have hleft := hidle _ hready nofun
    exact h.lands (hat.playerSetOp (h.agree hleft) (h.told hleft)) hleft
  | setBufferChunks => exact h.lands hat.playerSetBufferChunks (hidle _ hready nofun)
  | exit =>
    exact ⟨⟨h.sound.only, h.sound.loaded, h.sound.uses, h.sound.bug⟩, fun hne => absurd rfl hne,
      fun hne => absurd rfl hne, fun hne => absurd rfl hne, fun _ => ⟨rfl, rfl⟩⟩
  | goOn => exact h.goOn hready.2
  | consumerLoop =>
    by_cases hleft : s.main = .left
    · have hstop : At s s.producerStatus .stopped s.consumerLoop := by
        rw [State.consumerLoop, if_pos (by simp [(h.ended hleft).2])]
        exact hat.consumerStop
      exact h.at_end hstop hleft
    · exact h.lands (hat.consumerLoop (h.agree hleft) (h.told hleft) (h.running hleft).2) hleft
  | producerLoop =>
    by_cases hleft : s.main = .left
    · have hunload : At s .unloaded s.consumerStatus s.producerLoop := by
        rw [State.producerLoop, if_pos (by simp [(h.ended hleft).1])]
        exact hat.producerUnload.1
      exact h.at_end hunload hleft
    · exact h.lands (hat.producerLoop (h.agree hleft) (h.told hleft) (h.running hleft).1) hleft

theorem step (h : Inv s) {op : Op × List Int} (hstep : step s op = some s') : Inv s' := by
  unfold Player.step at hstep
  split at hstep
  · rename_i hready
    cases hstep
    exact (h.outcomes op.2).exec (by obtain ⟨op, outcomes⟩ := op; cases op <;> exact hready)
  · cases hstep

theorem run (history : List (Op × List Int))
    (hrun : Runs.run Player.step Player.init history = some s) : Inv s :=
  Runs.run_preserves (fun _ _ _ h hstep => Inv.step h hstep) _ _ history .init hrun

end Inv

/-! ### The statuses -/

/-- **Until the player exits the two sides agree**: where the consumer plays or is paused
so does the producer, with an open handle; only both are paused; and `player_info_priv`
has the consumer's status. -/
theorem player_statuses_agree (history : List (Op × List Int)) (s : State)
    (hrun : Runs.run step init history = some s) (hleft : s.main ≠ .left) :
    (s.consumerStatus = .playing ∨ s.consumerStatus = .paused →
      (s.producerStatus = .playing ∨ s.producerStatus = .paused) ∧
        ∃ h, s.handle = some h ∧ h.isOpen = true) ∧
    (s.producerStatus = .paused ↔ s.consumerStatus = .paused) ∧
    s.infoStatus = s.consumerStatus := by
  have h := Inv.run history hrun
  have hagree := h.agree hleft
  refine ⟨fun hc => ?_, ?_, h.told hleft⟩
  · obtain ⟨hu, hs⟩ := hagree.opened (h.here.not_stopped hc)
    obtain ⟨h', hh, hopen⟩ := h.sound.loaded hu
    refine ⟨?_, h', hh, hopen.mpr hs⟩
    rcases hc with hc | hc
    · rw [hc] at hagree
      exact .inl hagree
    · rw [hc] at hagree
      exact .inr hagree
  · cases hc : s.consumerStatus with
    | stopped =>
      rw [hc] at hagree
      exact iff_of_false hagree nofun
    | playing =>
      rw [hc] at hagree
      rw [show s.producerStatus = .playing from hagree]
      exact iff_of_false nofun nofun
    | paused =>
      rw [hc] at hagree
      exact iff_of_true hagree rfl

theorem player_statuses_agree_paused :
    ∃ s, Runs.run step init [(.play, [1, 0]), (.pause, []), (.goOn, [])] = some s ∧
      s.consumerStatus = .paused ∧ s.producerStatus = .paused ∧
        ∃ h, s.handle = some h ∧ h.isOpen = true := by
  obtain ⟨s, hs, hcheck⟩ := (Option.any_eq_true _ _).mp (show (Runs.run step init
    [(.play, [1, 0]), (.pause, []), (.goOn, [])]).any (fun s =>
      decide (s.consumerStatus = .paused) && decide (s.main ≠ .left)) = true by decide +kernel)
  simp only [Bool.and_eq_true, decide_eq_true_eq] at hcheck
  have h := player_statuses_agree _ s hs hcheck.2
  exact ⟨s, hs, hcheck.1, h.2.1.mpr hcheck.1, (h.1 (.inr hcheck.1)).2⟩

/-! ### The handle -/

/-- **Every use of the handle finds it**, but for the test of `player_pause`; and the
producer is not unloaded then, unless it is `_producer_play` that opens a new one. -/
theorem handle_uses_live (history : List (Op × List Int)) (s : State)
    (hrun : Runs.run step init history = some s) (u : Use) (hu : u ∈ s.uses)
    (hcaller : u.caller ≠ .playerPause) :
    u.live = true ∧ (u.status ≠ .unloaded ∨ u.caller = .producerPlay) := by
  have hgood := (Inv.run history hrun).sound.uses u hu
  obtain ⟨caller, live, status⟩ := u
  cases caller with
  | playerPause => exact absurd rfl hcaller
  | producerPlay => exact ⟨hgood, .inr rfl⟩
  | _ => exact ⟨hgood.1, .inl hgood.2⟩

theorem handle_uses_live_play :
    ∃ s, Runs.run step init [(.play, [1, 0])] = some s ∧ ∃ u ∈ s.uses, u.caller ≠ .playerPause ∧
      u.live = true ∧ (u.status ≠ .unloaded ∨ u.caller = .producerPlay) := by
  obtain ⟨s, hs, hcheck⟩ := (Option.any_eq_true _ _).mp (show (Runs.run step init
    [(.play, [1, 0])]).any (fun s => s.uses.any (fun u => decide (u.caller ≠ .playerPause))) = true
    by decide +kernel)
  simp only [List.any_eq_true, decide_eq_true_eq] at hcheck
  obtain ⟨u, hu, hcaller⟩ := hcheck
  exact ⟨s, hs, u, hu, hcaller, handle_uses_live _ s hs u hu hcaller⟩

/-- The file cannot be opened, and its handle is looked at when the player is paused. -/
theorem pause_uses_deleted_handle :
    ∃ history s, Runs.run step init history = some s ∧
      (∃ u ∈ s.uses, u.live = true ∧ u.status = .unloaded) ∧
      ∃ u ∈ s.uses, u.live = false := by
  obtain ⟨s, hs, hcheck⟩ := (Option.any_eq_true _ _).mp (show (Runs.run step init
    [(.play, [1, 0, -1]), (.pause, [])]).any (fun s =>
      s.uses.any (fun u => u.live && decide (u.status = .unloaded)) &&
        s.uses.any (fun u => !u.live)) = true by decide +kernel)
  simp only [Bool.and_eq_true, List.any_eq_true, decide_eq_true_eq, Bool.not_eq_true'] at hcheck
  exact ⟨_, s, hs, hcheck⟩

end GracefulMusic.Player
