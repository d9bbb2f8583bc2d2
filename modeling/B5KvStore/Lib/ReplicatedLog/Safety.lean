import B5KvStore.Lib.ReplicatedLog.Completeness

/-!
# The invariant of the replicated log

Every step keeps the facts about acknowledgements (`QuorumInv`), one lemma for
each kind of step; with the elections and the logs this makes `Inv` hold in
every reachable state (`Reachable.inv`), and histories only grow along a run
(`Step.extends`).
-/

namespace ReplicatedLog

open QuorumSystem

variable {ν ε : Type*} {tm : ε → ℕ} {fits : ℕ → ε → Prop} {𝒬 : Quorums ν} {v : ν}
  {s s' : State ν ε}

theorem Lacks.of_led_eq {T N : ℕ} {L : List ε} (h : Lacks s T L N) (hled : s'.led = s.led) :
    Lacks s' T L N := by
  obtain ⟨T', l', L', hlt, hl, hne⟩ := h
  exact ⟨T', l', L', hlt, by rw [hled]; exact hl, hne⟩

/-- Leaving a term or acknowledging while in it makes nothing choosable. -/
theorem Choosable.anti {T N : ℕ} (h : Choosable 𝒬 s' T N) (hterm : ∀ u, s.term u ≤ s'.term u)
    (hacks : ∀ w m, (w, T, m) ∈ s'.acks → (w, T, m) ∈ s.acks ∨ s.term w ≤ T) :
    Choosable 𝒬 s T N := by
  refine 𝒬.mono ?_ h
  rintro w (⟨m, hm, hw⟩ | hle)
  · rcases hacks w m hw with hold | hle
    · exact Or.inl ⟨m, hm, hold⟩
    · exact Or.inr hle
  · exact Or.inr ((hterm w).trans hle)

/-- A step that touches neither logs nor leaders, acknowledgements or commits
keeps the invariant, provided new ballots carry the voter's log. -/
theorem QuorumInv.of_votes (h : QuorumInv tm 𝒬 s) (hled : s'.led = s.led) (hlog : s'.log = s.log)
    (hacks : s'.acks = s.acks) (hcommits : s'.commits = s.commits)
    (hterm : ∀ u, s.term u ≤ s'.term u)
    (hvotes : ∀ b ∈ s'.votes, b ∈ s.votes ∨ b.log = s.log b.voter)
    (hcand : ∀ u, s'.role u = .candidate → ∃ F, s'.cand u (s'.term u) = some F ∧
      (s.log u = F ∨ s.role u = .candidate ∧ s'.term u = s.term u ∧
        s.cand u (s.term u) = some F)) : QuorumInv tm 𝒬 s' where
  ack_le := by
    intro w T m hw
    rw [hacks] at hw
    obtain ⟨hle, l, L, hl, hm⟩ := h.ack_le w T m hw
    exact ⟨hle.trans (hterm w), l, L, by rw [hled]; exact hl, hm⟩
  ack_log := by
    intro w T m l L N hw hl hN
    rw [hacks] at hw
    rw [hled] at hl
    rw [hlog]
    exact (h.ack_log w T m l L N hw hl hN).imp_right fun hk => hk.of_led_eq hled
  ack_vote := by
    intro w T m l L N hw hl hN b hb hbw hbT
    rw [hacks] at hw
    rw [hled] at hl
    rcases hvotes b hb with hold | hnew
    · exact (h.ack_vote w T m l L N hw hl hN b hold hbw hbT).imp_right fun hk => hk.of_led_eq hled
    · rw [hnew, hbw]
      exact (h.ack_log w T m l L N hw hl hN).imp_right fun hk => hk.of_led_eq hled
  ack_held := by
    intro w m l L hw hl
    rw [hacks] at hw
    obtain ⟨hle, -⟩ := h.ack_le w _ m hw
    have hT : s'.term w = s.term w := hle.antisymm (hterm w)
    rw [hT] at hw hl
    rw [hled] at hl
    rw [hlog]
    exact h.ack_held w m l L hw hl
  complete := by
    intro T l L T' l' L' N e hl hl' hlt he hte hch
    rw [hled] at hl hl'
    exact h.complete T l L T' l' L' N e hl hl' hlt he hte
      (hch.anti hterm fun w m hw => Or.inl (by rwa [hacks] at hw))
  commit := by
    intro T N hc
    rw [hcommits] at hc
    rw [hled, hacks]
    exact h.commit T N hc
  candidate_log := by
    intro u hu
    obtain ⟨F, hF, hFlog | ⟨hr, ht, hF'⟩⟩ := hcand u hu
    · exact ⟨F, hF, Or.inl (by rw [hlog]; exact hFlog)⟩
    · obtain ⟨F₀, hF₀, hcase⟩ := h.candidate_log u hr
      rw [hF', Option.some.injEq] at hF₀
      subst hF₀
      refine ⟨F, hF, ?_⟩
      rw [hlog, hled, hcommits, ht]
      exact hcase

variable [DecidableEq ν]

theorem QuorumInv.observe (h : QuorumInv tm 𝒬 s) {T : ℕ} (hT : s.term v < T) :
    QuorumInv tm 𝒬 (s.observe v T) := by
  refine h.of_votes rfl rfl rfl rfl ?_ (fun b hb => Or.inl hb) ?_
  · intro u
    by_cases hu : u = v
    · subst hu; simpa using hT.le
    · simp [hu]
  · intro u hr
    by_cases hu : u = v
    · subst hu; simp at hr
    · simp only [State.observe_role, ne_eq, hu, not_false_eq_true, Function.update_of_ne] at hr
      obtain ⟨F, hF, -⟩ := h.candidate_log u hr
      exact ⟨F, by simpa [hu] using hF, Or.inr ⟨hr, by simp [hu], hF⟩⟩

theorem QuorumInv.campaign (h : QuorumInv tm 𝒬 s) : QuorumInv tm 𝒬 (s.campaign v) := by
  refine h.of_votes rfl rfl rfl rfl ?_ ?_ ?_
  · intro u
    by_cases hu : u = v
    · subst hu; simp
    · simp [hu]
  · rintro b (rfl | hb)
    · exact Or.inr rfl
    · exact Or.inl hb
  · intro u hr
    by_cases hu : u = v
    · subst hu
      exact ⟨s.log u, by simp, Or.inl rfl⟩
    · simp only [State.campaign_role, ne_eq, hu, not_false_eq_true, Function.update_of_ne] at hr
      obtain ⟨F, hF, -⟩ := h.candidate_log u hr
      exact ⟨F, by simpa [hu] using hF, Or.inr ⟨hr, by simp [hu], hF⟩⟩

theorem QuorumInv.grant (h : QuorumInv tm 𝒬 s) (c : ν) : QuorumInv tm 𝒬 (s.grant v c) := by
  refine h.of_votes rfl rfl rfl rfl (fun _ => le_refl _) ?_ ?_
  · rintro b (rfl | hb)
    · exact Or.inr rfl
    · exact Or.inl hb
  · intro u hr
    obtain ⟨F, hF, -⟩ := h.candidate_log u hr
    exact ⟨F, hF, Or.inr ⟨hr, rfl, hF⟩⟩

theorem QuorumInv.stepDown (h : QuorumInv tm 𝒬 s) : QuorumInv tm 𝒬 (s.stepDown v) := by
  refine h.of_votes rfl rfl rfl rfl (fun _ => le_refl _) (fun b hb => Or.inl hb) ?_
  intro u hr
  by_cases hu : u = v
  · subst hu; simp at hr
  · simp only [State.stepDown_role, ne_eq, hu, not_false_eq_true, Function.update_of_ne] at hr
    obtain ⟨F, hF, -⟩ := h.candidate_log u hr
    exact ⟨F, hF, Or.inr ⟨hr, rfl, hF⟩⟩

/-! ## A new leader -/

theorem Inv.quorums_elect (h : Inv tm 𝒬 s) (hrole : s.role v = .candidate)
    (hQ : 𝒬.IsQuorum (s.voters (s.term v) v)) : QuorumInv tm 𝒬 (s.elect v) := by
  have hnone := h.elections.led_eq_none hrole hQ
  -- leaders that were recorded before are recorded still, and `v` is the new one
  have hold : ∀ T l L, s.led T = some (l, L) → (s.elect v).led T = some (l, L) := by
    intro T l L hl
    have hT : T ≠ s.term v := by rintro rfl; rw [hnone] at hl; exact absurd hl (by simp)
    simp [hT, hl]
  have hcases : ∀ T l L, (s.elect v).led T = some (l, L) →
      T = s.term v ∧ L = s.log v ∨ s.led T = some (l, L) := by
    intro T l L hl
    by_cases hT : T = s.term v
    · subst hT
      simp only [State.elect_led, Function.update_self, Option.some.injEq, Prod.mk.injEq] at hl
      exact Or.inl ⟨rfl, hl.2.symm⟩
    · exact Or.inr (by simpa [hT] using hl)
  have hlacks : ∀ T L N, Lacks s T L N → Lacks (s.elect v) T L N := by
    rintro T L N ⟨T', l', L', hlt, hl', hne⟩
    exact ⟨T', l', L', hlt, hold _ _ _ hl', hne⟩
  have hackled : ∀ w T m l L, (w, T, m) ∈ s.acks → (s.elect v).led T = some (l, L) →
      s.led T = some (l, L) := by
    intro w T m l L hw hl
    obtain ⟨-, l', L', hl', -⟩ := h.quorums.ack_le w T m hw
    rw [hold _ _ _ hl'] at hl
    rw [hl', hl]
  refine ⟨?_, ?_, ?_, ?_, ?_, ?_, ?_⟩
  · intro w T m hw
    obtain ⟨hle, l, L, hl, hm⟩ := h.quorums.ack_le w T m hw
    exact ⟨hle, l, L, hold _ _ _ hl, hm⟩
  · intro w T m l L N hw hl hN
    exact (h.quorums.ack_log w T m l L N hw (hackled w T m l L hw hl) hN).imp_right (hlacks T L N)
  · intro w T m l L N hw hl hN b hb hbw hbT
    exact (h.quorums.ack_vote w T m l L N hw (hackled w T m l L hw hl) hN b hb hbw hbT).imp_right
      (hlacks T L N)
  · intro w m l L hw hl
    exact h.quorums.ack_held w m l L hw (hackled w _ m l L hw hl)
  · intro T l L T' l' L' N e hl hl' hlt he hte hch
    rcases hcases T l L hl with ⟨rfl, rfl⟩ | hl
    · -- an entry of the new leader's own term would have had a leader before
      obtain ⟨l₀, L₀, hl₀, -⟩ := h.logs.sound_log v N e he
      rw [hte, hnone] at hl₀
      exact absurd hl₀ (by simp)
    · rcases hcases T' l' L' hl' with ⟨rfl, rfl⟩ | hl'
      · exact h.winner_holds hQ (h.winner_log hrole hQ) hlt hl he hte hch
      · exact h.quorums.complete T l L T' l' L' N e hl hl' hlt he hte hch
  · intro T N hc
    obtain ⟨n, l, L, e, hN, hl, hrest⟩ := h.quorums.commit T N hc
    exact ⟨n, l, L, e, hN, hold _ _ _ hl, hrest⟩
  · intro u hu
    have huv : u ≠ v := by rintro rfl; simp at hu
    simp only [State.elect_role, ne_eq, huv, not_false_eq_true, Function.update_of_ne] at hu
    obtain ⟨F, hF, hcase⟩ := h.quorums.candidate_log u hu
    refine ⟨F, hF, hcase.imp_right ?_⟩
    rintro ⟨T, N, l, L, hc, hT, hl, hrest⟩
    exact ⟨T, N, l, L, hc, hT, hold _ _ _ hl, hrest⟩

/-! ## A new entry -/

/-- A leader that did without a prefix does without it for good: what it adds
is from its own term. -/
theorem Lacks.propose (h : LogInv tm s) {T N : ℕ} {l : ν} {L : List ε} {e : ε}
    (hrole : s.role v = .leader) (he : tm e = s.term v) (hled : s.led T = some (l, L))
    (hk : Lacks s T L N) : Lacks (s.propose v e) T L N := by
  obtain ⟨T', l', L', hlt, hl', hne⟩ := hk
  by_cases hT' : T' = s.term v
  · subst hT'
    have hlead := h.leader_led v hrole
    rw [hlead, Option.some.injEq, Prod.mk.injEq] at hl'
    obtain ⟨rfl, rfl⟩ := hl'
    refine ⟨s.term v, v, s.log v ++ [e], hlt, by simp, fun heq => ?_⟩
    rcases Nat.lt_or_ge (s.log v).length N with hlong | hshort
    · have hget := getElem?_eq_of_take_eq heq hlong
      rw [List.getElem?_concat_length] at hget
      have := h.led_le T l L hled e (List.mem_of_getElem? hget.symm)
      omega
    · rw [List.take_append_of_le_length hshort] at heq
      exact hne heq
  · exact ⟨T', l', L', hlt, by simp [hT', hl'], hne⟩

theorem Inv.quorums_propose (h : Inv tm 𝒬 s) {e : ε} (hrole : s.role v = .leader)
    (he : tm e = s.term v) : QuorumInv tm 𝒬 (s.propose v e) := by
  have hlead := h.logs.leader_led v hrole
  have hgrow := ledGrows_propose (e := e) hlead
  -- on what was there before, a leader's log is what it was
  have hprev : ∀ T l L', (s.propose v e).led T = some (l, L') →
      ∃ L, s.led T = some (l, L) ∧ L <+: L' := by
    intro T l L' hl
    by_cases hT : T = s.term v
    · subst hT
      simp only [State.propose_led, Function.update_self, Option.some.injEq, Prod.mk.injEq] at hl
      obtain ⟨rfl, rfl⟩ := hl
      exact ⟨s.log v, hlead, List.prefix_append _ _⟩
    · exact ⟨L', by simpa [hT] using hl, List.prefix_refl _⟩
  have hlacks : ∀ T l L L' N, s.led T = some (l, L) → L <+: L' → N ≤ L.length →
      Lacks s T L N → Lacks (s.propose v e) T L' N := by
    intro T l L L' N hl hpre hN hk
    obtain ⟨T', l', L'', hlt, hl'', hne⟩ := hk.propose h.logs hrole he hl
    exact ⟨T', l', L'', hlt, hl'', by rwa [take_eq_of_isPrefix hpre hN]⟩
  have hackL : ∀ w T m l L, (w, T, m) ∈ s.acks → s.led T = some (l, L) → m ≤ L.length := by
    intro w T m l L hw hl
    obtain ⟨-, l', L', hl', hm⟩ := h.quorums.ack_le w T m hw
    rw [hl, Option.some.injEq, Prod.mk.injEq] at hl'
    rw [hl'.2]
    exact hm
  have hch : ∀ T N, Choosable 𝒬 (s.propose v e) T N → Choosable 𝒬 s T N := by
    intro T N hc
    refine hc.anti (fun _ => le_refl _) ?_
    rintro w m (hw | hw)
    · obtain ⟨rfl, rfl, -⟩ := Prod.mk.injEq .. ▸ hw
      exact Or.inr (le_refl _)
    · exact Or.inl hw
  refine ⟨?_, ?_, ?_, ?_, ?_, ?_, ?_⟩
  · rintro w T m (hw | hw)
    · simp only [Prod.mk.injEq] at hw
      obtain ⟨rfl, rfl, rfl⟩ := hw
      exact ⟨le_refl _, w, s.log w ++ [e], by simp, by simp⟩
    · obtain ⟨hle, l, L, hl, hm⟩ := h.quorums.ack_le w T m hw
      obtain ⟨L', hl', hpre⟩ := hgrow T l L hl
      exact ⟨hle, l, L', hl', hm.trans hpre.length_le⟩
  · rintro w T m l L' N (hw | hw) hl' hN
    · simp only [Prod.mk.injEq] at hw
      obtain ⟨rfl, rfl, rfl⟩ := hw
      simp only [State.propose_led, Function.update_self, Option.some.injEq,
        Prod.mk.injEq] at hl'
      rw [← hl'.2]
      exact Or.inl (by simp)
    · obtain ⟨L, hl, hpre⟩ := hprev T l L' hl'
      have hNL : N ≤ L.length := hN.trans (hackL w T m l L hw hl)
      rcases h.quorums.ack_log w T m l L N hw hl hN with heq | hk
      · refine Or.inl ?_
        rw [take_eq_of_isPrefix hpre hNL, ← heq]
        by_cases hwv : w = v
        · subst hwv
          have := le_length_of_take_eq heq hNL
          simp [List.take_append_of_le_length this]
        · simp [hwv]
      · exact Or.inr (hlacks T l L L' N hl hpre hNL hk)
  · rintro w T m l L' N (hw | hw) hl' hN b hb hbw hbT
    · simp only [Prod.mk.injEq] at hw
      obtain ⟨rfl, rfl, rfl⟩ := hw
      have := h.elections.vote_le b hb
      rw [hbw] at this
      omega
    · obtain ⟨L, hl, hpre⟩ := hprev T l L' hl'
      have hNL : N ≤ L.length := hN.trans (hackL w T m l L hw hl)
      rcases h.quorums.ack_vote w T m l L N hw hl hN b hb hbw hbT with heq | hk
      · exact Or.inl (heq.trans (take_eq_of_isPrefix hpre hNL).symm)
      · exact Or.inr (hlacks T l L L' N hl hpre hNL hk)
  · rintro w m l L' (hw | hw) hl'
    · simp only [Prod.mk.injEq] at hw
      obtain ⟨rfl, -, rfl⟩ := hw
      simp only [State.propose_led, State.propose_term, Function.update_self, Option.some.injEq,
        Prod.mk.injEq] at hl'
      simp [← hl'.2]
    · obtain ⟨L, hl, hpre⟩ := hprev _ l L' hl'
      have hmL : m ≤ L.length := hackL w _ m l L hw hl
      have heq : (s.log w).take m = L.take m := h.quorums.ack_held w m l L hw hl
      rw [take_eq_of_isPrefix hpre hmL, ← heq]
      by_cases hwv : w = v
      · subst hwv
        simp [List.take_append_of_le_length (le_length_of_take_eq heq hmL)]
      · simp [hwv]
  · intro T l L₁ T' l' L₁' N x hl₁ hl₁' hlt hx hxT hc
    obtain ⟨L, hl, hpre⟩ := hprev T l L₁ hl₁
    obtain ⟨L', hl', hpre'⟩ := hprev T' l' L₁' hl₁'
    rcases Nat.lt_or_ge N L.length with hN | hN
    · have hxL : L[N]? = some x := by
        rw [← hx]
        exact (getElem?_eq_of_take_eq (take_eq_of_isPrefix hpre (n := N + 1) hN) (by omega)).symm
      have heq := h.quorums.complete T l L T' l' L' N x hl hl' hlt hxL hxT (hch T _ hc)
      have hN' : N + 1 ≤ L'.length := le_length_of_take_eq heq hN
      rw [take_eq_of_isPrefix hpre' hN', take_eq_of_isPrefix hpre hN, heq]
    · -- the new entry is not choosable once a later leader exists
      exfalso
      obtain ⟨w, ⟨G, hw⟩, hwch⟩ := 𝒬.inter (h.elections.led_won T' l' L' hl').2.2 hc
      have hwT := h.elections.vote_le _ hw
      simp only at hwT
      rcases hwch with ⟨m, hm, hack | hack⟩ | hle
      · simp only [Prod.mk.injEq] at hack
        obtain ⟨rfl, rfl, -⟩ := hack
        omega
      · have := hackL w T m l L hack hl
        omega
      · simp only [State.propose_term] at hle
        omega
  · intro T N hc
    obtain ⟨n, l, L, x, hN, hl, hx, hxT, hQ⟩ := h.quorums.commit T N hc
    obtain ⟨L', hl', hpre⟩ := hgrow T l L hl
    have hn : n + 1 ≤ L.length := (List.getElem?_eq_some_iff.1 hx).1
    refine ⟨n, l, L', x, hN, hl', ?_, hxT, 𝒬.mono ?_ hQ⟩
    · rw [← hx]
      exact getElem?_eq_of_take_eq (take_eq_of_isPrefix hpre hn) (by omega)
    · rintro w ⟨m, hm, hw⟩
      exact ⟨m, hm, Or.inr hw⟩
  · intro u hu
    have huv : u ≠ v := by rintro rfl; rw [State.propose_role, hrole] at hu; simp at hu
    obtain ⟨F, hF, hcase⟩ := h.quorums.candidate_log u hu
    refine ⟨F, hF, ?_⟩
    simp only [State.propose_log, ne_eq, huv, not_false_eq_true, Function.update_of_ne]
    refine hcase.imp_right ?_
    rintro ⟨T, N, l, L, hc, hT, hl, hlen, hFlen, heq⟩
    obtain ⟨L', hl', hpre⟩ := hgrow T l L hl
    have hle : (s.log u).length ≤ L.length := by
      have := congrArg List.length heq
      rw [List.length_take] at this
      omega
    exact ⟨T, N, l, L', hc, hT, hl', hlen, hFlen, by rw [take_eq_of_isPrefix hpre hle]; exact heq⟩

/-! ## Logs that change -/

/-- Replacing a log keeps the invariant if what was acknowledged is kept. -/
theorem QuorumInv.setLog (h : QuorumInv tm 𝒬 s) {l' : List ε}
    (hack : ∀ T m l L N, (v, T, m) ∈ s.acks → s.led T = some (l, L) → N ≤ m →
      (s.log v).take N = L.take N → l'.take N = L.take N ∨ Lacks s T L N)
    (hheld : ∀ m l L, s.led (s.term v) = some (l, L) → (s.log v).take m = L.take m →
      m ≤ L.length → l'.take m = L.take m)
    (hcand : s.role v = .candidate → ∃ T N l L, (T, N) ∈ s.commits ∧ T ≤ s.term v ∧
      s.led T = some (l, L) ∧ l'.length ≤ N ∧ (s.log v).length ≤ l'.length ∧
      l' = L.take l'.length) : QuorumInv tm 𝒬 (s.setLog v l') where
  ack_le := h.ack_le
  ack_log := by
    intro w T m l L N hw hl hN
    by_cases hwv : w = v
    · subst hwv
      simp only [State.setLog_log, Function.update_self]
      rcases h.ack_log w T m l L N hw hl hN with heq | hk
      · exact hack T m l L N hw hl hN heq
      · exact Or.inr hk
    · simp only [State.setLog_log, ne_eq, hwv, not_false_eq_true, Function.update_of_ne]
      exact h.ack_log w T m l L N hw hl hN
  ack_vote := h.ack_vote
  ack_held := by
    intro w m l L hw hl
    have heq := h.ack_held w m l L hw hl
    by_cases hwv : w = v
    · subst hwv
      obtain ⟨-, l', L', hl', hm⟩ := h.ack_le w _ m hw
      simp only [State.setLog_led, State.setLog_term] at hl
      rw [State.setLog_term, hl, Option.some.injEq, Prod.mk.injEq] at hl'
      simp only [State.setLog_log, Function.update_self]
      exact hheld m l L hl heq (by rw [hl'.2]; exact hm)
    · simpa [hwv] using heq
  complete := h.complete
  commit := h.commit
  candidate_log := by
    intro u hu
    by_cases huv : u = v
    · subst huv
      obtain ⟨F, hF, hcase⟩ := h.candidate_log u hu
      obtain ⟨T, N, l, L, hc, hT, hl, hlen, hlen', heq⟩ := hcand hu
      have hFlen : F.length ≤ (s.log u).length := by
        rcases hcase with rfl | ⟨-, -, -, -, -, -, -, -, hle, -⟩
        · exact le_refl _
        · exact hle
      refine ⟨F, hF, Or.inr ⟨T, N, l, L, hc, hT, hl, ?_⟩⟩
      simp only [State.setLog_log, Function.update_self]
      exact ⟨hlen, by omega, heq⟩
    · simp only [State.setLog_role] at hu
      obtain ⟨F, hF, hcase⟩ := h.candidate_log u hu
      exact ⟨F, hF, by simpa [huv] using hcase⟩

theorem Inv.quorums_overwrite (h : Inv tm 𝒬 s) {k : ℕ} {l : ν} {L : List ε}
    (hrole : s.role v = .follower) (hled : s.led (s.term v) = some (l, L))
    (hkeep : ∀ j ≤ (s.log v).length, (s.log v).take j = L.take j → j ≤ k) :
    QuorumInv tm 𝒬 (s.setLog v (L.take k)) := by
  refine h.quorums.setLog ?_ ?_ (fun hc => by rw [hrole] at hc; exact absurd hc (by simp))
  rotate_left
  · intro m l₀ L₀ hl₀ heq hm
    rw [hled, Option.some.injEq, Prod.mk.injEq] at hl₀
    rw [← hl₀.2] at heq hm ⊢
    rw [List.take_take, min_eq_left (hkeep m (le_length_of_take_eq heq hm) heq)]
  intro T m l₀ L₀ N hw hl₀ hN heq
  obtain ⟨hT, l₁, L₁, hl₁, hm⟩ := h.quorums.ack_le v T m hw
  rw [hl₀, Option.some.injEq, Prod.mk.injEq] at hl₁
  have hNlog : N ≤ (s.log v).length := le_length_of_take_eq heq (by rw [hl₁.2]; omega)
  by_cases hagree : L.take N = L₀.take N
  · have hNk : N ≤ k := hkeep N hNlog (heq.trans hagree.symm)
    refine Or.inl ?_
    rw [List.take_take, min_eq_left hNk]
    exact hagree
  · rcases hT.eq_or_lt with rfl | hlt
    · rw [hled, Option.some.injEq, Prod.mk.injEq] at hl₀
      exact absurd (by rw [hl₀.2]) hagree
    · exact Or.inr ⟨s.term v, l, L, hlt, hled, hagree⟩

/-- An adopted prefix agrees with whatever of the old log was acknowledged. -/
theorem Inv.quorums_install (h : Inv tm 𝒬 s) {T N A : ℕ} {l : ν} {L : List ε}
    (hc : (T, N) ∈ s.commits) (hT : T ≤ s.term v) (hA : A ≤ N)
    (hlen : (s.log v).length ≤ A) (hled : s.led T = some (l, L)) :
    QuorumInv tm 𝒬 (s.setLog v (L.take A)) := by
  have hNL : N ≤ L.length := h.commit_le hc hled
  have hAlen : (L.take A).length = A := by rw [List.length_take]; omega
  refine h.quorums.setLog ?_ ?_ fun _ =>
    ⟨T, N, l, L, hc, hT, hled, by omega, by omega, by rw [hAlen]⟩
  rotate_left
  · intro m l₀ L₀ hl₀ heq hm
    have hmA : m ≤ A := (le_length_of_take_eq heq hm).trans hlen
    rw [List.take_take, min_eq_left hmA]
    exact (take_eq_of_le (h.commit_complete hc hled hl₀ hT) (hmA.trans hA)).symm
  intro T₀ m l₀ L₀ n hw hl₀ hn heq
  obtain ⟨-, l₁, L₁, hl₁, hm⟩ := h.quorums.ack_le v T₀ m hw
  rw [hl₀, Option.some.injEq, Prod.mk.injEq] at hl₁
  have hnA : n ≤ A := (le_length_of_take_eq heq (by rw [hl₁.2]; omega)).trans hlen
  rw [List.take_take, min_eq_left hnA]
  rcases le_total T T₀ with hle | hle
  · exact Or.inl (take_eq_of_le (h.commit_complete hc hled hl₀ hle) (hnA.trans hA)).symm
  · rcases hle.eq_or_lt with rfl | hlt
    · rw [hled, Option.some.injEq, Prod.mk.injEq] at hl₀
      exact Or.inl (by rw [hl₀.2])
    · by_cases hagree : L.take n = L₀.take n
      · exact Or.inl hagree
      · exact Or.inr ⟨T, l, L, hlt, hled, hagree⟩

omit [DecidableEq ν] in
/-- A leader that adopts a committed prefix no shorter than its log adopts its
own log. -/
theorem Inv.install_leader (h : Inv tm 𝒬 s) {T N A : ℕ} {l : ν} {L : List ε}
    (hc : (T, N) ∈ s.commits) (hT : T ≤ s.term v) (hA : A ≤ N)
    (hlen : (s.log v).length ≤ A) (hled : s.led T = some (l, L)) (hrole : s.role v = .leader) :
    L.take A = s.log v := by
  have htake := h.commit_complete hc hled (h.logs.leader_led v hrole) hT
  have hNlen : N ≤ (s.log v).length := le_length_of_take_eq htake (h.commit_le hc hled)
  have hAN : A = N := by omega
  rw [hAN, ← htake, List.take_of_length_le (by omega)]

/-! ## Acknowledgements and commits -/

omit [DecidableEq ν] in
theorem Inv.quorums_ack (h : Inv tm 𝒬 s) {m : ℕ} {l : ν} {L : List ε}
    (hled : s.led (s.term v) = some (l, L)) (hm : m ≤ L.length)
    (heq : (s.log v).take m = L.take m) : QuorumInv tm 𝒬 (s.ack v m) where
  ack_le := by
    rintro w T n (hw | hw)
    · simp only [Prod.mk.injEq] at hw
      obtain ⟨rfl, rfl, rfl⟩ := hw
      exact ⟨le_refl _, l, L, hled, hm⟩
    · exact h.quorums.ack_le w T n hw
  ack_log := by
    rintro w T n l' L' N (hw | hw) hl' hN
    · simp only [Prod.mk.injEq] at hw
      obtain ⟨rfl, rfl, rfl⟩ := hw
      simp only [State.ack_led] at hl'
      rw [hled, Option.some.injEq, Prod.mk.injEq] at hl'
      rw [← hl'.2]
      exact Or.inl (take_eq_of_le heq hN)
    · exact h.quorums.ack_log w T n l' L' N hw hl' hN
  ack_vote := by
    rintro w T n l' L' N (hw | hw) hl' hN b hb hbw hbT
    · simp only [Prod.mk.injEq] at hw
      obtain ⟨rfl, rfl, rfl⟩ := hw
      have := h.elections.vote_le b hb
      rw [hbw] at this
      omega
    · exact h.quorums.ack_vote w T n l' L' N hw hl' hN b hb hbw hbT
  ack_held := by
    rintro w n l' L' (hw | hw) hl'
    · simp only [Prod.mk.injEq] at hw
      obtain ⟨rfl, -, rfl⟩ := hw
      simp only [State.ack_led, State.ack_term] at hl'
      rw [hled, Option.some.injEq, Prod.mk.injEq] at hl'
      rw [← hl'.2]
      exact heq
    · exact h.quorums.ack_held w n l' L' hw hl'
  complete := by
    intro T l₁ L₁ T' l' L' N e hl hl' hlt he hte hch
    refine h.quorums.complete T l₁ L₁ T' l' L' N e hl hl' hlt he hte
      (hch.anti (fun _ => le_refl _) ?_)
    rintro w n (hw | hw)
    · simp only [Prod.mk.injEq] at hw
      obtain ⟨rfl, rfl, -⟩ := hw
      exact Or.inr (le_refl _)
    · exact Or.inl hw
  commit := by
    intro T N hc
    obtain ⟨n, l', L', e, hN, hl', he, hte, hQ⟩ := h.quorums.commit T N hc
    refine ⟨n, l', L', e, hN, hl', he, hte, 𝒬.mono ?_ hQ⟩
    rintro w ⟨j, hj, hw⟩
    exact ⟨j, hj, Or.inr hw⟩
  candidate_log := h.quorums.candidate_log

omit [DecidableEq ν] in
theorem Inv.quorums_commit (h : Inv tm 𝒬 s) {N : ℕ} {e : ε} (hrole : s.role v = .leader)
    (he : (s.log v)[N]? = some e) (hte : tm e = s.term v)
    (hQ : 𝒬.IsQuorum {w | ∃ m, N < m ∧ (w, s.term v, m) ∈ s.acks}) :
    QuorumInv tm 𝒬 (s.commit v (N + 1)) where
  ack_le := h.quorums.ack_le
  ack_log := h.quorums.ack_log
  ack_vote := h.quorums.ack_vote
  ack_held := h.quorums.ack_held
  complete := h.quorums.complete
  commit := by
    rintro T M (hc | hc)
    · simp only [Prod.mk.injEq] at hc
      obtain ⟨rfl, rfl⟩ := hc
      exact ⟨N, v, s.log v, e, rfl, h.logs.leader_led v hrole, he, hte, hQ⟩
    · exact h.quorums.commit T M hc
  candidate_log := by
    intro u hu
    obtain ⟨F, hF, hcase⟩ := h.quorums.candidate_log u hu
    refine ⟨F, hF, hcase.imp_right ?_⟩
    rintro ⟨T, M, l, L, hc, hrest⟩
    exact ⟨T, M, l, L, Or.inr hc, hrest⟩

/-! ## The invariant along a run -/

omit [DecidableEq ν] in
/-- Two leaders of one term are the same participant. -/
theorem Inv.leader_unique (h : Inv tm 𝒬 s) {u : ν} (hu : s.role u = .leader)
    (hv : s.role v = .leader) (hT : s.term u = s.term v) : u = v := by
  have hlu := h.logs.leader_led u hu
  have hlv := h.logs.leader_led v hv
  rw [hT, hlv, Option.some.injEq, Prod.mk.injEq] at hlu
  exact hlu.1.symm

/-- **Every step keeps the invariant.** -/
theorem Inv.step (h : Inv tm 𝒬 s) (hs : Step tm fits 𝒬 v s s') : Inv tm 𝒬 s' := by
  cases hs with
  | observe T hT => exact ⟨h.elections.observe hT, h.logs.observe hT, h.quorums.observe hT⟩
  | campaign => exact ⟨h.elections.campaign, h.logs.campaign, h.quorums.campaign⟩
  | grant c F hF hvote hup =>
      exact ⟨h.elections.grant hF hvote hup, h.logs.grant c, h.quorums.grant c⟩
  | elect hrole hQ =>
      exact ⟨h.elections.elect hQ, h.logs.elect (h.elections.led_eq_none hrole hQ),
        h.quorums_elect hrole hQ⟩
  | propose e hrole he hfits =>
      exact ⟨h.elections.propose (h.logs.leader_led v hrole),
        h.logs.propose hrole he fun u hu hT => h.leader_unique hu hrole hT,
        h.quorums_propose hrole he⟩
  | stepDown => exact ⟨h.elections.stepDown, h.logs.stepDown, h.quorums.stepDown⟩
  | overwrite k l L hrole hled hk hkeep =>
      exact ⟨h.elections.of_eq rfl rfl rfl rfl rfl rfl,
        h.logs.setLog hled (le_refl _) (fun hr => by rw [hrole] at hr; exact absurd hr (by simp)),
        h.quorums_overwrite hrole hled hkeep⟩
  | ack m l L hled hm heq =>
      exact ⟨h.elections.of_eq rfl rfl rfl rfl rfl rfl,
        h.logs.of_grows rfl rfl (fun _ => le_refl _) (fun u hu => ⟨hu, rfl⟩) h.logs.sound_cand
          h.logs.sound_vote,
        h.quorums_ack hled hm heq⟩
  | commit N e hrole he hte hQ =>
      exact ⟨h.elections.of_eq rfl rfl rfl rfl rfl rfl,
        h.logs.of_grows rfl rfl (fun _ => le_refl _) (fun u hu => ⟨hu, rfl⟩) h.logs.sound_cand
          h.logs.sound_vote,
        h.quorums_commit hrole he hte hQ⟩
  | install T N A l L hc hT hA hlen hled =>
      exact ⟨h.elections.of_eq rfl rfl rfl rfl rfl rfl,
        h.logs.setLog hled hT (fun hr => h.install_leader hc hT hA hlen hled hr),
        h.quorums_install hc hT hA hlen hled⟩

theorem Inv.steps (h : Inv tm 𝒬 s) (hs : Steps tm fits 𝒬 v s s') : Inv tm 𝒬 s' := by
  induction hs with
  | refl => exact h
  | tail _ hstep ih => exact ih.step hstep

/-- **The invariant holds in every reachable state.** -/
theorem Reachable.inv (h : Reachable tm fits 𝒬 s) : Inv tm 𝒬 s := by
  induction h with
  | init => exact Inv.init
  | step _ hstep ih => exact ih.step hstep

/-- Every entry of every leader's log stands at a position it fits. -/
def LedFits (fits : ℕ → ε → Prop) (s : State ν ε) : Prop :=
  ∀ T l L, s.led T = some (l, L) → ∀ i e, L[i]? = some e → fits i e

omit [DecidableEq ν] in
/-- With the leaders' logs, every log is placed well. -/
theorem LedFits.of_sound (h : LedFits fits s) {F : List ε} (hF : Sound tm s F) {i : ℕ} {e : ε}
    (he : F[i]? = some e) : fits i e := by
  obtain ⟨l, L, hled, htake⟩ := hF i e he
  exact h _ l L hled i e (by rw [← he]; exact (getElem?_eq_of_take_eq htake (by omega)).symm)

theorem LedFits.step (hf : LedFits fits s) (h : Inv tm 𝒬 s) (hs : Step tm fits 𝒬 v s s') :
    LedFits fits s' := by
  cases hs with
  | elect hrole hQ =>
      intro T l L hl i e he
      by_cases hT : T = s.term v
      · subst hT
        simp only [State.elect_led, Function.update_self, Option.some.injEq, Prod.mk.injEq] at hl
        rw [← hl.2] at he
        exact hf.of_sound (h.logs.sound_log v) he
      · exact hf T l L (by simpa [hT] using hl) i e he
  | propose e hrole he hfits =>
      intro T l L hl i x hx
      by_cases hT : T = s.term v
      · subst hT
        simp only [State.propose_led, Function.update_self, Option.some.injEq,
          Prod.mk.injEq] at hl
        rw [← hl.2] at hx
        by_cases hi : i < (s.log v).length
        · rw [List.getElem?_append_left hi] at hx
          exact hf.of_sound (h.logs.sound_log v) hx
        · have hlen := (List.getElem?_eq_some_iff.1 hx).1
          rw [List.length_append, List.length_singleton] at hlen
          have hi' : i = (s.log v).length := by omega
          subst hi'
          simp only [List.getElem?_concat_length, Option.some.injEq] at hx
          exact hx ▸ hfits
      · exact hf T l L (by simpa [hT] using hl) i x hx
  | _ => exact hf

theorem Reachable.ledFits (h : Reachable tm fits 𝒬 s) : LedFits fits s := by
  induction h with
  | init => intro T l L hl; simp at hl
  | step hr hstep ih => exact ih.step hr.inv hstep

/-- Histories only grow. -/
theorem Step.extends (h : Inv tm 𝒬 s) (hs : Step tm fits 𝒬 v s s') : Extends s s' := by
  have hsame : ∀ t : State ν ε, t.led = s.led → LedGrows s t := fun t ht T l L hl =>
    ⟨L, by rw [ht]; exact hl, List.prefix_refl L⟩
  cases hs with
  | observe T hT =>
      refine ⟨fun u => ?_, subset_rfl, subset_rfl, subset_rfl, fun _ _ _ hF => hF, hsame _ rfl⟩
      by_cases hu : u = v
      · subst hu; simpa using hT.le
      · simp [hu]
  | campaign =>
      refine ⟨fun u => ?_, Set.subset_insert _ _, subset_rfl, subset_rfl, ?_, hsame _ rfl⟩
      · by_cases hu : u = v
        · subst hu; simp
        · simp [hu]
      · intro c T F hF
        by_cases hc : c = v
        · subst hc
          have hT : T ≠ s.term c + 1 := by
            have := (h.elections.cand_le c T F hF).1
            omega
          simp [hT, hF]
        · simp [hc, hF]
  | grant c F hF hvote hup =>
      exact ⟨fun _ => le_refl _, Set.subset_insert _ _, subset_rfl, subset_rfl,
        fun _ _ _ hF => hF, hsame _ rfl⟩
  | elect hrole hQ =>
      exact ⟨fun _ => le_refl _, subset_rfl, subset_rfl, subset_rfl, fun _ _ _ hF => hF,
        ledGrows_elect (h.elections.led_eq_none hrole hQ)⟩
  | propose e hrole he hfits =>
      exact ⟨fun _ => le_refl _, subset_rfl, Set.subset_insert _ _, subset_rfl,
        fun _ _ _ hF => hF, ledGrows_propose (h.logs.leader_led v hrole)⟩
  | stepDown =>
      exact ⟨fun _ => le_refl _, subset_rfl, subset_rfl, subset_rfl, fun _ _ _ hF => hF,
        hsame _ rfl⟩
  | overwrite k l L hrole hled hk hkeep =>
      exact ⟨fun _ => le_refl _, subset_rfl, subset_rfl, subset_rfl, fun _ _ _ hF => hF,
        hsame _ rfl⟩
  | ack m l L hled hm heq =>
      exact ⟨fun _ => le_refl _, subset_rfl, Set.subset_insert _ _, subset_rfl,
        fun _ _ _ hF => hF, hsame _ rfl⟩
  | commit N e hrole he hte hQ =>
      exact ⟨fun _ => le_refl _, subset_rfl, subset_rfl, Set.subset_insert _ _,
        fun _ _ _ hF => hF, hsame _ rfl⟩
  | install T N A l L hc hT hA hlen hled =>
      exact ⟨fun _ => le_refl _, subset_rfl, subset_rfl, subset_rfl, fun _ _ _ hF => hF,
        hsame _ rfl⟩

theorem Steps.extends (h : Inv tm 𝒬 s) (hs : Steps tm fits 𝒬 v s s') : Extends s s' := by
  induction hs with
  | refl => exact .refl s
  | tail hpre hstep ih => exact ih.trans (hstep.extends (h.steps hpre))

/-- Leaders still have the logs they put forward. -/
def LedCand (s : State ν ε) : Prop :=
  ∀ T l L, s.led T = some (l, L) → ∃ F, s.cand l T = some F ∧ F <+: L

theorem LedCand.step (hc : LedCand s) (h : Inv tm 𝒬 s) (hs : Step tm fits 𝒬 v s s') :
    LedCand s' := by
  have hx := hs.extends h
  have hsame : s'.led = s.led → LedCand s' := by
    intro hled T l L hl
    rw [hled] at hl
    obtain ⟨F, hF, hpre⟩ := hc T l L hl
    exact ⟨F, hx.cand l T F hF, hpre⟩
  cases hs with
  | elect hrole hQ =>
      intro T l L hl
      by_cases hT : T = s.term v
      · subst hT
        simp only [State.elect_led, Function.update_self, Option.some.injEq, Prod.mk.injEq] at hl
        obtain ⟨rfl, rfl⟩ := hl
        exact ⟨_, h.winner_log hrole hQ, List.prefix_refl _⟩
      · simp only [State.elect_led, ne_eq, hT, not_false_eq_true, Function.update_of_ne] at hl
        exact hc T l L hl
  | propose e hrole he hfits =>
      intro T l L hl
      by_cases hT : T = s.term v
      · subst hT
        simp only [State.propose_led, Function.update_self, Option.some.injEq,
          Prod.mk.injEq] at hl
        obtain ⟨rfl, rfl⟩ := hl
        obtain ⟨F, hF, hpre⟩ := hc _ _ _ (h.logs.leader_led v hrole)
        exact ⟨F, hF, hpre.trans (List.prefix_append _ _)⟩
      · simp only [State.propose_led, ne_eq, hT, not_false_eq_true, Function.update_of_ne] at hl
        exact hc T l L hl
  | _ => exact hsame rfl

theorem Reachable.ledCand (h : Reachable tm fits 𝒬 s) : LedCand s := by
  induction h with
  | init => intro T l L hl; simp at hl
  | step hr hstep ih => exact ih.step hr.inv hstep

end ReplicatedLog
