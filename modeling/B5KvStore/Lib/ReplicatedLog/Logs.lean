import B5KvStore.Lib.ReplicatedLog.Elections

/-!
# Where the entries of a log come from

Every entry was created by the leader of its term, and every log that holds the
entry holds the whole of that leader's log up to it.  `Sound` says so of one
log, `LogInv` of every log of a state, current or remembered.  That two logs
agree up to any entry they share is an immediate consequence
(`Sound.agree`), and so is the order of the terms along a log
(`Sound.sorted`).
-/

namespace ReplicatedLog

open QuorumSystem

variable {ν ε : Type*} {tm : ε → ℕ} {𝒬 : Quorums ν} {v : ν} {s s' : State ν ε} {F G : List ε}

/-- Each entry of `F` was created by the leader of its term, whose log agrees
with `F` up to and including the entry. -/
def Sound (tm : ε → ℕ) (s : State ν ε) (F : List ε) : Prop :=
  ∀ i e, F[i]? = some e → ∃ l L, s.led (tm e) = some (l, L) ∧ F.take (i + 1) = L.take (i + 1)

theorem Sound.nil : Sound tm s [] := by
  intro i e h
  simp at h

/-- If two logs agree on the first `k + 1` entries and one of them has a `k`-th
entry, so does the other. -/
theorem getElem?_eq_of_take_eq {k n : ℕ} (h : F.take n = G.take n) (hk : k < n) :
    F[k]? = G[k]? := by
  have := congrArg (fun l : List ε => l[k]?) h
  simpa [List.getElem?_take, hk] using this

/-- Agreement on a prefix is agreement on every shorter one. -/
theorem take_eq_of_le {m n : ℕ} (h : F.take n = G.take n) (hm : m ≤ n) : F.take m = G.take m := by
  have := congrArg (List.take m) h
  rwa [List.take_take, List.take_take, min_eq_left hm] at this

/-- A log that agrees with a long enough one on `n` entries has `n` entries. -/
theorem le_length_of_take_eq {n : ℕ} (h : F.take n = G.take n) (hn : n ≤ G.length) :
    n ≤ F.length := by
  have := congrArg List.length h
  rw [List.length_take, List.length_take, min_eq_left hn] at this
  omega

/-- Extending a log keeps the entries it had. -/
theorem take_eq_of_isPrefix {n : ℕ} (h : F <+: G) (hn : n ≤ F.length) : G.take n = F.take n := by
  obtain ⟨t, rfl⟩ := h
  exact List.take_append_of_le_length hn

theorem Sound.mono (h : Sound tm s F) (hgrow : LedGrows s s') : Sound tm s' F := by
  intro i e hi
  obtain ⟨l, L, hled, htake⟩ := h i e hi
  obtain ⟨L', hled', hpre⟩ := hgrow _ _ _ hled
  have hlen : i + 1 ≤ L.length :=
    le_length_of_take_eq htake.symm (List.getElem?_eq_some_iff.1 hi).1
  exact ⟨l, L', hled', htake.trans (take_eq_of_isPrefix hpre hlen).symm⟩

theorem Sound.take (h : Sound tm s F) (n : ℕ) : Sound tm s (F.take n) := by
  intro i e hi
  rw [List.getElem?_take] at hi
  by_cases hin : i < n
  · rw [if_pos hin] at hi
    obtain ⟨l, L, hled, htake⟩ := h i e hi
    refine ⟨l, L, hled, ?_⟩
    rw [List.take_take, min_eq_left (by omega)]
    exact htake
  · rw [if_neg hin] at hi
    exact absurd hi (by simp)

/-- Up to the lower of two entries of one term, the logs that hold them agree. -/
theorem Sound.agree_min (hF : Sound tm s F) (hG : Sound tm s G) {i j : ℕ} {e e' : ε}
    (he : F[i]? = some e) (he' : G[j]? = some e') (htm : tm e = tm e') :
    F.take (min i j + 1) = G.take (min i j + 1) := by
  obtain ⟨l, L, hled, htake⟩ := hF i e he
  obtain ⟨l', L', hled', htake'⟩ := hG j e' he'
  rw [htm, hled'] at hled
  have hLL : L' = L := (Prod.ext_iff.1 (Option.some.inj hled)).2
  rw [take_eq_of_le htake (by omega), take_eq_of_le htake' (by omega), hLL]

/-- **Logs agree up to any entry they share.**  An entry is shared when the
position and the term are. -/
theorem Sound.agree (hF : Sound tm s F) (hG : Sound tm s G) {i : ℕ} {e e' : ε}
    (he : F[i]? = some e) (he' : G[i]? = some e') (htm : tm e = tm e') :
    F.take (i + 1) = G.take (i + 1) := by
  have htake := hF.agree_min hG he he' htm
  rwa [min_self] at htake

theorem exists_last (tm : ε → ℕ) (hne : F ≠ []) :
    ∃ e, F[F.length - 1]? = some e ∧ lastTerm tm F = tm e := by
  refine ⟨F.getLast hne, ?_, ?_⟩
  · rw [← List.getLast?_eq_getElem?, List.getLast?_eq_some_getLast hne]
  · rw [lastTerm, List.getLast?_eq_some_getLast hne]
    rfl

/-- A log is a prefix of the log of the leader of its last term. -/
theorem Sound.eq_take (h : Sound tm s F) (hne : F ≠ []) :
    ∃ l L, s.led (lastTerm tm F) = some (l, L) ∧ F.take F.length = L.take F.length := by
  obtain ⟨e, he, hte⟩ := exists_last tm hne
  obtain ⟨l, L, hled, htake⟩ := h _ _ he
  have hpos : 0 < F.length := List.length_pos_iff.2 hne
  rw [show F.length - 1 + 1 = F.length by omega] at htake
  exact ⟨l, L, by rw [hte]; exact hled, htake⟩

/-- What holds of the logs in every reachable state. -/
structure LogInv (tm : ε → ℕ) (s : State ν ε) : Prop where
  /-- The leader's log is the one recorded for its term. -/
  leader_led : ∀ v, s.role v = .leader → s.led (s.term v) = some (v, s.log v)
  sound_log : ∀ v, Sound tm s (s.log v)
  sound_led : ∀ T l L, s.led T = some (l, L) → Sound tm s L
  sound_cand : ∀ c T F, s.cand c T = some F → Sound tm s F
  sound_vote : ∀ b ∈ s.votes, Sound tm s b.log
  log_le : ∀ v, ∀ e ∈ s.log v, tm e ≤ s.term v
  led_le : ∀ T l L, s.led T = some (l, L) → ∀ e ∈ L, tm e ≤ T
  led_sorted : ∀ T l L, s.led T = some (l, L) → L.Pairwise fun e e' => tm e ≤ tm e'

theorem LogInv.init : LogInv tm (State.init : State ν ε) where
  leader_led := by intro v h; simp at h
  sound_log := fun _ => Sound.nil
  sound_led := by intro T l L h; simp at h
  sound_cand := by intro c T F h; simp at h
  sound_vote := by intro b hb; simp at hb
  log_le := by intro v e he; simp at he
  led_le := by intro T l L h; simp at h
  led_sorted := by intro T l L h; simp at h

/-- Terms do not decrease along a leader's log. -/
theorem LogInv.led_mono (h : LogInv tm s) {T : ℕ} {l : ν} {L : List ε} {i j : ℕ} {e e' : ε}
    (hled : s.led T = some (l, L)) (hi : L[i]? = some e) (hj : L[j]? = some e') (hij : i ≤ j) :
    tm e ≤ tm e' := by
  obtain ⟨hi', rfl⟩ := List.getElem?_eq_some_iff.1 hi
  obtain ⟨hj', rfl⟩ := List.getElem?_eq_some_iff.1 hj
  rcases hij.eq_or_lt with rfl | hlt
  · exact le_refl _
  · exact List.pairwise_iff_getElem.1 (h.led_sorted T l L hled) i j hi' hj' hlt

/-- Terms do not decrease along a log. -/
theorem LogInv.sorted (h : LogInv tm s) (hF : Sound tm s F) :
    F.Pairwise fun e e' => tm e ≤ tm e' := by
  by_cases hne : F = []
  · subst hne; exact List.Pairwise.nil
  · obtain ⟨l, L, hled, htake⟩ := hF.eq_take hne
    rw [List.take_length] at htake
    rw [htake]
    exact (h.led_sorted _ _ _ hled).sublist (List.take_sublist _ _)

/-- No entry of a log is from a later term than its last one. -/
theorem LogInv.le_lastTerm (h : LogInv tm s) (hF : Sound tm s F) {i : ℕ} {e : ε}
    (he : F[i]? = some e) : tm e ≤ lastTerm tm F := by
  have hmem : e ∈ F := List.mem_of_getElem? he
  have hne : F ≠ [] := List.ne_nil_of_mem hmem
  obtain ⟨l, L, hled, htake⟩ := hF.eq_take hne
  refine h.led_le _ _ _ hled e ?_
  rw [List.take_length] at htake
  rw [htake] at hmem
  exact List.mem_of_mem_take hmem

/-! ## Every step keeps the invariant -/

/-- A step that changes no log and no leader keeps the invariant, provided
terms do not decrease and nobody becomes a leader. -/
theorem LogInv.of_grows (h : LogInv tm s) (hled : s'.led = s.led) (hlog : s'.log = s.log)
    (hterm : ∀ u, s.term u ≤ s'.term u)
    (hrole : ∀ u, s'.role u = .leader → s.role u = .leader ∧ s'.term u = s.term u)
    (hcand : ∀ c T F, s'.cand c T = some F → Sound tm s F)
    (hvotes : ∀ b ∈ s'.votes, Sound tm s b.log) : LogInv tm s' := by
  have hgrow : LedGrows s s' := fun T l L hl => ⟨L, by rw [hled]; exact hl, List.prefix_refl L⟩
  refine ⟨?_, ?_, ?_, ?_, ?_, ?_, ?_, ?_⟩
  · intro u hu
    obtain ⟨hr, ht⟩ := hrole u hu
    rw [hled, hlog, ht]
    exact h.leader_led u hr
  · intro u
    rw [hlog]
    exact (h.sound_log u).mono hgrow
  · intro T l L hl
    rw [hled] at hl
    exact (h.sound_led T l L hl).mono hgrow
  · exact fun c T F hF => (hcand c T F hF).mono hgrow
  · exact fun b hb => (hvotes b hb).mono hgrow
  · intro u e he
    rw [hlog] at he
    exact (h.log_le u e he).trans (hterm u)
  · rw [hled]; exact h.led_le
  · rw [hled]; exact h.led_sorted

variable [DecidableEq ν]

theorem LogInv.observe (h : LogInv tm s) {T : ℕ} (hT : s.term v < T) :
    LogInv tm (s.observe v T) := by
  refine h.of_grows rfl rfl ?_ ?_ h.sound_cand h.sound_vote
  · intro u
    by_cases hu : u = v
    · subst hu; simpa using hT.le
    · simp [hu]
  · intro u hr
    by_cases hu : u = v
    · subst hu; simp at hr
    · simpa [hu] using hr

theorem LogInv.campaign (h : LogInv tm s) : LogInv tm (s.campaign v) := by
  refine h.of_grows rfl rfl ?_ ?_ ?_ ?_
  · intro u
    by_cases hu : u = v
    · subst hu; simp
    · simp [hu]
  · intro u hr
    by_cases hu : u = v
    · subst hu; simp at hr
    · simpa [hu] using hr
  · intro c T F hF
    by_cases hc : c = v
    · subst hc
      by_cases hT : T = s.term c + 1
      · subst hT
        simp only [State.campaign_cand, Function.update_self, Option.some.injEq] at hF
        rw [← hF]
        exact h.sound_log c
      · simp only [State.campaign_cand, Function.update_self, ne_eq, hT, not_false_eq_true,
          Function.update_of_ne] at hF
        exact h.sound_cand c T F hF
    · simp only [State.campaign_cand, ne_eq, hc, not_false_eq_true, Function.update_of_ne] at hF
      exact h.sound_cand c T F hF
  · rintro b (rfl | hb)
    · exact h.sound_log v
    · exact h.sound_vote b hb

theorem LogInv.grant (h : LogInv tm s) (c : ν) : LogInv tm (s.grant v c) := by
  refine h.of_grows rfl rfl (fun _ => le_refl _) (fun u hu => ⟨hu, rfl⟩) h.sound_cand ?_
  rintro b (rfl | hb)
  · exact h.sound_log v
  · exact h.sound_vote b hb

theorem LogInv.stepDown (h : LogInv tm s) : LogInv tm (s.stepDown v) := by
  refine h.of_grows rfl rfl (fun _ => le_refl _) ?_ h.sound_cand h.sound_vote
  intro u hr
  by_cases hu : u = v
  · subst hu; simp at hr
  · simpa [hu] using hr

theorem ledGrows_elect (hnone : s.led (s.term v) = none) : LedGrows s (s.elect v) := by
  intro T l L hl
  have hT : T ≠ s.term v := by rintro rfl; rw [hnone] at hl; exact absurd hl (by simp)
  exact ⟨L, by simp [hT, hl], List.prefix_refl L⟩

theorem LogInv.elect (h : LogInv tm s) (hnone : s.led (s.term v) = none) :
    LogInv tm (s.elect v) := by
  have hgrow : LedGrows s (s.elect v) := ledGrows_elect hnone
  -- a leader after the step is `v` with its own log, or was recorded before
  have hcases : ∀ T l L, (s.elect v).led T = some (l, L) →
      T = s.term v ∧ l = v ∧ L = s.log v ∨ s.led T = some (l, L) := by
    intro T l L hl
    by_cases hT : T = s.term v
    · subst hT
      simp only [State.elect_led, Function.update_self, Option.some.injEq, Prod.mk.injEq] at hl
      exact Or.inl ⟨rfl, hl.1.symm, hl.2.symm⟩
    · exact Or.inr (by simpa [hT] using hl)
  refine ⟨?_, fun u => (h.sound_log u).mono hgrow, ?_, fun c T F hF => (h.sound_cand c T F hF).mono
    hgrow, fun b hb => (h.sound_vote b hb).mono hgrow, h.log_le, ?_, ?_⟩
  · intro u hu
    by_cases huv : u = v
    · subst huv; simp
    · simp only [State.elect_role, ne_eq, huv, not_false_eq_true, Function.update_of_ne] at hu
      have hne : s.term u ≠ s.term v := by
        intro heq
        have := h.leader_led u hu
        rw [heq, hnone] at this
        exact absurd this (by simp)
      simp only [State.elect_led, State.elect_term, State.elect_log, ne_eq, hne,
        not_false_eq_true, Function.update_of_ne]
      exact h.leader_led u hu
  · intro T l L hl
    rcases hcases T l L hl with ⟨-, -, rfl⟩ | hl
    · exact (h.sound_log v).mono hgrow
    · exact (h.sound_led T l L hl).mono hgrow
  · intro T l L hl
    rcases hcases T l L hl with ⟨rfl, -, rfl⟩ | hl
    · exact h.log_le v
    · exact h.led_le T l L hl
  · intro T l L hl
    rcases hcases T l L hl with ⟨-, -, rfl⟩ | hl
    · exact h.sorted (h.sound_log v)
    · exact h.led_sorted T l L hl

theorem ledGrows_propose {e : ε} (hled : s.led (s.term v) = some (v, s.log v)) :
    LedGrows s (s.propose v e) := by
  intro T l L hl
  by_cases hT : T = s.term v
  · subst hT
    rw [hled, Option.some.injEq, Prod.mk.injEq] at hl
    obtain ⟨rfl, rfl⟩ := hl
    exact ⟨s.log v ++ [e], by simp, List.prefix_append _ _⟩
  · exact ⟨L, by simp [hT, hl], List.prefix_refl L⟩

theorem LogInv.propose (h : LogInv tm s) {e : ε} (hrole : s.role v = .leader)
    (he : tm e = s.term v)
    (huniq : ∀ u, s.role u = .leader → s.term u = s.term v → u = v) :
    LogInv tm (s.propose v e) := by
  have hled := h.leader_led v hrole
  have hgrow : LedGrows s (s.propose v e) := ledGrows_propose hled
  have hnew : Sound tm (s.propose v e) (s.log v ++ [e]) := by
    intro i x hx
    by_cases hi : i < (s.log v).length
    · rw [List.getElem?_append_left hi] at hx
      obtain ⟨l, L, hl, htake⟩ := (h.sound_log v).mono hgrow i x hx
      refine ⟨l, L, hl, ?_⟩
      rw [List.take_append_of_le_length (by omega)]
      exact htake
    · have hlen := (List.getElem?_eq_some_iff.1 hx).1
      rw [List.length_append, List.length_singleton] at hlen
      have hi' : i = (s.log v).length := by omega
      subst hi'
      simp only [List.getElem?_concat_length, Option.some.injEq] at hx
      subst hx
      exact ⟨v, s.log v ++ [e], by simp [he], rfl⟩
  have hcases : ∀ T l L, (s.propose v e).led T = some (l, L) →
      T = s.term v ∧ l = v ∧ L = s.log v ++ [e] ∨ s.led T = some (l, L) := by
    intro T l L hl
    by_cases hT : T = s.term v
    · subst hT
      simp only [State.propose_led, Function.update_self, Option.some.injEq,
        Prod.mk.injEq] at hl
      exact Or.inl ⟨rfl, hl.1.symm, hl.2.symm⟩
    · exact Or.inr (by simpa [hT] using hl)
  refine ⟨?_, ?_, ?_, fun c T F hF => (h.sound_cand c T F hF).mono hgrow,
    fun b hb => (h.sound_vote b hb).mono hgrow, ?_, ?_, ?_⟩
  · intro u hu
    by_cases huv : u = v
    · subst huv; simp
    · have hne : s.term u ≠ s.term v := fun heq => huv (huniq u hu heq)
      simp only [State.propose_led, State.propose_term, State.propose_log, ne_eq, hne, huv,
        not_false_eq_true, Function.update_of_ne]
      exact h.leader_led u hu
  · intro u
    by_cases huv : u = v
    · subst huv; simpa using hnew
    · simpa [huv] using (h.sound_log u).mono hgrow
  · intro T l L hl
    rcases hcases T l L hl with ⟨-, -, rfl⟩ | hl
    · exact hnew
    · exact (h.sound_led T l L hl).mono hgrow
  · intro u x hx
    by_cases huv : u = v
    · subst huv
      simp only [State.propose_log, Function.update_self, List.mem_append,
        List.mem_singleton] at hx
      rcases hx with hx | rfl
      · exact h.log_le u x hx
      · exact he.le
    · simp only [State.propose_log, ne_eq, huv, not_false_eq_true, Function.update_of_ne] at hx
      exact h.log_le u x hx
  · intro T l L hl x hx
    rcases hcases T l L hl with ⟨rfl, -, rfl⟩ | hl
    · rcases List.mem_append.1 hx with hx | hx
      · exact h.log_le v x hx
      · rw [List.mem_singleton.1 hx]; exact he.le
    · exact h.led_le T l L hl x hx
  · intro T l L hl
    rcases hcases T l L hl with ⟨-, -, rfl⟩ | hl
    · rw [List.pairwise_append]
      refine ⟨h.sorted (h.sound_log v), List.pairwise_singleton _ _, ?_⟩
      intro x hx y hy
      rw [List.mem_singleton.1 hy, he]
      exact h.log_le v x hx
    · exact h.led_sorted T l L hl

/-- Replacing a log by a prefix of a leader's log keeps the invariant. -/
theorem LogInv.setLog (h : LogInv tm s) {T k : ℕ} {l : ν} {L : List ε}
    (hled : s.led T = some (l, L)) (hT : T ≤ s.term v)
    (hlead : s.role v = .leader → L.take k = s.log v) : LogInv tm (s.setLog v (L.take k)) where
  leader_led := by
    intro u hu
    by_cases huv : u = v
    · subst huv
      simp only [State.setLog_led, State.setLog_term, State.setLog_log, Function.update_self]
      rw [hlead hu]
      exact h.leader_led u hu
    · simpa [huv] using h.leader_led u hu
  sound_log := by
    intro u
    by_cases huv : u = v
    · subst huv
      have hs : Sound tm (s.setLog u (L.take k)) (L.take k) := (h.sound_led T l L hled).take k
      simpa using hs
    · have hs : Sound tm (s.setLog v (L.take k)) (s.log u) := h.sound_log u
      simpa [huv] using hs
  sound_led := h.sound_led
  sound_cand := h.sound_cand
  sound_vote := h.sound_vote
  log_le := by
    intro u x hx
    by_cases huv : u = v
    · subst huv
      simp only [State.setLog_log, Function.update_self] at hx
      exact (h.led_le T l L hled x (List.mem_of_mem_take hx)).trans hT
    · simp only [State.setLog_log, ne_eq, huv, not_false_eq_true, Function.update_of_ne] at hx
      exact h.log_le u x hx
  led_le := h.led_le
  led_sorted := h.led_sorted

end ReplicatedLog
