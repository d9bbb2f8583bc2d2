import B5KvStore.Lib.ReplicatedLog.Protocol

/-!
# At most one leader for each term

The ballots of a term are cast once and for all: a participant that has voted
keeps its vote until it leaves the term, and it never comes back to one.  Two
winners of a term would each hold a quorum of its ballots, the quorums share a
voter, and that voter named one candidate only.

* `ElectionInv` — the invariant, one field for each fact about ballots.
* `ElectionInv.step` — every step keeps it.
* `ElectionInv.led_eq_none` — nobody leads a term that is about to be won.
-/

namespace ReplicatedLog

open QuorumSystem

variable {ν ε : Type*}

/-- The set of participants that voted for `c` in term `T`. -/
def State.voters (s : State ν ε) (T : ℕ) (c : ν) : Set ν := {w | ∃ F, ⟨w, T, c, F⟩ ∈ s.votes}

theorem upToDate_refl (tm : ε → ℕ) (F : List ε) : UpToDate tm F F := Or.inr ⟨rfl, le_refl _⟩

/-- What holds of the ballots and the leaders in every reachable state. -/
structure ElectionInv (tm : ε → ℕ) (𝒬 : Quorums ν) (s : State ν ε) : Prop where
  /-- Nobody has voted in a term it has not reached. -/
  vote_le : ∀ b ∈ s.votes, b.term ≤ s.term b.voter
  /-- While it stays in the term, a voter remembers whom it voted for. -/
  vote_current : ∀ b ∈ s.votes, b.term = s.term b.voter → s.vote b.voter = some b.cand
  /-- One ballot a term. -/
  vote_unique : ∀ b ∈ s.votes, ∀ b' ∈ s.votes, b.voter = b'.voter → b.term = b'.term →
    b.cand = b'.cand
  /-- Ballots name candidates whose log was at least as up to date. -/
  vote_cand : ∀ b ∈ s.votes, ∃ F, s.cand b.cand b.term = some F ∧ UpToDate tm F b.log
  cand_le : ∀ c T F, s.cand c T = some F → T ≤ s.term c ∧ 1 ≤ T
  /-- A candidate has not won its term yet. -/
  candidate_not_led : ∀ v, s.role v = .candidate → ∀ L, s.led (s.term v) ≠ some (v, L)
  /-- Leaders won their term by a quorum of ballots. -/
  led_won : ∀ T c L, s.led T = some (c, L) → T ≤ s.term c ∧ 1 ≤ T ∧ 𝒬.IsQuorum (s.voters T c)

variable {tm : ε → ℕ} {𝒬 : Quorums ν} {v : ν} {s s' : State ν ε}

theorem ElectionInv.init : ElectionInv tm 𝒬 (State.init : State ν ε) where
  vote_le := by intro b hb; simp at hb
  vote_current := by intro b hb; simp at hb
  vote_unique := by intro b hb; simp at hb
  vote_cand := by intro b hb; simp at hb
  cand_le := by intro c T F h; simp at h
  candidate_not_led := by intro v h; simp at h
  led_won := by intro T c L h; simp at h

/-- The leader of a term is the only one who can win it. -/
theorem ElectionInv.led_unique (h : ElectionInv tm 𝒬 s) {T : ℕ} {c l : ν} {L : List ε}
    (hled : s.led T = some (l, L)) (hQ : 𝒬.IsQuorum (s.voters T c)) : l = c := by
  obtain ⟨w, ⟨F, hw⟩, ⟨F', hw'⟩⟩ := 𝒬.inter (h.led_won T l L hled).2.2 hQ
  exact h.vote_unique _ hw _ hw' rfl rfl

/-- A term that is about to be won has no leader yet. -/
theorem ElectionInv.led_eq_none (h : ElectionInv tm 𝒬 s) (hrole : s.role v = .candidate)
    (hQ : 𝒬.IsQuorum (s.voters (s.term v) v)) : s.led (s.term v) = none := by
  cases hl : s.led (s.term v) with
  | none => rfl
  | some p =>
      obtain ⟨l, L⟩ := p
      have hlv : l = v := h.led_unique hl hQ
      subst hlv
      exact absurd hl (h.candidate_not_led l hrole L)

theorem State.voters_mono {T : ℕ} {c : ν} (h : s.votes ⊆ s'.votes) :
    s.voters T c ⊆ s'.voters T c := by
  rintro w ⟨F, hF⟩
  exact ⟨F, h hF⟩

/-! ## Every step keeps the invariant -/

/-- A step that leaves terms, votes, roles and the election history alone keeps
the invariant. -/
theorem ElectionInv.of_eq (h : ElectionInv tm 𝒬 s) (hterm : s'.term = s.term)
    (hvote : s'.vote = s.vote) (hrole : s'.role = s.role) (hcand : s'.cand = s.cand)
    (hvotes : s'.votes = s.votes) (hled : s'.led = s.led) : ElectionInv tm 𝒬 s' where
  vote_le := by rw [hvotes, hterm]; exact h.vote_le
  vote_current := by rw [hvotes, hterm, hvote]; exact h.vote_current
  vote_unique := by rw [hvotes]; exact h.vote_unique
  vote_cand := by rw [hvotes, hcand]; exact h.vote_cand
  cand_le := by rw [hcand, hterm]; exact h.cand_le
  candidate_not_led := by rw [hrole, hled, hterm]; exact h.candidate_not_led
  led_won := by rw [hled, hterm]; unfold State.voters; rw [hvotes]; exact h.led_won

variable [DecidableEq ν]

theorem ElectionInv.observe (h : ElectionInv tm 𝒬 s) {T : ℕ} (hT : s.term v < T) :
    ElectionInv tm 𝒬 (s.observe v T) where
  vote_le := by
    intro b hb
    have hle := h.vote_le b hb
    by_cases hv : b.voter = v
    · simp only [State.observe_term, hv, Function.update_self]
      rw [hv] at hle
      omega
    · simpa [hv] using hle
  vote_current := by
    intro b hb hbT
    have hle := h.vote_le b hb
    by_cases hv : b.voter = v
    · simp only [State.observe_term, hv, Function.update_self] at hbT
      rw [hv] at hle
      omega
    · simp only [State.observe_term, State.observe_vote, ne_eq, hv, not_false_eq_true,
        Function.update_of_ne] at hbT ⊢
      exact h.vote_current b hb hbT
  vote_unique := h.vote_unique
  vote_cand := h.vote_cand
  cand_le := by
    intro c T' F hF
    have hle := h.cand_le c T' F hF
    by_cases hv : c = v
    · subst hv
      simp only [State.observe_term, Function.update_self]
      omega
    · simpa [hv] using hle
  candidate_not_led := by
    intro u hu L
    by_cases hv : u = v
    · subst hv; simp at hu
    · simp only [State.observe_role, State.observe_term, State.observe_led, ne_eq, hv,
        not_false_eq_true, Function.update_of_ne] at hu ⊢
      exact h.candidate_not_led u hu L
  led_won := by
    intro T' c L hl
    obtain ⟨hle, hpos, hQ⟩ := h.led_won T' c L hl
    refine ⟨?_, hpos, hQ⟩
    by_cases hv : c = v
    · subst hv
      simp only [State.observe_term, Function.update_self]
      omega
    · simpa [hv] using hle

theorem ElectionInv.campaign (h : ElectionInv tm 𝒬 s) : ElectionInv tm 𝒬 (s.campaign v) where
  vote_le := by
    intro b hb
    rcases hb with rfl | hb
    · simp
    · have hle := h.vote_le b hb
      by_cases hv : b.voter = v
      · simp only [State.campaign_term, hv, Function.update_self]
        rw [hv] at hle
        omega
      · simpa [hv] using hle
  vote_current := by
    intro b hb hbT
    rcases hb with rfl | hb
    · simp
    · have hle := h.vote_le b hb
      by_cases hv : b.voter = v
      · simp only [State.campaign_term, hv, Function.update_self] at hbT
        rw [hv] at hle
        omega
      · simp only [State.campaign_term, State.campaign_vote, ne_eq, hv, not_false_eq_true,
          Function.update_of_ne] at hbT ⊢
        exact h.vote_current b hb hbT
  vote_unique := by
    -- an older ballot of `v` is from an earlier term
    have hold : ∀ b ∈ s.votes, b.voter = v → b.term ≠ s.term v + 1 := by
      intro b hb hv
      have hle := h.vote_le b hb
      rw [hv] at hle
      omega
    rintro b hb b' hb' hvv htt
    rcases hb with rfl | hb <;> rcases hb' with rfl | hb'
    · rfl
    · exact absurd htt.symm (hold b' hb' hvv.symm)
    · exact absurd htt (hold b hb hvv)
    · exact h.vote_unique b hb b' hb' hvv htt
  vote_cand := by
    intro b hb
    rcases hb with rfl | hb
    · exact ⟨s.log v, by simp, upToDate_refl tm _⟩
    · obtain ⟨F, hF, hup⟩ := h.vote_cand b hb
      refine ⟨F, ?_, hup⟩
      by_cases hc : b.cand = v
      · have hne : b.term ≠ s.term v + 1 := by
          have := (h.cand_le _ _ _ hF).1
          rw [hc] at this
          omega
        rw [hc] at hF
        simp [hc, hne, hF]
      · simp [hc, hF]
  cand_le := by
    intro c T F hF
    by_cases hc : c = v
    · subst hc
      simp only [State.campaign_term, Function.update_self]
      by_cases hT : T = s.term c + 1
      · omega
      · simp only [State.campaign_cand, Function.update_self, ne_eq, hT, not_false_eq_true,
          Function.update_of_ne] at hF
        have := h.cand_le c T F hF
        omega
    · simp only [State.campaign_cand, State.campaign_term, ne_eq, hc, not_false_eq_true,
        Function.update_of_ne] at hF ⊢
      exact h.cand_le c T F hF
  candidate_not_led := by
    intro u hu L hl
    by_cases hv : u = v
    · subst hv
      simp only [State.campaign_term, State.campaign_led, Function.update_self] at hl
      have := (h.led_won _ _ _ hl).1
      omega
    · simp only [State.campaign_role, State.campaign_term, State.campaign_led, ne_eq, hv,
        not_false_eq_true, Function.update_of_ne] at hu hl
      exact h.candidate_not_led u hu L hl
  led_won := by
    intro T c L hl
    obtain ⟨hle, hpos, hQ⟩ := h.led_won T c L hl
    refine ⟨?_, hpos, 𝒬.mono (State.voters_mono (Set.subset_insert _ _)) hQ⟩
    by_cases hv : c = v
    · subst hv
      simp only [State.campaign_term, Function.update_self]
      omega
    · simpa [hv] using hle

theorem ElectionInv.grant (h : ElectionInv tm 𝒬 s) {c : ν} {F : List ε}
    (hF : s.cand c (s.term v) = some F) (hvote : s.vote v = none ∨ s.vote v = some c)
    (hup : UpToDate tm F (s.log v)) : ElectionInv tm 𝒬 (s.grant v c) where
  vote_le := by
    intro b hb
    rcases hb with rfl | hb
    · simp
    · exact h.vote_le b hb
  vote_current := by
    intro b hb hbT
    rcases hb with rfl | hb
    · simp
    · have hcur := h.vote_current b hb hbT
      by_cases hv : b.voter = v
      · rw [hv] at hcur
        rcases hvote with hnone | hsome
        · rw [hnone] at hcur; exact absurd hcur (by simp)
        · rw [hcur] at hsome
          simp only [State.grant_vote, hv, Function.update_self]
          exact hsome.symm
      · simpa [hv] using hcur
  vote_unique := by
    -- an older ballot of `v` in this term already named `c`
    have hold : ∀ b ∈ s.votes, b.voter = v → b.term = s.term v → b.cand = c := by
      intro b hb hv hT
      have hcur := h.vote_current b hb (by rw [hv]; exact hT)
      rw [hv] at hcur
      rcases hvote with hnone | hsome
      · rw [hnone] at hcur; exact absurd hcur (by simp)
      · rw [hcur] at hsome; exact Option.some.inj hsome
    rintro b hb b' hb' hvv htt
    rcases hb with rfl | hb <;> rcases hb' with rfl | hb'
    · rfl
    · exact (hold b' hb' hvv.symm htt.symm).symm
    · exact hold b hb hvv htt
    · exact h.vote_unique b hb b' hb' hvv htt
  vote_cand := by
    intro b hb
    rcases hb with rfl | hb
    · exact ⟨F, hF, hup⟩
    · exact h.vote_cand b hb
  cand_le := h.cand_le
  candidate_not_led := h.candidate_not_led
  led_won := by
    intro T l L hl
    obtain ⟨hle, hpos, hQ⟩ := h.led_won T l L hl
    exact ⟨hle, hpos, 𝒬.mono (State.voters_mono (Set.subset_insert _ _)) hQ⟩

theorem ElectionInv.elect (h : ElectionInv tm 𝒬 s)
    (hQ : 𝒬.IsQuorum (s.voters (s.term v) v)) : ElectionInv tm 𝒬 (s.elect v) where
  vote_le := h.vote_le
  vote_current := h.vote_current
  vote_unique := h.vote_unique
  vote_cand := h.vote_cand
  cand_le := h.cand_le
  candidate_not_led := by
    intro u hu L
    by_cases hv : u = v
    · subst hv; simp at hu
    · simp only [State.elect_role, ne_eq, hv, not_false_eq_true, Function.update_of_ne] at hu
      by_cases hT : s.term u = s.term v
      · simp only [State.elect_term, State.elect_led, hT, Function.update_self]
        intro heq
        exact hv (Prod.ext_iff.1 (Option.some.inj heq)).1.symm
      · simp only [State.elect_term, State.elect_led, ne_eq, hT, not_false_eq_true,
          Function.update_of_ne]
        exact h.candidate_not_led u hu L
  led_won := by
    intro T c L hl
    by_cases hT : T = s.term v
    · subst hT
      simp only [State.elect_led, Function.update_self, Option.some.injEq, Prod.mk.injEq] at hl
      obtain ⟨rfl, rfl⟩ := hl
      obtain ⟨w, ⟨F, hw⟩, -⟩ := 𝒬.inter hQ hQ
      obtain ⟨G, hG, -⟩ := h.vote_cand _ hw
      exact ⟨le_refl _, (h.cand_le _ _ _ hG).2, hQ⟩
    · simp only [State.elect_led, ne_eq, hT, not_false_eq_true, Function.update_of_ne] at hl
      exact h.led_won T c L hl

theorem ElectionInv.propose (h : ElectionInv tm 𝒬 s) {e : ε} {L : List ε}
    (hled : s.led (s.term v) = some (v, L)) : ElectionInv tm 𝒬 (s.propose v e) where
  vote_le := h.vote_le
  vote_current := h.vote_current
  vote_unique := h.vote_unique
  vote_cand := h.vote_cand
  cand_le := h.cand_le
  candidate_not_led := by
    intro u hu L'
    by_cases hT : s.term u = s.term v
    · simp only [State.propose_term, State.propose_led, hT, Function.update_self]
      intro heq
      have hvu : v = u := (Prod.ext_iff.1 (Option.some.inj heq)).1
      subst hvu
      exact h.candidate_not_led v hu L hled
    · simp only [State.propose_term, State.propose_led, ne_eq, hT, not_false_eq_true,
        Function.update_of_ne]
      exact h.candidate_not_led u hu L'
  led_won := by
    intro T c L' hl
    by_cases hT : T = s.term v
    · subst hT
      simp only [State.propose_led, Function.update_self, Option.some.injEq, Prod.mk.injEq] at hl
      obtain ⟨rfl, -⟩ := hl
      exact h.led_won _ _ _ hled
    · simp only [State.propose_led, ne_eq, hT, not_false_eq_true, Function.update_of_ne] at hl
      exact h.led_won T c L' hl

theorem ElectionInv.stepDown (h : ElectionInv tm 𝒬 s) : ElectionInv tm 𝒬 (s.stepDown v) where
  vote_le := h.vote_le
  vote_current := h.vote_current
  vote_unique := h.vote_unique
  vote_cand := h.vote_cand
  cand_le := h.cand_le
  candidate_not_led := by
    intro u hu L
    by_cases hv : u = v
    · subst hv; simp at hu
    · simp only [State.stepDown_role, ne_eq, hv, not_false_eq_true, Function.update_of_ne] at hu
      exact h.candidate_not_led u hu L
  led_won := h.led_won

end ReplicatedLog
