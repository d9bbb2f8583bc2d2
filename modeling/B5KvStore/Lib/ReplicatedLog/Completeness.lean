import B5KvStore.Lib.ReplicatedLog.Logs

/-!
# Leaders hold everything that was committed before them

A prefix of the term-`T` leader's log is *choosable* while a quorum has
acknowledged it or can still do so.  Acknowledging in term `T` is over for
whoever has left the term, so choosable prefixes only become fewer; and every
later leader holds every choosable prefix (`QuorumInv.complete`).  The reason is
the ballots: the quorum that elected the later leader and the quorum that makes
the prefix choosable share a voter, the voter had acknowledged the prefix before
it voted, and it voted for a log at least as up to date as its own.

* `QuorumInv` — the invariant about acknowledgements.
* `QuorumInv.step` — every step keeps it.
* `Inv`, `Reachable.inv` — all of it together, for every reachable state.
* `Inv.commit_complete`, `Inv.commit_agree` — what the layer above uses.
-/

namespace ReplicatedLog

open QuorumSystem

variable {ν ε : Type*} {tm : ε → ℕ} {𝒬 : Quorums ν} {v : ν} {s s' : State ν ε}

/-- Some leader after term `T` does not hold the first `N` entries of `L`. -/
def Lacks (s : State ν ε) (T : ℕ) (L : List ε) (N : ℕ) : Prop :=
  ∃ T' l' L', T < T' ∧ s.led T' = some (l', L') ∧ L'.take N ≠ L.take N

/-- A quorum has acknowledged the first `N` entries in term `T`, or is still in
a position to do so. -/
def Choosable (𝒬 : Quorums ν) (s : State ν ε) (T N : ℕ) : Prop :=
  𝒬.IsQuorum {w | (∃ m, N ≤ m ∧ (w, T, m) ∈ s.acks) ∨ s.term w ≤ T}

/-- What holds of acknowledgements and commits in every reachable state. -/
structure QuorumInv (tm : ε → ℕ) (𝒬 : Quorums ν) (s : State ν ε) : Prop where
  ack_le : ∀ w T m, (w, T, m) ∈ s.acks → T ≤ s.term w ∧
    ∃ l L, s.led T = some (l, L) ∧ m ≤ L.length
  /-- What was acknowledged is still in the log, unless a later leader did
  without it. -/
  ack_log : ∀ w T m l L N, (w, T, m) ∈ s.acks → s.led T = some (l, L) → N ≤ m →
    (s.log w).take N = L.take N ∨ Lacks s T L N
  /-- Likewise for the log a later ballot was cast with. -/
  ack_vote : ∀ w T m l L N, (w, T, m) ∈ s.acks → s.led T = some (l, L) → N ≤ m →
    ∀ b ∈ s.votes, b.voter = w → T < b.term → b.log.take N = L.take N ∨ Lacks s T L N
  /-- Nothing acknowledged in the current term has been lost. -/
  ack_held : ∀ w m l L, (w, s.term w, m) ∈ s.acks → s.led (s.term w) = some (l, L) →
    (s.log w).take m = L.take m
  /-- Later leaders hold every choosable prefix. -/
  complete : ∀ T l L T' l' L' N e, s.led T = some (l, L) → s.led T' = some (l', L') → T < T' →
    L[N]? = some e → tm e = T → Choosable 𝒬 s T (N + 1) → L'.take (N + 1) = L.take (N + 1)
  commit : ∀ T N, (T, N) ∈ s.commits → ∃ n l L e, N = n + 1 ∧ s.led T = some (l, L) ∧
    L[n]? = some e ∧ tm e = T ∧ 𝒬.IsQuorum {w | ∃ m, n < m ∧ (w, T, m) ∈ s.acks}
  /-- A candidate's log is the one it put forward, or a committed prefix it has
  adopted since. -/
  candidate_log : ∀ v, s.role v = .candidate → ∃ F, s.cand v (s.term v) = some F ∧
    (s.log v = F ∨ ∃ T N l L, (T, N) ∈ s.commits ∧ T ≤ s.term v ∧ s.led T = some (l, L) ∧
      (s.log v).length ≤ N ∧ F.length ≤ (s.log v).length ∧ s.log v = L.take (s.log v).length)

theorem QuorumInv.init : QuorumInv tm 𝒬 (State.init : State ν ε) where
  ack_le := by intro w T m h; simp at h
  ack_log := by intro w T m l L N h; simp at h
  ack_vote := by intro w T m l L N h; simp at h
  ack_held := by intro w m l L h; simp at h
  complete := by intro T l L T' l' L' N e h; simp at h
  commit := by intro T N h; simp at h
  candidate_log := by intro v h; simp at h

/-- The three invariants together. -/
structure Inv (tm : ε → ℕ) (𝒬 : Quorums ν) (s : State ν ε) : Prop where
  elections : ElectionInv tm 𝒬 s
  logs : LogInv tm s
  quorums : QuorumInv tm 𝒬 s

theorem Inv.init : Inv tm 𝒬 (State.init : State ν ε) := ⟨.init, .init, .init⟩

/-! ## What the invariant says about committed prefixes -/

theorem choosable_of_acked {T n : ℕ}
    (hQ : 𝒬.IsQuorum {w | ∃ m, n < m ∧ (w, T, m) ∈ s.acks}) : Choosable 𝒬 s T (n + 1) := by
  refine 𝒬.mono ?_ hQ
  rintro w ⟨m, hm, hw⟩
  exact Or.inl ⟨m, hm, hw⟩

/-- A committed prefix is as long as its leader's log at least. -/
theorem Inv.commit_le (h : Inv tm 𝒬 s) {T N : ℕ} (hc : (T, N) ∈ s.commits) {l : ν} {L : List ε}
    (hled : s.led T = some (l, L)) : N ≤ L.length := by
  obtain ⟨n, l', L', e, rfl, hled', he, -, -⟩ := h.quorums.commit T N hc
  rw [hled, Option.some.injEq, Prod.mk.injEq] at hled'
  rw [hled'.2]
  exact (List.getElem?_eq_some_iff.1 he).1

/-- **Leader completeness.**  What the leader of a term committed, every leader
of the same or a later term holds. -/
theorem Inv.commit_complete (h : Inv tm 𝒬 s) {T N T' : ℕ} {l l' : ν} {L L' : List ε}
    (hc : (T, N) ∈ s.commits) (hled : s.led T = some (l, L)) (hled' : s.led T' = some (l', L'))
    (hT : T ≤ T') : L'.take N = L.take N := by
  rcases hT.eq_or_lt with rfl | hlt
  · rw [hled, Option.some.injEq, Prod.mk.injEq] at hled'
    rw [hled'.2]
  · obtain ⟨n, l₀, L₀, e, rfl, hled₀, he, hte, hQ⟩ := h.quorums.commit T N hc
    rw [hled, Option.some.injEq, Prod.mk.injEq] at hled₀
    rw [← hled₀.2] at he
    exact h.quorums.complete T l L T' l' L' n e hled hled' hlt he hte (choosable_of_acked hQ)

/-- Two committed prefixes agree as far as both of them go. -/
theorem Inv.commit_agree (h : Inv tm 𝒬 s) {T N T' N' n : ℕ} {l l' : ν} {L L' : List ε}
    (hc : (T, N) ∈ s.commits) (hled : s.led T = some (l, L))
    (hc' : (T', N') ∈ s.commits) (hled' : s.led T' = some (l', L'))
    (hn : n ≤ N) (hn' : n ≤ N') : L.take n = L'.take n := by
  rcases le_total T T' with hT | hT
  · exact (take_eq_of_le (h.commit_complete hc hled hled' hT) hn).symm
  · exact take_eq_of_le (h.commit_complete hc' hled' hled hT) hn'

/-! ## The ballots carry choosable prefixes to the next leader -/

/-- A log at least as up to date as one that holds a choosable prefix holds the
prefix too. -/
theorem Inv.upToDate_holds (h : Inv tm 𝒬 s) {T N : ℕ} {l : ν} {L F G : List ε} {e : ε}
    (hled : s.led T = some (l, L)) (he : L[N]? = some e) (hte : tm e = T)
    (hch : Choosable 𝒬 s T (N + 1)) (hF : Sound tm s F) (hG : Sound tm s G)
    (hup : UpToDate tm F G) (hGL : G.take (N + 1) = L.take (N + 1)) :
    F.take (N + 1) = L.take (N + 1) := by
  have hT : 1 ≤ T := (h.elections.led_won T l L hled).2.1
  have hNL : N + 1 ≤ L.length := (List.getElem?_eq_some_iff.1 he).1
  have hNG : N + 1 ≤ G.length := le_length_of_take_eq hGL hNL
  have heG : G[N]? = some e := by rw [getElem?_eq_of_take_eq hGL (by omega)]; exact he
  have hTG : T ≤ lastTerm tm G := hte ▸ h.logs.le_lastTerm hG heG
  have hTF : T ≤ lastTerm tm F := by
    rcases hup with hlt | ⟨heq, -⟩ <;> omega
  have hne : F ≠ [] := by
    rintro rfl
    simp [lastTerm] at hTF
    omega
  obtain ⟨l', L', hled', htake⟩ := hF.eq_take hne
  rcases hTF.eq_or_lt with heq | hlt
  · -- both logs end in term `T`, and the longer one contains the shorter
    rw [← heq, hled, Option.some.injEq, Prod.mk.injEq] at hled'
    have hlen : G.length ≤ F.length := by
      rcases hup with hlt | ⟨-, hlen⟩
      · omega
      · exact hlen
    rw [← hled'.2] at htake
    exact take_eq_of_le htake (by omega)
  · -- the last entry is from a later leader, which holds the prefix
    have hL' : L'.take (N + 1) = L.take (N + 1) :=
      h.quorums.complete T l L _ l' L' N e hled hled' hlt he hte hch
    have hpos : 0 < F.length := List.length_pos_iff.2 hne
    have hlong : N < F.length := by
      by_contra hcon
      obtain ⟨x, hx, hlast⟩ := exists_last tm hne
      rw [getElem?_eq_of_take_eq htake (by omega)] at hx
      have heL' : L'[N]? = some e := by rw [getElem?_eq_of_take_eq hL' (by omega)]; exact he
      have hle : tm x ≤ tm e := h.logs.led_mono hled' hx heL' (by omega)
      omega
    exact (take_eq_of_le htake hlong).trans hL'

/-- The log a winner put forward holds every choosable prefix of every earlier
leader. -/
theorem Inv.winner_holds (h : Inv tm 𝒬 s) {c : ν} {T T' N : ℕ} {l : ν} {L F : List ε} {e : ε}
    (hQ : 𝒬.IsQuorum (s.voters T' c)) (hF : s.cand c T' = some F) (hT : T < T')
    (hled : s.led T = some (l, L)) (he : L[N]? = some e) (hte : tm e = T)
    (hch : Choosable 𝒬 s T (N + 1)) : F.take (N + 1) = L.take (N + 1) := by
  obtain ⟨w, ⟨G, hw⟩, hwch⟩ := 𝒬.inter hQ hch
  have hterm : T' ≤ s.term w := h.elections.vote_le _ hw
  rcases hwch with ⟨m, hm, hack⟩ | hle
  · have hno : ¬ Lacks s T L (N + 1) := by
      rintro ⟨T'', l'', L'', hlt, hled'', hne⟩
      exact hne (h.quorums.complete T l L T'' l'' L'' N e hled hled'' hlt he hte hch)
    have hG : G.take (N + 1) = L.take (N + 1) :=
      (h.quorums.ack_vote w T m l L (N + 1) hack hled hm _ hw rfl hT).resolve_right hno
    obtain ⟨F', hF', hup⟩ := h.elections.vote_cand _ hw
    simp only at hF'
    rw [hF, Option.some.injEq] at hF'
    rw [← hF'] at hup
    exact h.upToDate_holds hled he hte hch (h.logs.sound_cand c T' F hF)
      (h.logs.sound_vote _ hw) hup hG
  · omega

/-- A candidate about to win still has the log it put forward. -/
theorem Inv.winner_log (h : Inv tm 𝒬 s) (hrole : s.role v = .candidate)
    (hQ : 𝒬.IsQuorum (s.voters (s.term v) v)) : s.cand v (s.term v) = some (s.log v) := by
  obtain ⟨F, hF, rfl | ⟨T, N, l, L, hc, hT, hled, hlenN, hlenF, hlog⟩⟩ :=
    h.quorums.candidate_log v hrole
  · exact hF
  · have hnone := h.elections.led_eq_none hrole hQ
    have hlt : T < s.term v := by
      rcases hT.eq_or_lt with rfl | hlt
      · rw [hnone] at hled; exact absurd hled (by simp)
      · exact hlt
    obtain ⟨n, l', L', e, rfl, hled', he, hte, hQ'⟩ := h.quorums.commit T N hc
    rw [hled, Option.some.injEq, Prod.mk.injEq] at hled'
    rw [← hled'.2] at he
    have htake : F.take (n + 1) = L.take (n + 1) :=
      h.winner_holds hQ hF hlt hled he hte (choosable_of_acked hQ')
    have hlen : n + 1 ≤ F.length :=
      le_length_of_take_eq htake (List.getElem?_eq_some_iff.1 he).1
    have hFlen : F.length = n + 1 := by omega
    have hloglen : (s.log v).length = n + 1 := by omega
    rw [hF, hlog, hloglen, ← htake, ← hFlen, List.take_length]

/-- **A leader holds what was committed before its term**, from the moment it is elected and
whenever the commit is made. -/
theorem Inv.holds_committed (h : Inv tm 𝒬 s) {T T' N : ℕ} {l c : ν} {L F : List ε}
    (hcom : (T, N) ∈ s.commits) (hled : s.led T = some (l, L)) (hT : T < T')
    (hQ : 𝒬.IsQuorum (s.voters T' c)) (hF : s.cand c T' = some F) : F.take N = L.take N := by
  obtain ⟨n, l₀, L₀, e, rfl, hled₀, he, hte, hacked⟩ := h.quorums.commit T N hcom
  rw [hled, Option.some.injEq, Prod.mk.injEq] at hled₀
  rw [← hled₀.2] at he
  exact h.winner_holds hQ hF hT hled he hte (choosable_of_acked hacked)

end ReplicatedLog
