import B5KvStore.Lib.ReplicatedLog.Safety

/-!
# What a participant knows to be committed

A participant learns how much of its own log is committed, and it may be handed
a committed prefix to start from.  Neither kind of knowledge is ever lost again:

* `CommittedAt` — the entry at a position is committed; `Inv.committedAt_unique`.
* `Known` — the first `c` entries of a log are committed; `Known.steps`.
* `Guards` — who has acknowledged a committed entry; `CommittedAt.guarded`, `Guards.getElem?`.
* `Backed` — a committed prefix of length `A` is at hand for a log that either
  starts with it or is no longer than it; `Backed.steps`, and `Backed.adopt`,
  which starts from it.
-/

namespace ReplicatedLog

open QuorumSystem

variable {ν ε : Type*} {tm : ε → ℕ} {fits : ℕ → ε → Prop} {𝒬 : Quorums ν} {u v : ν}
  {s s' : State ν ε} {c A : ℕ}

/-- A prefix of a leader's log stays what it is. -/
theorem Extends.led_take (hx : Extends s s') {T m : ℕ} {l : ν} {L : List ε}
    (hled : s.led T = some (l, L)) (hm : m ≤ L.length) :
    ∃ L', s'.led T = some (l, L') ∧ m ≤ L'.length ∧ L'.take m = L.take m := by
  obtain ⟨L', hled', hpre⟩ := hx.led T l L hled
  exact ⟨L', hled', hm.trans hpre.length_le, take_eq_of_isPrefix hpre hm⟩

/-- The leader of term `T`, or one before it, has committed a prefix of length at
least `c`. -/
def CommittedBy (s : State ν ε) (T c : ℕ) : Prop :=
  c = 0 ∨ ∃ T₀ N, (T₀, N) ∈ s.commits ∧ T₀ ≤ T ∧ c ≤ N

/-- The first `c` entries of the log of `v` are committed, and `v` has reached
the term they were committed in. -/
def Known (s : State ν ε) (v : ν) (c : ℕ) : Prop :=
  c ≤ (s.log v).length ∧
    (c = 0 ∨ ∃ T N l L, (T, N) ∈ s.commits ∧ T ≤ s.term v ∧ c ≤ N ∧ s.led T = some (l, L) ∧
      (s.log v).take c = L.take c)

theorem CommittedBy.mono {T T' : ℕ} (h : CommittedBy s T c) (hx : Extends s s') (hT : T ≤ T') :
    CommittedBy s' T' c := by
  rcases h with h0 | ⟨T₀, N, hc, hT₀, hN⟩
  · exact Or.inl h0
  · exact Or.inr ⟨T₀, N, hx.commits hc, hT₀.trans hT, hN⟩

theorem Known.committedBy (h : Known s v c) : CommittedBy s (s.term v) c := by
  rcases h.2 with h0 | ⟨T, N, l, L, hc, hT, hN, -⟩
  · exact Or.inl h0
  · exact Or.inr ⟨T, N, hc, hT, hN⟩

theorem Known.zero : Known s v 0 := ⟨Nat.zero_le _, Or.inl rfl⟩

/-- A log that agrees with the leader's knows what the leader has committed. -/
theorem Inv.known_of_agree (h : Inv tm 𝒬 s) {T : ℕ} {l : ν} {L : List ε}
    (hled : s.led T = some (l, L)) (hT : T ≤ s.term v) (hc : CommittedBy s T c)
    (hlen : c ≤ (s.log v).length) (hagree : (s.log v).take c = L.take c) : Known s v c := by
  refine ⟨hlen, hc.imp_right ?_⟩
  rintro ⟨T₀, N, hcom, hT₀, hN⟩
  obtain ⟨n, l₀, L₀, e, -, hled₀, -⟩ := h.quorums.commit T₀ N hcom
  refine ⟨T₀, N, l₀, L₀, hcom, hT₀.trans hT, hN, hled₀, ?_⟩
  rw [hagree]
  exact take_eq_of_le (h.commit_complete hcom hled₀ hled hT₀) hN

/-- The leader of a term holds what was committed in it or before. -/
theorem Inv.leader_holds (h : Inv tm 𝒬 s) {T N T' : ℕ} {l l' : ν} {L L' : List ε}
    (hcom : (T, N) ∈ s.commits) (hled : s.led T = some (l, L)) (hT : T ≤ T')
    (hled' : s.led T' = some (l', L')) (hA : A ≤ N) :
    A ≤ L'.length ∧ L'.take A = L.take A := by
  have htake : L'.take A = L.take A := take_eq_of_le (h.commit_complete hcom hled hled' hT) hA
  exact ⟨le_length_of_take_eq htake (hA.trans (h.commit_le hcom hled)), htake⟩

/-- Knowledge survives any growth of the history that keeps the known part of
the log. -/
theorem Known.mono (h : Known s v c) (hi : Inv tm 𝒬 s) (hx : Extends s s')
    (hlog : (s'.log v).take c = (s.log v).take c) : Known s' v c := by
  refine ⟨le_length_of_take_eq hlog h.1, h.2.imp_right ?_⟩
  rintro ⟨T, N, l, L, hcom, hT, hN, hled, heq⟩
  obtain ⟨L', hled', hpre⟩ := hx.led T l L hled
  refine ⟨T, N, l, L', hx.commits hcom, hT.trans (hx.term v), hN, hled', ?_⟩
  rw [hlog, heq, take_eq_of_isPrefix hpre (hN.trans (hi.commit_le hcom hled))]

/-! ## Committed entries -/

/-- The entry at position `i`, counted from one, is committed. -/
def CommittedAt (s : State ν ε) (i : ℕ) (e : ε) : Prop :=
  ∃ T N l L, (T, N) ∈ s.commits ∧ 0 < i ∧ i ≤ N ∧ s.led T = some (l, L) ∧ L[i - 1]? = some e

theorem CommittedAt.pos {i : ℕ} {e : ε} (h : CommittedAt s i e) : 0 < i := by
  obtain ⟨T, N, l, L, -, hpos, -⟩ := h
  exact hpos

theorem CommittedAt.mono {i : ℕ} {e : ε} (h : CommittedAt s i e) (hx : Extends s s') :
    CommittedAt s' i e := by
  obtain ⟨T, N, l, L, hc, hpos, hN, hled, he⟩ := h
  have hlt := (List.getElem?_eq_some_iff.1 he).1
  obtain ⟨L', hled', -, htake⟩ := hx.led_take hled (show i ≤ L.length by omega)
  refine ⟨T, N, l, L', hx.commits hc, hpos, hN, hled', ?_⟩
  rw [getElem?_eq_of_take_eq htake (by omega)]
  exact he

/-- Nothing becomes committed without a commit. -/
theorem CommittedAt.of_commits {i : ℕ} {e : ε} (h : CommittedAt s' i e) (hi : Inv tm 𝒬 s)
    (hx : Extends s s') (hc : s'.commits = s.commits) : CommittedAt s i e := by
  obtain ⟨T, N, l, L, hcom, hpos, hN, hled, he⟩ := h
  rw [hc] at hcom
  obtain ⟨n, l₀, L₀, x, -, hled₀, -⟩ := hi.quorums.commit T N hcom
  obtain ⟨L', hled', -, htake⟩ := hx.led_take hled₀ (hi.commit_le hcom hled₀)
  rw [hled, Option.some.injEq, Prod.mk.injEq] at hled'
  obtain ⟨rfl, rfl⟩ := hled'
  refine ⟨T, N, l, L₀, hcom, hpos, hN, hled₀, ?_⟩
  rw [← getElem?_eq_of_take_eq htake (by omega)]
  exact he

/-- **One entry a position.** -/
theorem Inv.committedAt_unique (h : Inv tm 𝒬 s) {i : ℕ} {e e' : ε} (he : CommittedAt s i e)
    (he' : CommittedAt s i e') : e = e' := by
  obtain ⟨T, N, l, L, hcom, hpos, hN, hled, hL⟩ := he
  obtain ⟨T', N', l', L', hcom', -, hN', hled', hL'⟩ := he'
  have htake := h.commit_agree hcom hled hcom' hled' hN hN'
  rw [getElem?_eq_of_take_eq htake (by omega), hL', Option.some.injEq] at hL
  exact hL.symm

theorem Known.committedAt {i : ℕ} {e : ε} (h : Known s v c) (hpos : 0 < i) (hi : i ≤ c)
    (he : (s.log v)[i - 1]? = some e) : CommittedAt s i e := by
  rcases h.2 with h0 | ⟨T, N, l, L, hcom, -, hN, hled, heq⟩
  · omega
  · refine ⟨T, N, l, L, hcom, hpos, hi.trans hN, hled, ?_⟩
    rw [← getElem?_eq_of_take_eq heq (by omega)]
    exact he

/-- Whoever knows a position to be committed has the entry. -/
theorem Known.getElem? {i : ℕ} {e : ε} (h : Known s v c) (hi : Inv tm 𝒬 s) (hle : i ≤ c)
    (he : CommittedAt s i e) : (s.log v)[i - 1]? = some e := by
  have hpos := he.pos
  have hlen := h.1
  obtain ⟨x, hx⟩ : ∃ x, (s.log v)[i - 1]? = some x := ⟨_, List.getElem?_eq_getElem (by omega)⟩
  rw [hx, hi.committedAt_unique (h.committedAt hpos hle hx) he]

/-- A participant that has acknowledged the prefix an entry was committed with. -/
def Guards (s : State ν ε) (i : ℕ) (e : ε) (w : ν) : Prop :=
  ∃ T N l L m, (T, N) ∈ s.commits ∧ 0 < i ∧ i ≤ N ∧ s.led T = some (l, L) ∧ L[i - 1]? = some e ∧
    (w, T, m) ∈ s.acks ∧ N ≤ m

theorem Guards.mono {i : ℕ} {e : ε} (h : Guards s i e v) (hi : Inv tm 𝒬 s) (hx : Extends s s') :
    Guards s' i e v := by
  obtain ⟨T, N, l, L, m, hcom, hpos, hle, hled, he, hack, hm⟩ := h
  obtain ⟨L', hled', -, htake⟩ := hx.led_take hled (hi.commit_le hcom hled)
  refine ⟨T, N, l, L', m, hx.commits hcom, hpos, hle, hled', ?_, hx.acks hack, hm⟩
  rw [getElem?_eq_of_take_eq htake (by omega)]
  exact he

/-- Every committed entry is guarded by a quorum. -/
theorem CommittedAt.guarded {i : ℕ} {e : ε} (h : CommittedAt s i e) (hi : Inv tm 𝒬 s) :
    𝒬.IsQuorum {w | Guards s i e w} := by
  obtain ⟨T, N, l, L, hcom, hpos, hle, hled, he⟩ := h
  obtain ⟨n, -, -, -, rfl, -, -, -, hQ⟩ := hi.quorums.commit T N hcom
  refine 𝒬.mono ?_ hQ
  rintro w ⟨m, hm, hack⟩
  exact ⟨T, n + 1, l, L, m, hcom, hpos, hle, hled, he, hack, hm⟩

/-- Whoever guards an entry holds it. -/
theorem Guards.getElem? {i : ℕ} {e : ε} (h : Guards s i e v) (hi : Inv tm 𝒬 s) :
    (s.log v)[i - 1]? = some e := by
  obtain ⟨T, N, l, L, m, hcom, hpos, hle, hled, he, hack, hm⟩ := h
  have htake : (s.log v).take N = L.take N := by
    rcases hi.quorums.ack_log v T m l L N hack hled hm with htake | ⟨T', l', L', hlt, hled', hne⟩
    · exact htake
    · exact absurd (hi.commit_complete hcom hled hled' hlt.le) hne
  rw [getElem?_eq_of_take_eq htake (by omega)]
  exact he

/-- The committed prefix of length `A` is at hand for the log of `v`. -/
def Backed (s : State ν ε) (v : ν) (A : ℕ) (e : ε) : Prop :=
  ∃ T N l L, (T, N) ∈ s.commits ∧ T ≤ s.term v ∧ 0 < A ∧ A ≤ N ∧ s.led T = some (l, L) ∧
    L[A - 1]? = some e ∧ ((s.log v).length ≤ A ∨ (s.log v).take A = L.take A)

theorem Backed.mono {e : ε} (h : Backed s v A e) (hi : Inv tm 𝒬 s) (hx : Extends s s')
    (hlog : ∀ T N l L, (T, N) ∈ s.commits → T ≤ s.term v → A ≤ N → s.led T = some (l, L) →
      (s.log v).length ≤ A ∨ (s.log v).take A = L.take A →
      (s'.log v).length ≤ A ∨ (s'.log v).take A = L.take A) : Backed s' v A e := by
  obtain ⟨T, N, l, L, hcom, hT, hpos, hA, hled, he, hcase⟩ := h
  obtain ⟨L', hled', hpre⟩ := hx.led T l L hled
  have hAL : A ≤ L.length := hA.trans (hi.commit_le hcom hled)
  have htake : L'.take A = L.take A := take_eq_of_isPrefix hpre hAL
  refine ⟨T, N, l, L', hx.commits hcom, hT.trans (hx.term v), hpos, hA, hled', ?_, ?_⟩
  · rw [getElem?_eq_of_take_eq htake (by omega)]
    exact he
  · rw [htake]
    exact hlog T N l L hcom hT hA hled hcase

/-- What is known to be committed is at hand. -/
theorem Known.backed {e : ε} (h : Known s v c) (hpos : 0 < A) (hA : A ≤ c)
    (he : (s.log v)[A - 1]? = some e) : Backed s v A e := by
  rcases h.2 with h0 | ⟨T, N, l, L, hcom, hT, hN, hled, heq⟩
  · omega
  · refine ⟨T, N, l, L, hcom, hT, hpos, hA.trans hN, hled, ?_, Or.inr (take_eq_of_le heq hA)⟩
    rw [← getElem?_eq_of_take_eq heq (by omega)]
    exact he

variable [DecidableEq ν]

/-- No step changes the part of a log that is known to be committed. -/
theorem Known.log_step (h : Known s u c) (hi : Inv tm 𝒬 s) (hs : Step tm fits 𝒬 v s s') :
    (s'.log u).take c = (s.log u).take c := by
  by_cases huv : u = v
  · subst huv
    rcases h.2 with rfl | ⟨T, N, l, L, hcom, hT, hN, hled, heq⟩
    · simp
    · cases hs with
      | propose e hrole he hfits =>
          simp [List.take_append_of_le_length h.1]
      | overwrite k l' L' hrole hled' hk hkeep =>
          obtain ⟨-, htake⟩ := hi.leader_holds hcom hled hT hled' hN
          have hck : c ≤ k := hkeep c h.1 (heq.trans htake.symm)
          simp only [State.setLog_log, Function.update_self]
          rw [List.take_take, min_eq_left hck, htake, heq]
      | install T' N' A' l' L' hcom' hT' hA' hlen hled' =>
          have hcA : c ≤ A' := h.1.trans hlen
          simp only [State.setLog_log, Function.update_self]
          rw [List.take_take, min_eq_left hcA, heq]
          exact hi.commit_agree hcom' hled' hcom hled (hcA.trans hA') hN
      | _ => rfl
  · rw [hs.sameElsewhere.log u huv]

theorem Known.step (h : Known s u c) (hi : Inv tm 𝒬 s) (hs : Step tm fits 𝒬 v s s') :
    Known s' u c :=
  h.mono hi (hs.extends hi) (h.log_step hi hs)

theorem Known.steps (h : Known s u c) (hi : Inv tm 𝒬 s) (hs : Steps tm fits 𝒬 v s s') :
    Known s' u c := by
  induction hs with
  | refl => exact h
  | tail hpre hstep ih => exact ih.step (hi.steps hpre) hstep

theorem Backed.step {e : ε} (h : Backed s u A e) (hi : Inv tm 𝒬 s)
    (hs : Step tm fits 𝒬 v s s') : Backed s' u A e := by
  refine h.mono hi (hs.extends hi) ?_
  intro T N l L hcom hT hA hled hcase
  by_cases huv : u = v
  · subst huv
    cases hs with
    | propose x hrole hx hfits =>
        obtain ⟨hlen, htake⟩ := hi.leader_holds hcom hled hT (hi.logs.leader_led u hrole) hA
        simp only [State.propose_log, Function.update_self]
        exact Or.inr (by rw [List.take_append_of_le_length hlen, htake])
    | overwrite k l' L' hrole hled' hk hkeep =>
        obtain ⟨-, htake⟩ := hi.leader_holds hcom hled hT hled' hA
        simp only [State.setLog_log, Function.update_self]
        rcases le_total k A with hkA | hkA
        · exact Or.inl (by rw [List.length_take]; omega)
        · exact Or.inr (by rw [List.take_take, min_eq_left hkA, htake])
    | install T' N' A' l' L' hcom' hT' hA' hlen hled' =>
        simp only [State.setLog_log, Function.update_self]
        rcases le_total A' A with hAA | hAA
        · exact Or.inl (by rw [List.length_take]; omega)
        · refine Or.inr ?_
          rw [List.take_take, min_eq_left hAA]
          exact hi.commit_agree hcom' hled' hcom hled (hAA.trans hA') hA
    | _ => exact hcase
  · rw [hs.sameElsewhere.log u huv]
    exact hcase

theorem Backed.steps {e : ε} (h : Backed s u A e) (hi : Inv tm 𝒬 s)
    (hs : Steps tm fits 𝒬 v s s') : Backed s' u A e := by
  induction hs with
  | refl => exact h
  | tail hpre hstep ih => exact ih.step (hi.steps hpre) hstep

/-- A participant can start from a prefix it has at hand: whatever followed the
prefix in its log still does. -/
theorem Backed.adopt {e : ε} (h : Backed s v A e) (hi : Inv tm 𝒬 s) :
    ∃ s', Steps tm fits 𝒬 v s s' ∧ s'.term = s.term ∧ s'.vote = s.vote ∧ s'.role = s.role ∧
      s'.led = s.led ∧ s'.acks = s.acks ∧ s'.commits = s.commits ∧ Known s' v A ∧
      (s'.log v)[A - 1]? = some e ∧ (s'.log v).drop A = (s.log v).drop A := by
  obtain ⟨T, N, l, L, hcom, hT, hpos, hA, hled, he, hcase⟩ := h
  have hAL : A ≤ L.length := hA.trans (hi.commit_le hcom hled)
  rcases Nat.lt_or_ge A (s.log v).length with hlt | hge
  · have htake : (s.log v).take A = L.take A := hcase.resolve_left (by omega)
    refine ⟨s, .refl, rfl, rfl, rfl, rfl, rfl, rfl,
      ⟨hlt.le, Or.inr ⟨T, N, l, L, hcom, hT, hA, hled, htake⟩⟩, ?_, rfl⟩
    rw [getElem?_eq_of_take_eq htake (by omega)]
    exact he
  · have hlog : (s.setLog v (L.take A)).log v = L.take A := by simp
    refine ⟨s.setLog v (L.take A), .single (.install T N A l L hcom hT hA hge hled), rfl, rfl, rfl,
      rfl, rfl, rfl, ⟨?_, Or.inr ⟨T, N, l, L, hcom, hT, hA, hled, ?_⟩⟩, ?_, ?_⟩
    · rw [hlog, List.length_take]
      omega
    · rw [hlog, List.take_take, min_self]
    · rw [hlog, List.getElem?_take, if_pos (by omega)]
      exact he
    · rw [hlog, List.drop_eq_nil_of_le hge, List.drop_eq_nil_of_le (by rw [List.length_take]; omega)]

end ReplicatedLog
