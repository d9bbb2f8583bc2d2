import Mathlib.Logic.Function.Basic
import Mathlib.Logic.Relation
import Mathlib.Data.Set.Insert
import Mathlib.Tactic.Simps.Basic
import B5KvStore.Lib.Quorum

/-!
# A replicated log with elected leaders

An abstract protocol in which participants keep a log each, elect a leader per
term by quorum, and let the leader decide what the log says.  Participants
(`ν`) and log entries (`ε`) are arbitrary types; all the protocol knows about an
entry is the term it was created in, `tm : ε → ℕ`, and the positions it may be
created at, `fits : ℕ → ε → Prop`.

Next to what each participant stores, a state keeps the history of the run:
every ballot cast, with the log its voter held; the leader of every term, with
the log it has built; every acknowledgement; and every index a leader declared
committed.  The history only grows, so what is proved from it holds for good.

* `State`, `Step` — the protocol, one rule for each thing a participant does.
* `Extends` — the order in which histories grow.
* `Steps.sameElsewhere` — a step of one participant is nobody else's business.
-/

namespace ReplicatedLog

open QuorumSystem

/-- What a participant is currently doing. -/
inductive Role where
  | follower
  | candidate
  | leader
  deriving DecidableEq

/-- One ballot: who voted, in which term, for whom, and the log the voter held
at that moment. -/
structure Ballot (ν ε : Type*) where
  voter : ν
  term : ℕ
  cand : ν
  log : List ε

/-- A state of the protocol. -/
structure State (ν ε : Type*) where
  /-- The term each participant is in. -/
  term : ν → ℕ
  /-- Whom it has voted for in that term. -/
  vote : ν → Option ν
  role : ν → Role
  log : ν → List ε
  /-- The log a participant put forward when it campaigned in a term. -/
  cand : ν → ℕ → Option (List ε)
  votes : Set (Ballot ν ε)
  /-- The leader of a term with the log it has built, kept after it is gone. -/
  led : ℕ → Option (ν × List ε)
  /-- Who has acknowledged, in which term, how long a prefix of the leader's log. -/
  acks : Set (ν × ℕ × ℕ)
  /-- Which prefix of its log the leader of a term has declared committed. -/
  commits : Set (ℕ × ℕ)

variable {ν ε : Type*}

/-- The state nobody has done anything in. -/
@[simps] def State.init : State ν ε where
  term _ := 0
  vote _ := none
  role _ := .follower
  log _ := []
  cand _ _ := none
  votes := ∅
  led _ := none
  acks := ∅
  commits := ∅

/-- The term of the last entry of a log, `0` for the empty log. -/
def lastTerm (tm : ε → ℕ) (l : List ε) : ℕ := (l.getLast?.map tm).getD 0

/-- `F` is at least as up to date as `G`: its last term is higher, or the last
terms agree and it is at least as long. -/
def UpToDate (tm : ε → ℕ) (F G : List ε) : Prop :=
  lastTerm tm G < lastTerm tm F ∨ lastTerm tm F = lastTerm tm G ∧ G.length ≤ F.length

namespace State

variable [DecidableEq ν] (s : State ν ε) (v : ν)

/-- `v` learns of a later term. -/
@[simps] def observe (T : ℕ) : State ν ε :=
  { s with
    term := Function.update s.term v T
    vote := Function.update s.vote v none
    role := Function.update s.role v .follower }

/-- `v` stands for election in the next term and votes for itself. -/
@[simps] def campaign : State ν ε :=
  { s with
    term := Function.update s.term v (s.term v + 1)
    vote := Function.update s.vote v (some v)
    role := Function.update s.role v .candidate
    cand := Function.update s.cand v
      (Function.update (s.cand v) (s.term v + 1) (some (s.log v)))
    votes := insert ⟨v, s.term v + 1, v, s.log v⟩ s.votes }

/-- `v` votes for `c` in its current term. -/
@[simps] def grant (c : ν) : State ν ε :=
  { s with
    vote := Function.update s.vote v (some c)
    votes := insert ⟨v, s.term v, c, s.log v⟩ s.votes }

/-- `v` takes over as the leader of its term. -/
@[simps] def elect : State ν ε :=
  { s with
    role := Function.update s.role v .leader
    led := Function.update s.led (s.term v) (some (v, s.log v)) }

/-- The leader `v` adds an entry, which counts as acknowledged by itself. -/
@[simps] def propose (e : ε) : State ν ε :=
  { s with
    log := Function.update s.log v (s.log v ++ [e])
    led := Function.update s.led (s.term v) (some (v, s.log v ++ [e]))
    acks := insert (v, s.term v, (s.log v).length + 1) s.acks }

/-- `v` gives up whatever it was doing and follows. -/
@[simps] def stepDown : State ν ε :=
  { s with role := Function.update s.role v .follower }

/-- `v` replaces its log. -/
@[simps] def setLog (l : List ε) : State ν ε :=
  { s with log := Function.update s.log v l }

/-- `v` acknowledges the first `m` entries of its leader's log. -/
@[simps] def ack (m : ℕ) : State ν ε :=
  { s with acks := insert (v, s.term v, m) s.acks }

/-- The leader `v` declares its first `N` entries committed. -/
@[simps] def commit (N : ℕ) : State ν ε :=
  { s with commits := insert (s.term v, N) s.commits }

end State

/-- The steps participant `v` can take. -/
inductive Step [DecidableEq ν] (tm : ε → ℕ) (fits : ℕ → ε → Prop) (𝒬 : Quorums ν) (v : ν) :
    State ν ε → State ν ε → Prop
  | observe {s : State ν ε} (T : ℕ) (hT : s.term v < T) : Step tm fits 𝒬 v s (s.observe v T)
  | campaign {s : State ν ε} : Step tm fits 𝒬 v s (s.campaign v)
  | grant {s : State ν ε} (c : ν) (F : List ε) (hF : s.cand c (s.term v) = some F)
      (hvote : s.vote v = none ∨ s.vote v = some c) (hup : UpToDate tm F (s.log v)) :
      Step tm fits 𝒬 v s (s.grant v c)
  | elect {s : State ν ε} (hrole : s.role v = .candidate)
      (hQ : 𝒬.IsQuorum {w | ∃ F, ⟨w, s.term v, v, F⟩ ∈ s.votes}) : Step tm fits 𝒬 v s (s.elect v)
  | propose {s : State ν ε} (e : ε) (hrole : s.role v = .leader) (he : tm e = s.term v)
      (hfits : fits (s.log v).length e) :
      Step tm fits 𝒬 v s (s.propose v e)
  | stepDown {s : State ν ε} : Step tm fits 𝒬 v s (s.stepDown v)
  /-- `v` takes over the first `k` entries of its leader's log, keeping all it
  already shares with that log. -/
  | overwrite {s : State ν ε} (k : ℕ) (l : ν) (L : List ε) (hrole : s.role v = .follower)
      (hled : s.led (s.term v) = some (l, L)) (hk : k ≤ L.length)
      (hkeep : ∀ j ≤ (s.log v).length, (s.log v).take j = L.take j → j ≤ k) :
      Step tm fits 𝒬 v s (s.setLog v (L.take k))
  | ack {s : State ν ε} (m : ℕ) (l : ν) (L : List ε) (hled : s.led (s.term v) = some (l, L))
      (hm : m ≤ L.length) (heq : (s.log v).take m = L.take m) : Step tm fits 𝒬 v s (s.ack v m)
  /-- The leader commits an entry of its own term that a quorum has
  acknowledged. -/
  | commit {s : State ν ε} (N : ℕ) (e : ε) (hrole : s.role v = .leader)
      (he : (s.log v)[N]? = some e) (hte : tm e = s.term v)
      (hQ : 𝒬.IsQuorum {w | ∃ m, N < m ∧ (w, s.term v, m) ∈ s.acks}) :
      Step tm fits 𝒬 v s (s.commit v (N + 1))
  /-- `v` adopts a committed prefix at least as long as its own log. -/
  | install {s : State ν ε} (T N A : ℕ) (l : ν) (L : List ε) (hc : (T, N) ∈ s.commits)
      (hT : T ≤ s.term v) (hA : A ≤ N) (hlen : (s.log v).length ≤ A)
      (hled : s.led T = some (l, L)) : Step tm fits 𝒬 v s (s.setLog v (L.take A))

/-- Any number of steps of one participant. -/
def Steps [DecidableEq ν] (tm : ε → ℕ) (fits : ℕ → ε → Prop) (𝒬 : Quorums ν) (v : ν) :
    State ν ε → State ν ε → Prop :=
  Relation.ReflTransGen (Step tm fits 𝒬 v)

/-- The states a run can reach, whoever takes each step. -/
inductive Reachable [DecidableEq ν] (tm : ε → ℕ) (fits : ℕ → ε → Prop) (𝒬 : Quorums ν) :
    State ν ε → Prop
  | init : Reachable tm fits 𝒬 State.init
  | step {s s' : State ν ε} {v : ν} :
      Reachable tm fits 𝒬 s → Step tm fits 𝒬 v s s' → Reachable tm fits 𝒬 s'

/-! ## Histories grow -/

/-- Leaders stay the leaders of their terms and only add to their logs. -/
def LedGrows (s s' : State ν ε) : Prop :=
  ∀ T l L, s.led T = some (l, L) → ∃ L', s'.led T = some (l, L') ∧ L <+: L'

/-- The history of `s'` extends the history of `s`. -/
structure Extends (s s' : State ν ε) : Prop where
  term : ∀ u, s.term u ≤ s'.term u
  votes : s.votes ⊆ s'.votes
  acks : s.acks ⊆ s'.acks
  commits : s.commits ⊆ s'.commits
  cand : ∀ c T F, s.cand c T = some F → s'.cand c T = some F
  led : LedGrows s s'

theorem Extends.refl (s : State ν ε) : Extends s s :=
  ⟨fun _ => le_refl _, subset_rfl, subset_rfl, subset_rfl, fun _ _ _ h => h,
    fun _ _ L h => ⟨L, h, List.prefix_refl L⟩⟩

theorem Extends.trans {s s' s'' : State ν ε} (h : Extends s s') (h' : Extends s' s'') :
    Extends s s'' where
  term u := (h.term u).trans (h'.term u)
  votes := h.votes.trans h'.votes
  acks := h.acks.trans h'.acks
  commits := h.commits.trans h'.commits
  cand c T F hF := h'.cand c T F (h.cand c T F hF)
  led T l L hL := by
    obtain ⟨L', hL', hpre⟩ := h.led T l L hL
    obtain ⟨L'', hL'', hpre'⟩ := h'.led T l L' hL'
    exact ⟨L'', hL'', hpre.trans hpre'⟩

section

variable [DecidableEq ν] {tm : ε → ℕ} {fits : ℕ → ε → Prop} {𝒬 : Quorums ν} {v : ν}
  {s s' s'' : State ν ε}

theorem Reachable.steps (h : Reachable tm fits 𝒬 s) (hs : Steps tm fits 𝒬 v s s') :
    Reachable tm fits 𝒬 s' := by
  induction hs with
  | refl => exact h
  | tail _ hstep ih => exact ih.step hstep

/-! ## What a step leaves alone -/

/-- `s'` differs from `s` at most in what participant `v` stores and in the
history. -/
structure SameElsewhere (v : ν) (s s' : State ν ε) : Prop where
  term : ∀ u, u ≠ v → s'.term u = s.term u
  vote : ∀ u, u ≠ v → s'.vote u = s.vote u
  role : ∀ u, u ≠ v → s'.role u = s.role u
  log : ∀ u, u ≠ v → s'.log u = s.log u

omit [DecidableEq ν] in
theorem SameElsewhere.refl (v : ν) (s : State ν ε) : SameElsewhere v s s :=
  ⟨fun _ _ => rfl, fun _ _ => rfl, fun _ _ => rfl, fun _ _ => rfl⟩

omit [DecidableEq ν] in
theorem SameElsewhere.trans (h : SameElsewhere v s s') (h' : SameElsewhere v s' s'') :
    SameElsewhere v s s'' :=
  ⟨fun u hu => (h'.term u hu).trans (h.term u hu), fun u hu => (h'.vote u hu).trans (h.vote u hu),
    fun u hu => (h'.role u hu).trans (h.role u hu), fun u hu => (h'.log u hu).trans (h.log u hu)⟩

theorem Step.sameElsewhere (h : Step tm fits 𝒬 v s s') : SameElsewhere v s s' := by
  cases h <;> constructor <;> intro u hu <;> simp [hu]

theorem Steps.sameElsewhere (h : Steps tm fits 𝒬 v s s') : SameElsewhere v s s' := by
  induction h with
  | refl => exact .refl v s
  | tail _ hstep ih => exact ih.trans hstep.sameElsewhere

end

end ReplicatedLog
