import B5KvStore.Lib.Runs
import B5KvStore.Proxy.Basic

/-!
# A tripped breaker is effective

Once the breaker of an address has tripped, the address is not called before the open timeout
has elapsed, as long as `Prune` spares the breakers that matter: those that are open, and those
that a call under way has looked up.  A trip starts a refresh itself, and Discovery leaves a
node out that does not answer, so the breaker of a node that is down is the first one to go.

* `Proxy.Sound` — every trip is backed by a registered breaker that is still open.
* `tripped_breaker_effective` — no call between a trip and its timeout.
-/

namespace B5KvStore

open Proxy

variable {lib : Gobreaker}

/-! ## The condition -/

/-- The addresses that `Prune` will keep. -/
def RefreshPhase.live? : RefreshPhase → Option (List String)
  | .pruning live => some live
  | _ => none

/-- The addresses whose breaker is open, and those with a call under way, are live. -/
def Proxy.Spares (p : Proxy lib) (live : List String) : Prop :=
  (∀ entry ∈ p.breakers,
    (lib.state (p.objects entry.2) p.now).2 = .stateOpen → entry.1 ∈ live) ∧
  ∀ req ∈ p.requests, ∀ entry ∈ req.phase.breaker?, entry.1 ∈ live

instance (p : Proxy lib) (live : List String) : Decidable (p.Spares live) := instDecidableAnd

/-- `Prune` is called with a view that spares the breakers in use. -/
def Proxy.Safe (p : Proxy lib) : ProxyAction → Prop
  | .prune k => ∀ live ∈ (p.refreshes[k]?).bind RefreshPhase.live?, p.Spares live
  | _ => True

instance Proxy.decidableSafe (p : Proxy lib) : (a : ProxyAction) → Decidable (p.Safe a)
  | .prune k => inferInstanceAs
      (Decidable (∀ live ∈ (p.refreshes[k]?).bind RefreshPhase.live?, p.Spares live))
  | .elapse _ | .call _ | .request _ _ | .refresh | .refreshed _ _ => instDecidableTrue

/-! ## The invariant -/

/-- If the first is a trip and the second a call of the same address, the timeout has elapsed
in between. -/
def ProxyEvent.Respects : ProxyEvent → ProxyEvent → Prop
  | .tripped addr trip, .attempted addr' time => addr = addr' → trip + openTimeout < time
  | _, _ => True

/-- **The invariant.**  An address has one breaker, made for it, which all its calls under way
share, and the breaker that has tripped last is still open while its timeout runs. -/
structure Proxy.Sound (p : Proxy lib) : Prop where
  known : ∀ entry ∈ p.breakers, entry.2 < p.fresh
  unique : ∀ {addr b b'}, (addr, b) ∈ p.breakers → (addr, b') ∈ p.breakers → b = b'
  made : ∀ entry ∈ p.breakers, lib.Made (breakerSettings entry.1) (p.objects entry.2)
  underWay : ∀ req ∈ p.requests, ∀ entry ∈ req.phase.breaker?, entry ∈ p.breakers
  tripped : ∀ {addr time}, .tripped addr time ∈ p.events → p.now ≤ time + openTimeout →
    ∃ b, (addr, b) ∈ p.breakers ∧ lib.OpenUntil (p.objects b) (time + openTimeout)
  order : p.events.Pairwise ProxyEvent.Respects

namespace Proxy.Sound

variable {p : Proxy lib}

theorem newProxy : (newProxy lib).Sound where
  known _ h := absurd h List.not_mem_nil
  unique h := absurd h List.not_mem_nil
  made _ h := absurd h List.not_mem_nil
  underWay _ h := absurd h List.not_mem_nil
  tripped h := absurd h List.not_mem_nil
  order := .nil

/-- A breaker is used. -/
theorem use (h : p.Sound) (b : Nat) (u : BreakerUse) :
    (p.setBreaker b (lib.use (p.objects b) p.now u)).Sound where
  known := h.known
  unique := h.unique
  made entry hentry := by
    by_cases hb : entry.2 = b
    · subst hb
      rw [objects_setBreaker_self]
      exact (h.made entry hentry).use p.now u
    · rw [p.objects_setBreaker_of_ne hb]
      exact h.made entry hentry
  underWay := h.underWay
  tripped {addr time} htrip hnow := by
    obtain ⟨b', hmem, hopen⟩ := h.tripped htrip hnow
    refine ⟨b', hmem, ?_⟩
    by_cases hb : b' = b
    · subst hb
      rw [objects_setBreaker_self]
      exact hopen.use hnow u
    · rw [p.objects_setBreaker_of_ne hb]
      exact hopen
  order := h.order

theorem routes (h : p.Sound) {r : Proxy lib × RequestPhase} (hr : p.Routes r) : r.1.Sound := by
  obtain ⟨⟨view, rrIndex, breakers, objects, fresh, now, refreshes, requests, events⟩, phase⟩ := r
  obtain ⟨rfl, rfl, rfl, rfl, rfl, rfl, -⟩ := hr
  exact ⟨h.known, h.unique, h.made, h.underWay, h.tripped, h.order⟩

/-- An address is called when none of its trips is recent. -/
theorem attempted (h : p.Sound) {addr : String}
    (hold : ∀ time, .tripped addr time ∈ p.events → time + openTimeout < p.now) :
    ({ p with events := p.events ++ [.attempted addr p.now] } : Proxy lib).Sound where
  known := h.known
  unique := h.unique
  made := h.made
  underWay := h.underWay
  tripped {addr' time} htrip hnow := by
    rcases List.mem_append.1 htrip with htrip | htrip
    · exact h.tripped htrip hnow
    · simp at htrip
  order := by
    refine List.pairwise_append.2 ⟨h.order, List.pairwise_singleton _ _, fun e he e' he' => ?_⟩
    cases List.mem_singleton.1 he'
    cases e with
    | attempted addr' time => trivial
    | tripped addr' time =>
        intro haddr
        exact hold time (haddr ▸ he)

/-- A breaker trips and is open from now on. -/
theorem trip (h : p.Sound) {addr : String} {b : Nat} (hb : (addr, b) ∈ p.breakers)
    (hopen : lib.OpenUntil (p.objects b) (p.now + openTimeout)) :
    ({ p with events := p.events ++ [.tripped addr p.now] } : Proxy lib).Sound where
  known := h.known
  unique := h.unique
  made := h.made
  underWay := h.underWay
  tripped {addr' time} htrip hnow := by
    rcases List.mem_append.1 htrip with htrip | htrip
    · exact h.tripped htrip hnow
    · cases List.mem_singleton.1 htrip
      exact ⟨b, hb, hopen⟩
  order := by
    refine List.pairwise_append.2 ⟨h.order, List.pairwise_singleton _ _, fun e he e' he' => ?_⟩
    cases List.mem_singleton.1 he'
    cases e <;> trivial

theorem breakerFor (h : p.Sound) (addr : String) :
    (p.breakerFor addr).1.Sound ∧
      (addr, (p.breakerFor addr).2) ∈ (p.breakerFor addr).1.breakers := by
  unfold Proxy.breakerFor
  cases hl : p.breakers.lookup addr with
  | some b =>
      obtain ⟨l₁, l₂, heq, -⟩ := List.lookup_eq_some_iff.1 hl
      exact ⟨h, heq ▸ List.mem_append_right _ (List.mem_cons_self ..)⟩
  | none =>
      have hnew : ∀ b, (addr, b) ∉ p.breakers := fun b hb => by
        have := List.lookup_eq_none_iff.1 hl (addr, b) hb
        simp at this
      refine ⟨⟨?_, ?_, ?_, ?_, ?_, h.order⟩, List.mem_append_right _ (List.mem_singleton.2 rfl)⟩
      · intro entry hentry
        rcases List.mem_append.1 hentry with hentry | hentry
        · exact Nat.lt_succ_of_lt (h.known entry hentry)
        · cases List.mem_singleton.1 hentry
          exact Nat.lt_succ_self _
      · intro addr' b b' hb hb'
        rcases List.mem_append.1 hb with hb | hb <;> rcases List.mem_append.1 hb' with hb' | hb'
        · exact h.unique hb hb'
        · cases List.mem_singleton.1 hb'
          exact absurd hb (hnew b)
        · cases List.mem_singleton.1 hb
          exact absurd hb' (hnew b')
        · cases List.mem_singleton.1 hb
          cases List.mem_singleton.1 hb'
          rfl
      · intro entry hentry
        rcases List.mem_append.1 hentry with hentry | hentry
        · have hne : entry.2 ≠ p.fresh := Nat.ne_of_lt (h.known _ hentry)
          exact (p.objects_setBreaker_of_ne hne _).symm ▸ h.made entry hentry
        · cases List.mem_singleton.1 hentry
          exact (p.objects_setBreaker_self p.fresh _).symm ▸ Gobreaker.made_newCircuitBreaker _ _
      · exact fun req hreq entry hentry => List.mem_append_left _ (h.underWay req hreq entry hentry)
      · intro addr' time htrip hnow
        obtain ⟨b, hmem, hopen⟩ := h.tripped htrip hnow
        have hne : b ≠ p.fresh := Nat.ne_of_lt (h.known _ hmem)
        refine ⟨b, List.mem_append_left _ hmem, ?_⟩
        exact (p.objects_setBreaker_of_ne hne _).symm ▸ hopen

theorem registryState (h : p.Sound) (addr : String) : (p.registryState addr).1.Sound := by
  unfold Proxy.registryState
  split
  · exact h.use _ .state
  · exact h

/-- The breaker of an address lets no call through while a trip is recent. -/
theorem enter (h : p.Sound) {addr : String} {b : Nat} (hb : (addr, b) ∈ p.breakers)
    (route : Route) :
    (p.enter route addr b).1.Sound ∧
      ∀ entry ∈ (p.enter route addr b).2.breaker?, entry ∈ (p.enter route addr b).1.breakers := by
  have hset : (p.setBreaker b (lib.beforeRequest (p.objects b) p.now).1).Sound :=
    h.use b .beforeRequest
  unfold Proxy.enter
  dsimp only
  split
  · rename_i generation hok
    refine ⟨hset.attempted fun time htrip => ?_, fun entry hentry => ?_⟩
    · refine Nat.lt_of_not_le fun (hnow : p.now ≤ time + openTimeout) => ?_
      obtain ⟨b', hb', hopen⟩ := h.tripped htrip hnow
      rw [h.unique hb hb'] at hok
      exact hopen.refuses hnow generation hok
    · cases hentry
      exact hb
  · rename_i detail _
    have hr := (p.setBreaker b (lib.beforeRequest (p.objects b) p.now).1).routes_callFailed
      detail route
    refine ⟨hset.routes hr, fun entry hentry => ?_⟩
    rw [hr.phase] at hentry
    cases hentry

/-- A trip is backed by the breaker that has tripped. -/
theorem report (hlib : lib.StaysOpen) (h : p.Sound) {addr : String} {b : Nat}
    (hb : (addr, b) ∈ p.breakers) (generation : Nat) (success : Bool) :
    (p.report addr b generation success).Sound := by
  have hset : (p.setBreaker b (lib.afterRequest (p.objects b) generation success p.now).1).Sound :=
    h.use b (.afterRequest generation success)
  unfold Proxy.report
  dsimp only
  split
  · rename_i htrip
    refine (hset.trip hb ?_).routes (Proxy.routes_giveUp _ "" 0)
    rw [objects_setBreaker_self]
    exact hlib _ _ (h.made _ hb) generation success p.now htrip
  · exact hset

theorem checkOpen (h : p.Sound) (view : Pb.ClusterView) (call : ClientCall) (addrs : List String) :
    (p.checkOpen view call addrs).1.Sound ∧
      (p.checkOpen view call addrs).2.breaker? = none := by
  have hroute : ∀ {q : Proxy lib}, q.Sound →
      (q.dispatch view call).1.Sound ∧ (q.dispatch view call).2.breaker? = none :=
    fun {q} hq => ⟨hq.routes (q.routes_dispatch view call), (q.routes_dispatch view call).phase⟩
  cases addrs with
  | nil =>
      dsimp only [Proxy.checkOpen]
      split
      · exact hroute h
      · exact ⟨h, rfl⟩
  | cons addr addrs =>
      dsimp only [Proxy.checkOpen]
      split
      · exact ⟨h.registryState addr, rfl⟩
      · exact hroute (h.registryState addr)

/-- One step of a client call. -/
theorem proceed (hlib : lib.StaysOpen) (h : p.Sound) {call : ClientCall} {a : RequestAction}
    {phase : RequestPhase}
    (hphase : ∀ entry ∈ phase.breaker?, entry ∈ p.breakers) {r : Proxy lib × RequestPhase}
    (hr : p.proceed call a phase = some r) :
    r.1.Sound ∧ ∀ entry ∈ r.2.breaker?, entry ∈ r.1.breakers := by
  have hnone : ∀ {r : Proxy lib × RequestPhase}, r.1.Sound ∧ r.2.breaker? = none →
      r.1.Sound ∧ ∀ entry ∈ r.2.breaker?, entry ∈ r.1.breakers := fun {r} hr =>
    ⟨hr.1, fun entry hentry => by rw [hr.2] at hentry; cases hentry⟩
  unfold Proxy.proceed at hr
  split at hr
  · cases hr
    exact hnone (h.checkOpen _ _ _)
  · rename_i route addr
    cases hr
    obtain ⟨hsound, hmem⟩ := h.breakerFor addr
    refine ⟨hsound, fun entry hentry => ?_⟩
    cases hentry
    exact hmem
  · cases hr
    exact h.enter (hphase _ rfl) _
  · rename_i result route addr b generation
    cases hr
    have hr := (p.report addr b generation result.isSuccessful).routes_callReturned route result
    exact hnone ⟨(report hlib h (hphase _ rfl) _ _).routes hr, hr.phase⟩
  · cases hr
    exact hnone ⟨h.routes (p.routes_callLeader _ _), (p.routes_callLeader _ _).phase⟩
  · cases hr

theorem setPhase {r : Proxy lib × RequestPhase} (h : r.1.Sound)
    (hphase : ∀ entry ∈ r.2.breaker?, entry ∈ r.1.breakers) (k : Nat) :
    (Proxy.setPhase r k).Sound where
  known := h.known
  unique := h.unique
  made := h.made
  underWay req hreq entry hentry := by
    obtain ⟨i, hi⟩ := List.mem_iff_getElem?.1 hreq
    unfold Proxy.setPhase at hi
    rw [List.getElem?_modify] at hi
    obtain ⟨old, hold, rfl⟩ := Option.map_eq_some_iff.1 hi
    by_cases hk : k = i
    · rw [if_pos hk] at hentry
      exact hphase entry hentry
    · rw [if_neg hk] at hentry
      exact h.underWay old (List.mem_of_getElem? hold) entry hentry
  tripped := h.tripped
  order := h.order

theorem prune (h : p.Sound) {live : List String} (hspares : p.Spares live) :
    (p.prune live).Sound where
  known entry hentry := h.known entry (List.mem_filter.1 hentry).1
  unique hb hb' := h.unique (List.mem_filter.1 hb).1 (List.mem_filter.1 hb').1
  made entry hentry := h.made entry (List.mem_filter.1 hentry).1
  underWay req hreq entry hentry := List.mem_filter.2
    ⟨h.underWay req hreq entry hentry, decide_eq_true (hspares.2 req hreq entry hentry)⟩
  tripped {addr time} htrip hnow := by
    obtain ⟨b, hmem, hopen⟩ := h.tripped htrip hnow
    exact ⟨b, List.mem_filter.2 ⟨hmem, decide_eq_true (hspares.1 _ hmem (hopen.state hnow))⟩, hopen⟩
  order := h.order

/-- **Every safe step keeps the invariant.** -/
theorem step (hlib : lib.StaysOpen) (h : p.Sound) {a : ProxyAction} (hsafe : p.Safe a)
    {p' : Proxy lib} (hs : p.step a = some p') : p'.Sound := by
  cases a with
  | elapse d =>
      cases hs
      exact ⟨h.known, h.unique, h.made, h.underWay, fun htrip hnow => h.tripped htrip (by
        simp only at hnow
        omega), h.order⟩
  | call c =>
      cases hs
      refine ⟨h.known, h.unique, h.made, fun req hreq entry hentry => ?_, h.tripped, h.order⟩
      rcases List.mem_append.1 hreq with hreq | hreq
      · exact h.underWay req hreq entry hentry
      · cases List.mem_singleton.1 hreq
        cases hentry
  | request k a =>
      obtain ⟨req, hreq, hs⟩ := Option.bind_eq_some_iff.1 hs
      obtain ⟨r, hr, hs⟩ := Option.bind_eq_some_iff.1 hs
      cases hs
      obtain ⟨hsound, hphase⟩ := proceed hlib h (h.underWay req (List.mem_of_getElem? hreq)) hr
      exact hsound.setPhase hphase k
  | refresh =>
      cases hs
      exact h.routes (p.routes_giveUp "" 0)
  | refreshed k view =>
      obtain ⟨phase, -, hs⟩ := Option.bind_eq_some_iff.1 hs
      obtain ⟨-, -, hs⟩ := Option.bind_eq_some_iff.1 hs
      cases view <;> cases hs <;> exact ⟨h.known, h.unique, h.made, h.underWay, h.tripped, h.order⟩
  | prune k =>
      obtain ⟨phase, hphase, hs⟩ := Option.bind_eq_some_iff.1 hs
      cases phase with
      | pruning live =>
          cases hs
          have hlive : live ∈ (p.refreshes[k]?).bind RefreshPhase.live? := by
            rw [hphase]
            rfl
          have hp := h.prune (hsafe live hlive)
          exact ⟨hp.known, hp.unique, hp.made, hp.underWay, hp.tripped, hp.order⟩
      | fetching => cases hs
      | finished => cases hs

end Proxy.Sound

/-! ## The theorem -/

/-- **A tripped breaker stays effective.**  With breakers that stay open, and when `Prune` spares
those in use, a call of an address that follows a trip of its breaker comes after the open
timeout. -/
theorem tripped_breaker_effective (lib : Gobreaker) (hlib : lib.StaysOpen)
    (as : List ProxyAction) (p : Proxy lib)
    (hsafe : Runs.Along Proxy.step Proxy.Safe (newProxy lib) as)
    (hrun : Runs.exec Proxy.step (newProxy lib) as = some p) {i j : Nat} (hij : i < j)
    {addr : String} {trip time : Nat} (htrip : p.events[i]? = some (.tripped addr trip))
    (hcall : p.events[j]? = some (.attempted addr time)) : trip + openTimeout < time := by
  have hsound := Runs.invariant (fun s a s' (h : s.Sound) hok hs => h.step hlib hok hs)
    Sound.newProxy hsafe hrun
  obtain ⟨hj, hcall⟩ := List.getElem?_eq_some_iff.1 hcall
  obtain ⟨hi, htrip⟩ := List.getElem?_eq_some_iff.1 htrip
  have hresp := List.pairwise_iff_getElem.1 hsound.order i j hi hj hij
  rw [htrip, hcall] at hresp
  exact hresp rfl

/-! ## Examples -/

/-- The leader `a` and its followers answer a poll. -/
def allAnswer : List PollResult :=
  [⟨"a", some (.leader, 1)⟩, ⟨"b", some (.follower, 1)⟩, ⟨"c", some (.follower, 1)⟩]

/-- The first refresh of the proxy. -/
def firstRefresh : List ProxyAction :=
  [.refresh, .refreshed 0 (some (pollOnce allAnswer)), .prune 0]

/-- A write that does not reach the leader. -/
def failedWrite (k : Nat) : List ProxyAction :=
  [.call (.write .opPut "x" "1"), .request k .checkOpen, .request k .breakerFor,
    .request k .enter, .request k (.answer (.error "unreachable"))]

/-- Three writes fail, and the refresh that the trip starts finds all nodes.  Another write is
refused; the one after the timeout is let through. -/
def spared : List ProxyAction :=
  firstRefresh ++ failedWrite 0 ++ failedWrite 1 ++ failedWrite 2 ++
    [.refreshed 1 (some (pollOnce allAnswer)), .prune 1] ++
    [.call (.write .opPut "x" "1"), .request 3 .checkOpen, .request 3 .checkOpen,
      .request 3 .breakerFor, .request 3 .enter, .elapse 2001] ++ failedWrite 4

theorem tripped_breaker_effective_spared : ∃ p,
    Runs.exec Proxy.step (newProxy gobreaker) spared = some p ∧
    p.events[3]? = some (.tripped "a" 0) ∧ p.events[4]? = some (.attempted "a" 2001) ∧
    0 + openTimeout < 2001 := by
  have hsafe : Runs.Along Proxy.step Proxy.Safe (newProxy gobreaker) spared := by decide +kernel
  obtain ⟨p, hrun, htrip, hcall⟩ := Runs.exists_of_exec
    (fun p : Proxy gobreaker => p.events[3]? = some (.tripped "a" 0) ∧
      p.events[4]? = some (.attempted "a" 2001))
    (by decide +kernel : (Runs.exec Proxy.step (newProxy gobreaker) spared).any _ = true)
  exact ⟨p, hrun, htrip, hcall, tripped_breaker_effective gobreaker gobreaker_staysOpen spared p
    hsafe hrun (by decide) htrip hcall⟩

/-- Three writes fail, and `a` does not answer the poll either.  A follower still takes `a` for
the leader. -/
def prunedByTrip : List ProxyAction :=
  firstRefresh ++ failedWrite 0 ++ failedWrite 1 ++ failedWrite 2 ++
    [.refreshed 1 (some (pollOnce
      [⟨"a", none⟩, ⟨"b", some (.follower, 1)⟩, ⟨"c", some (.follower, 1)⟩])), .prune 1] ++
    [.call (.get "x"), .request 3 .checkOpen, .request 3 .breakerFor, .request 3 .enter,
      .request 3 (.answer (.get { ok := false, redirectLeader := "a" })),
      .request 3 .fallback, .request 3 .breakerFor, .request 3 .enter]

/-- The breaker of `a` trips and is pruned by the refresh that the trip has started: `a` is
called again at once. -/
theorem called_after_trip : ∃ p,
    Runs.exec Proxy.step (newProxy gobreaker) prunedByTrip = some p ∧
    p.events = [.attempted "a" 0, .attempted "a" 0, .attempted "a" 0, .tripped "a" 0,
      .attempted "b" 0, .attempted "a" 0] :=
  Runs.exists_of_exec _
    (by decide +kernel : (Runs.exec Proxy.step (newProxy gobreaker) prunedByTrip).any _ = true)

end B5KvStore
