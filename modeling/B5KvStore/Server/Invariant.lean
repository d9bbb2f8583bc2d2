import B5KvStore.Server.Calls

/-!
# All calls of the servers together

A handler takes a step, with or without a step of the cluster, and every call keeps what it
relies on.  Beyond that, calls are related to each other: no two of them have the same entry, a
call that comes in finds everything announced that a call before it has reported, and whatever is
committed when a call returns was asked for by a call that had come in.

* `KVCall.Move` — what a step of a handler does to the entry and the time of its call.
* `Servers.Inv` — what holds of all calls together.
* `Servers.Inv.step` — every step keeps it.
-/

namespace B5KvStore

open ReplicatedLog (CommittedAt Extends)

/-! ## Steps of handlers -/

section

variable {c : Config} {marshal : Marshal} {C : Set LogEntry} {a a' : Model} {s s' : Servers}
  {x x' y : KVCall} {act? : Option Action} {act : ServersAction} {e : LogEntry}

/-- What runs in the cluster beside the handlers creates no entries. -/
theorem created_of_internal {cl : Cluster} {b : Action} (h : b.internal = true) :
    created cl b = none := by
  have hop : ∀ {op : Op}, op.internal = true → op.creates cl = none := by
    intro op hop
    cases op <;> first | rfl | exact absurd hop (by simp [Op.internal])
  cases b with
  | run op => exact hop h
  | crashDuring op k =>
      have hnone : op.creates cl = none := hop h
      simp [created, hnone]
  | crash p => rfl
  | publish file => rfl

namespace KVCall.Move

theorem invoked (h : x.Move marshal s x' act?) : x'.invoked = x.invoked := by
  cases h with
  | returns k call outcome hstage hk hchan =>
      cases outcome with
      | none => rfl
      | some err => cases err <;> rfl
  | _ => rfl

theorem startedAt (h : x.Move marshal s x' act?) : x'.startedAt = x.startedAt := by
  cases h with
  | returns k call outcome hstage hk hchan =>
      cases outcome with
      | none => rfl
      | some err => cases err <;> rfl
  | _ => rfl

/-- If it returns, it returns now. -/
theorem time (h : x.Move marshal s x' act?) {t m : Nat} (hmark : x'.mark? = some (t, m)) :
    t = s.clock := by
  have hnow : ∀ {reply : RpcResult} {n : Nat},
      ({ x with stage := .returned s.clock reply, seen := n } : KVCall).mark? = some (t, m) →
      t = s.clock := by
    intro reply n hm
    cases reply with
    | write r =>
        simp only [KVCall.mark?, Option.ite_none_right_eq_some, Option.some.injEq,
          Prod.mk.injEq] at hm
        exact hm.2.1.symm
    | get r =>
        simp only [KVCall.mark?, Option.ite_none_right_eq_some, Option.some.injEq,
          Prod.mk.injEq] at hm
        exact hm.2.1.symm
    | error detail => exact absurd hm (by simp [KVCall.mark?])
  cases h with
  | returns k call outcome hstage hk hchan =>
      cases outcome with
      | none => exact hnow hmark
      | some err =>
          cases err with
          | saveState => exact hnow hmark
          | notLeader => exact absurd hmark (by simp [KVCall.outcome, KVCall.mark?])
          | leadershipLost => exact absurd hmark (by simp [KVCall.outcome, KVCall.mark?])
  | unencoded | cancel | value | redirect => exact hnow hmark
  | crash _ _ hstage => exact absurd hmark (by simp [KVCall.mark?, hstage])
  | _ => exact absurd hmark (by simp [KVCall.mark?])

/-- What a handler does to the entry of its call: nothing, or the leader appends one. -/
theorem entry (h : x.Move marshal s x' act?) (hnone : x.stage = .entered → x.entry = none) :
    x'.entry = x.entry ∨ x.entry = none ∧ (s.cluster.hosts x.server).node.role = .leader ∧
      ∃ command, x'.entry = some ⟨(s.cluster.hosts x.server).node.currentTerm,
        (s.cluster.hosts x.server).node.lastLogIndexLocked + 1, command⟩ := by
  cases h with
  | accept payload hstage hpayload hrole => exact Or.inr ⟨hnone hstage, hrole, _, rfl⟩
  | crash payload k hstage hpayload e he hcreated =>
      rcases he with rfl | ⟨hrole, rfl⟩
      · exact Or.inl (hnone hstage).symm
      · exact Or.inr ⟨hnone hstage, hrole, _, rfl⟩
  | returns k call outcome hstage hk hchan =>
      cases outcome with
      | none => exact Or.inl rfl
      | some err => cases err <;> exact Or.inl rfl
  | _ => exact Or.inl rfl

/-- An entry that is created belongs to the call. -/
theorem created (h : x.Move marshal s x' act?)
    (he : act?.bind (B5KvStore.created s.cluster) = some e) : x'.entry = some e := by
  cases h with
  | accept payload hstage hpayload hrole =>
      simpa [B5KvStore.created, Op.creates, KVCall.proposeSync, hrole] using he
  | refuse payload hstage hpayload hrole =>
      exact absurd he (by simp [B5KvStore.created, Op.creates, KVCall.proposeSync, hrole])
  | crash payload k hstage hpayload e' he' hcreated => exact hcreated.symm.trans he
  | _ => exact absurd he (by simp [B5KvStore.created, Op.creates])

end KVCall.Move

/-- No call has the entry that a leader appends next. -/
theorem Serving.fresh {cl : Cluster} (hserv : Serving c C a cl) {p : String} (hp : p ∈ c.addrs)
    (hrole : (cl.hosts p).node.role = .leader) {request : ClientCall} {command : List UInt8}
    (hown : request.Owns c marshal a cl ⟨(cl.hosts p).node.currentTerm,
      (cl.hosts p).node.lastLogIndexLocked + 1, command⟩) : False := by
  obtain ⟨l, L, -, hled, hin | hnot⟩ := hown.leader
  · exact hserv.view.not_led_next hp hrole hled hin rfl
  · have hn := hserv.view.nodes p hp
    have hledp := hn.led hserv.view.reach hrole
    rw [hn.term] at hledp
    obtain ⟨rfl, -⟩ := Prod.mk.inj (Option.some.inj (hledp.symm.trans hled))
    exact hnot ⟨hrole, rfl⟩

/-! ## All calls together -/

/-- **What holds of all calls together.** -/
structure Servers.Inv (c : Config) (marshal : Marshal) (a : Model) (s : Servers) : Prop where
  serving : Serving c s.entries a s.cluster
  calls : ∀ x ∈ s.calls, x.View c marshal a s.cluster s.clock
  sorted : (s.calls.map KVCall.invoked).Pairwise (· < ·)
  distinct : ∀ (j j' : Nat) (x y : KVCall) (e : LogEntry), s.calls[j]? = some x →
    s.calls[j']? = some y → x.entry = some e → y.entry = some e → j = j'
  order : ∀ x ∈ s.calls, ∀ y ∈ s.calls, ∀ t m, x.mark? = some (t, m) → t < y.invoked →
    m = 0 ∨ Announced (s.cluster.history.take y.startedAt) m
  origin : ∀ x ∈ s.calls, ∀ t m, x.mark? = some (t, m) → ∀ i, 0 < i → i ≤ m →
    ∃ e, CommittedAt a i e ∧ ∃ y ∈ s.calls, y.entry = some e ∧ y.invoked < t

theorem mem_set_of_mem {α : Type} {xs : List α} {j : Nat} {x y : α} (x' : α)
    (hj : xs[j]? = some x) (hy : y ∈ xs) : y ∈ xs.set j x' ∨ y = x ∧ x' ∈ xs.set j x' := by
  obtain ⟨k, hk⟩ := List.mem_iff_getElem?.1 hy
  by_cases hkj : j = k
  · subst hkj
    rw [hj, Option.some.injEq] at hk
    exact Or.inr ⟨hk.symm, List.mem_set (List.getElem?_eq_some_iff.1 hj).1 x'⟩
  · left
    rw [← List.getElem?_set_ne hkj (a := x')] at hk
    exact List.mem_of_getElem? hk

namespace Servers.Inv

theorem init (c : Config) (marshal : Marshal) : Inv c marshal .init (.init c) where
  serving := (Serving.init c).mono (Set.empty_subset _)
  calls := by simp [Servers.init]
  sorted := by simp [Servers.init]
  distinct := by simp [Servers.init]
  order := by simp [Servers.init]
  origin := by simp [Servers.init]

theorem unproposed (h : Inv c marshal a s) : s.Unproposed := by
  intro x hx hepoch hstage
  have hst := (h.calls x hx).stands
  unfold KVCall.Stands at hst
  rw [hstage] at hst
  exact hst hepoch

/-- The cluster takes the step that belongs to an action. -/
theorem advance (h : Inv c marshal a s) (hok : s.Sound c marshal act)
    (hact : s.clusterAction? marshal act = act?) {cl : Cluster}
    (hs : Servers.stepCluster c s.cluster act? = some cl) :
    ∃ a', Extends a a' ∧
      Serving c (s.entries ∪ {e | act?.bind (created s.cluster) = some e}) a' cl ∧
      (∀ x ∈ s.calls, x.View c marshal a' cl (s.clock + 1)) ∧ s.cluster.history <+: cl.history := by
  cases act? with
  | none =>
      obtain rfl : s.cluster = cl := Option.some.inj hs
      exact ⟨a, .refl a, h.serving.mono Set.subset_union_left,
        fun x hx => (h.calls x hx).later (Nat.le_succ _), List.prefix_refl _⟩
  | some b =>
      obtain ⟨a', hx, hserv⟩ := h.serving.step (hok.safe b hact) (hok.confirmed b hact)
        (hok.correct b hact) (hok.undisturbed b hact) hs
      exact ⟨a', hx, hserv, fun x hmem => (h.calls x hmem).step h.serving hx (hok.safe b hact) hs
        (Nat.le_succ _), step_history hs⟩

/-- Something happens in the cluster that is no part of a handler. -/
theorem cluster (h : Inv c marshal a s) (hok : s.Sound c marshal act) {b : Action} {cl : Cluster}
    (hact : s.clusterAction? marshal act = some b) (hinternal : b.internal = true)
    (hs : B5KvStore.step c s.cluster b = some cl) :
    ∃ a', Inv c marshal a' ⟨cl, s.calls, s.clock + 1⟩ := by
  obtain ⟨a', hx, hserv, hcalls, hhist⟩ := h.advance hok hact hs
  refine ⟨a', hserv.mono ?_, hcalls, h.sorted, h.distinct, fun x hxm y hym t m hmark hlt => ?_,
    fun x hxm t m hmark i hpos hle => ?_⟩
  · rintro e (he | he)
    · exact he
    · exact absurd he (by simp [created_of_internal hinternal])
  · exact (h.order x hxm y hym t m hmark hlt).imp_right fun hann => by
      rw [ReplicatedLog.take_eq_of_isPrefix hhist (h.calls y hym).started]
      exact hann
  · obtain ⟨e, hcom, hy⟩ := h.origin x hxm t m hmark i hpos hle
    exact ⟨e, hcom.mono hx, hy⟩

/-- A call comes in. -/
theorem receive (h : Inv c marshal a s) {p : String} {request : ClientCall} (hp : p ∈ c.addrs) :
    Inv c marshal a ⟨s.cluster, s.calls ++ [⟨p, (s.cluster.hosts p).epoch, request, s.clock,
      s.cluster.history.length, .entered, none, 0⟩], s.clock + 1⟩ := by
  refine ⟨h.serving.mono ?_, fun x hx => ?_, ?_, fun j j' x y e hj hj' he he' => ?_,
    fun x hx y hy t m hmark hlt => ?_, fun x hx t m hmark i hpos hle => ?_⟩
  · rintro e ⟨x, hx, he⟩
    exact ⟨x, List.mem_append_left _ hx, he⟩
  · rcases List.mem_append.1 hx with hx | hx
    · exact (h.calls x hx).later (Nat.le_succ _)
    · obtain rfl := List.mem_singleton.1 hx
      exact ⟨hp, le_refl _, le_refl _, Nat.lt_succ_self _, fun e he => absurd he (by simp),
        fun _ => rfl⟩
  · rw [List.map_append, List.pairwise_append]
    refine ⟨h.sorted, List.pairwise_singleton .., ?_⟩
    intro t ht u hu
    obtain ⟨x, hx, rfl⟩ := List.mem_map.1 ht
    obtain rfl := List.mem_singleton.1 hu
    exact (h.calls x hx).invoked
  · -- the new call has no entry
    have hold : ∀ {k : Nat} {z : KVCall}, (s.calls ++ [⟨p, (s.cluster.hosts p).epoch, request,
        s.clock, s.cluster.history.length, .entered, none, 0⟩])[k]? = some z →
        z.entry = some e → s.calls[k]? = some z := by
      intro k z hk hz
      by_cases hlt : k < s.calls.length
      · rwa [List.getElem?_append_left hlt] at hk
      · rw [List.getElem?_append_right (Nat.le_of_not_lt hlt)] at hk
        rw [List.mem_singleton.1 (List.mem_of_getElem? hk)] at hz
        exact absurd hz (by simp)
    exact h.distinct j j' x y e (hold hj he) (hold hj' he') he he'
  · rcases List.mem_append.1 hx with hx | hx
    · obtain ⟨-, htime, hann⟩ := (h.calls x hx).committed h.serving.view hmark
      rcases List.mem_append.1 hy with hy | hy
      · exact h.order x hx y hy t m hmark hlt
      · rw [List.mem_singleton.1 hy, List.take_length]
        exact hann
    · rw [List.mem_singleton.1 hx] at hmark
      exact absurd hmark (by simp [KVCall.mark?])
  · rcases List.mem_append.1 hx with hx | hx
    · obtain ⟨e, hcom, y, hy, hrest⟩ := h.origin x hx t m hmark i hpos hle
      exact ⟨e, hcom, y, List.mem_append_left _ hy, hrest⟩
    · rw [List.mem_singleton.1 hx] at hmark
      exact absurd hmark (by simp [KVCall.mark?])

/-- A handler goes on. -/
theorem handle (h : Inv c marshal a s) (hok : s.Sound c marshal act) {j : Nat} {cl : Cluster}
    (hmoved : s.moved marshal act = some (j, x, x', act?)) (hj : s.calls[j]? = some x)
    (hepoch : x.epoch = (s.cluster.hosts x.server).epoch) (hmove : x.Move marshal s x' act?)
    (hact : s.clusterAction? marshal act = act?)
    (hs : Servers.stepCluster c s.cluster act? = some cl) :
    ∃ a', Inv c marshal a' (s.setCall j x' cl) := by
  obtain ⟨a', hx, hserv, hcalls, hhist⟩ := h.advance hok hact hs
  have hxm := List.mem_of_getElem? hj
  have hold := h.calls x hxm
  have hentry := hmove.entry (h.unproposed x hxm hepoch)
  have hview : x'.View c marshal a' cl (s.clock + 1) :=
    hmove.view hold (hcalls x hxm) hepoch h.serving hserv hx hs
      (fun hto hfrom => hok.leads x (by simp [Servers.letThrough?, hmoved, hto, hfrom]))
      (fun hfrom => hok.settled x (by simp [Servers.readsMap?, hmoved, hfrom]))
  -- what has been appended for a call is still there
  have hstays : ∀ y ∈ s.calls, ∀ e, y.entry = some e →
      ∃ z ∈ s.calls.set j x', z.entry = some e ∧ z.invoked = y.invoked := by
    intro y hy e he
    rcases mem_set_of_mem x' hj hy with hy | ⟨rfl, hmem⟩
    · exact ⟨y, hy, he, rfl⟩
    · refine ⟨x', hmem, ?_, hmove.invoked⟩
      rcases hentry with heq | ⟨hnone, -⟩
      · rw [heq, he]
      · exact absurd (hnone.symm.trans he) (by simp)
  have hserv' : Serving c (s.setCall j x' cl).entries a' cl := by
    refine hserv.mono ?_
    rintro e (⟨y, hy, he⟩ | he)
    · obtain ⟨z, hz, hze, -⟩ := hstays y hy e he
      exact ⟨z, hz, hze⟩
    · exact ⟨x', List.mem_set (List.getElem?_eq_some_iff.1 hj).1 x', hmove.created he⟩
  have hbefore : ∀ z ∈ s.calls.set j x', z.invoked < s.clock := by
    intro z hz
    rcases List.mem_or_eq_of_mem_set hz with hz | rfl
    · exact (h.calls z hz).invoked
    · rw [hmove.invoked]
      exact hold.invoked
  refine ⟨a', hserv', fun z hz => ?_, ?_, ?_, fun y hy z hz t m hmark hlt => ?_,
    fun y hy t m hmark i hpos hle => ?_⟩
  · rcases List.mem_or_eq_of_mem_set hz with hz | rfl
    · exact hcalls z hz
    · exact hview
  · obtain ⟨hlt, hget⟩ := List.getElem?_eq_some_iff.1 hj
    have hlt' : j < (s.calls.map KVCall.invoked).length := by simpa using hlt
    have hsame : x'.invoked = (s.calls.map KVCall.invoked)[j] := by
      rw [List.getElem_map, hget, hmove.invoked]
    show ((s.calls.set j x').map KVCall.invoked).Pairwise (· < ·)
    rw [List.map_set, hsame, List.set_getElem_self]
    exact h.sorted
  · -- an entry that is appended now is not the entry of another call
    have hown : ∀ {k : Nat} {z : KVCall} {e : LogEntry}, j ≠ k → s.calls[k]? = some z →
        z.entry = some e → x'.entry = some e → False := by
      intro k z e hne hk hz hx'
      rcases hentry with heq | ⟨-, hrole, command, heq⟩
      · exact hne (h.distinct j k x z e hj hk (heq.symm.trans hx') hz)
      · obtain rfl := Option.some.inj (heq.symm.trans hx')
        exact h.serving.fresh hold.server hrole
          ((h.calls z (List.mem_of_getElem? hk)).entry _ hz)
    intro k k' y z e hk hk' hy hz
    change (s.calls.set j x')[k]? = some y at hk
    change (s.calls.set j x')[k']? = some z at hk'
    by_cases hkj : j = k
    · by_cases hkj' : j = k'
      · exact hkj.symm.trans hkj'
      · subst hkj
        rw [List.getElem?_set_ne hkj'] at hk'
        rw [List.getElem?_set_self (List.getElem?_eq_some_iff.1 hj).1, Option.some.injEq] at hk
        subst hk
        exact (hown hkj' hk' hz hy).elim
    · rw [List.getElem?_set_ne hkj] at hk
      by_cases hkj' : j = k'
      · subst hkj'
        rw [List.getElem?_set_self (List.getElem?_eq_some_iff.1 hj).1, Option.some.injEq] at hk'
        subst hk'
        exact (hown hkj hk hy hz).elim
      · rw [List.getElem?_set_ne hkj'] at hk'
        exact h.distinct k k' y z e hk hk' hy hz
  · rcases List.mem_or_eq_of_mem_set hy with hy | rfl
    · -- the other call is one of the old ones, and started when it did
      obtain ⟨z₀, hz₀, hinv, hstart⟩ : ∃ z₀ ∈ s.calls, z₀.invoked = z.invoked ∧
          z₀.startedAt = z.startedAt := by
        rcases List.mem_or_eq_of_mem_set hz with hz | rfl
        · exact ⟨z, hz, rfl, rfl⟩
        · exact ⟨x, hxm, hmove.invoked.symm, hmove.startedAt.symm⟩
      refine (h.order y hy z₀ hz₀ t m hmark (hinv ▸ hlt)).imp_right fun hann => ?_
      show Announced (cl.history.take z.startedAt) m
      rw [← hstart, ReplicatedLog.take_eq_of_isPrefix hhist (h.calls z₀ hz₀).started]
      exact hann
    · have hnow := hmove.time hmark
      have hlate := hbefore z hz
      omega
  · rcases List.mem_or_eq_of_mem_set hy with hy | rfl
    · obtain ⟨e, hcom, z, hz, hze, hlt⟩ := h.origin y hy t m hmark i hpos hle
      obtain ⟨z', hz', hze', hinv⟩ := hstays z hz e hze
      exact ⟨e, hcom.mono hx, z', hz', hze', hinv ▸ hlt⟩
    · obtain ⟨-, -, hm | hann⟩ := hview.committed hserv.view hmark
      · omega
      · obtain ⟨e, hcom⟩ := (hserv.view.announced_iff hpos).1 (hann.le hle)
        obtain ⟨z, hz, hze⟩ := hserv'.created_of_committed hcom
        rw [hmove.time hmark]
        exact ⟨e, hcom, z, hz, hze, hbefore z hz⟩

/-- **One step.** -/
theorem step (h : Inv c marshal a s) (hok : s.Sound c marshal act)
    (hstep : s.step c marshal act = some s') : ∃ a', Inv c marshal a' s' := by
  cases Servers.stepView h.unproposed hstep with
  | cluster b cl hact hinternal hs => exact h.cluster hok hact hinternal hs
  | receive p request hp => exact ⟨a, h.receive hp⟩
  | handle j x x' act? cl hmoved hj hepoch hmove hact hs =>
      exact h.handle hok hmoved hj hepoch hmove hact hs

end Servers.Inv

end

end B5KvStore
