import B5KvStore.Cluster.ReadCoverage

/-!
# The order of writes

The index `ProposeSync` returns says where the write stands among all others.  A leader gives a
command the first index above its own log, which may well be one that is committed already: a
leader that has been replaced without noticing does so.  Such a write is never acknowledged,
because the entry committed at the index is one of another term.

* `ClusterView.not_led_next` — the next index of a leader's log is new in its term.
* `CallStep` — what one step of the cluster does to one `ProposeSync` call.
* `acknowledged_writes_ordered` — acknowledged writes have indices of their own, in the order of
  real time.
-/

namespace B5KvStore

open ReplicatedLog (CommittedAt Extends)

section

variable {c : Config} {a a' : Model} {s s' : Cluster} {act : Action} {p : String}

/-- **No log of any leader** holds an entry of the current leader's term where the leader's own
log ends. -/
theorem ClusterView.not_led_next (h : ClusterView c a s) (hp : p ∈ c.addrs)
    (hrole : (s.hosts p).node.role = .leader) {T : Nat} {l : String} {L : List LogEntry}
    (hled : a.led T = some (l, L)) {e : LogEntry}
    (he : L[(s.hosts p).node.lastLogIndexLocked]? = some e) :
    e.term ≠ (s.hosts p).node.currentTerm := by
  intro hterm
  have hn := h.nodes p hp
  have hledp := hn.led h.reach hrole
  rw [hn.term] at hledp
  obtain ⟨l', L', hled', htake⟩ := h.reach.inv.logs.sound_led T l L hled _ e he
  rw [hterm, hledp, Option.some.injEq, Prod.mk.injEq] at hled'
  rw [← hled'.2] at htake
  rw [ReplicatedLog.getElem?_eq_of_take_eq htake (Nat.lt_succ_self _)] at he
  have hlt := (List.getElem?_eq_some_iff.1 he).1
  rw [← Node.lastLogIndexLocked_eq hn.log] at hlt
  exact lt_irrefl _ hlt

/-- An index that is committed when a leader gives it to a command is committed to an entry of
another term. -/
theorem ClusterView.committed_other (h : ClusterView c a s) (hp : p ∈ c.addrs)
    (hrole : (s.hosts p).node.role = .leader) {i : Nat} (hi : Announced s.history i)
    (hle : (s.hosts p).node.lastLogIndexLocked + 1 ≤ i) :
    ∃ e, CommittedAt a ((s.hosts p).node.lastLogIndexLocked + 1) e ∧
      e.term ≠ (s.hosts p).node.currentTerm := by
  obtain ⟨e, he⟩ := (h.announced_iff (Nat.succ_pos _)).1 (hi.le hle)
  obtain ⟨T, N, l, L, -, -, -, hled, hL⟩ := id he
  exact ⟨e, he, h.not_led_next hp hrole hled hL⟩

/-- What a step does to one `ProposeSync` call. -/
inductive CallStep (c : Config) (s : Cluster) (k : Nat) (call' : Proposal) : Prop
  | same (call : Proposal) (hk : s.proposals[k]? = some call) (h : SameCall call call')
  /-- A leader accepts it. -/
  | accepted (hk : k = s.proposals.length) (hleader : call'.leader ∈ c.addrs)
      (hrole : (s.hosts call'.leader).node.role = .leader)
      (hindex : call'.index = (s.hosts call'.leader).node.lastLogIndexLocked + 1)
      (hterm : call'.term = (s.hosts call'.leader).node.currentTerm)

theorem step_call (hwaited : ∀ q, (s.hosts q).node.Waited) (hs : step c s act = some s') {k : Nat}
    {call' : Proposal} (hk : s'.proposals[k]? = some call') : CallStep c s k call' := by
  cases stepView hs with
  | run op o ho =>
      rw [Cluster.proposals_finish] at hk
      rcases (exec_effect ho).calls (hwaited o.host) with
        ⟨hcalls, -⟩ | ⟨command, hp, hrole, -, hcalls⟩
      · obtain ⟨call, hk, hsame, -⟩ := hcalls.notifyAll hk
        exact .same call hk hsame
      · obtain ⟨call, hk, hsame, -⟩ := notifyAll_getElem? hk
        rw [hcalls] at hk
        by_cases hlt : k < s.proposals.length
        · rw [List.getElem?_append_left hlt] at hk
          exact .same call hk hsame
        · have hlen := (List.getElem?_eq_some_iff.1 hk).1
          rw [List.length_append, List.length_singleton] at hlen
          obtain rfl : k = s.proposals.length := by omega
          rw [List.getElem?_concat_length, Option.some.injEq] at hk
          subst hk
          refine .accepted rfl ?_ ?_ ?_ ?_
          · rw [hsame.leader]
            exact hp
          · rw [hsame.leader]
            exact hrole
          · rw [hsame.leader]
            exact hsame.index
          · rw [hsame.leader]
            exact hsame.term
  | crash q _ => exact .same call' hk (.refl _)
  | crashDuring op o j ho => exact .same call' hk (.refl _)
  | publish file => exact .same call' hk (.refl _)

/-- Two calls never wait for the same entry. -/
def OwnEntries (s : Cluster) : Prop :=
  ∀ (k k' : Nat) (call call' : Proposal), k < k' → s.proposals[k]? = some call →
    s.proposals[k']? = some call' → call.term = call'.term → call.index ≠ call'.index

theorem OwnEntries.step (h : OwnEntries s) (hp : Promises c a s) (hv : ClusterView c a s)
    (hs : B5KvStore.step c s act = some s') : OwnEntries s' := by
  intro k k' call₁ call₁' hlt hk hk' hterm hindex
  cases step_call (hp.waited hv) hs hk' with
  | same call' hk₀' hsame' =>
      have hlen := (List.getElem?_eq_some_iff.1 hk₀').1
      cases step_call (hp.waited hv) hs hk with
      | same call hk₀ hsame =>
          exact h k k' call call' hlt hk₀ hk₀' (by rw [← hsame.term, ← hsame'.term, hterm])
            (by rw [← hsame.index, ← hsame'.index, hindex])
      | accepted hnew => omega
  | accepted hnew' hleader' hrole' hindex' hterm' =>
      cases step_call (hp.waited hv) hs hk with
      | same call hk₀ hsame =>
          -- the older call has its entry in the log, the new one gets the index after it
          obtain ⟨hpos, L, hled, hL⟩ := hp.calls call (List.mem_of_getElem? hk₀)
          refine hv.not_led_next hleader' hrole' hled (e := call.entry) ?_ ?_
          · rw [← hL, ← hsame.index, hindex, hindex']
            rfl
          · exact hsame.term.symm.trans (hterm.trans hterm')
      | accepted hnew => omega

/-- Calls made since then that were given an index up to `i` have lost it to another term. -/
def Overruled (a : Model) (s : Cluster) (n i : Nat) : Prop :=
  ∀ (k : Nat) (call : Proposal), n ≤ k → s.proposals[k]? = some call → call.index ≤ i →
    ∃ e, CommittedAt a call.index e ∧ e.term ≠ call.term

theorem Overruled.step {n i : Nat} (h : Overruled a s n i) (hp : Promises c a s)
    (hv : ClusterView c a s) (hi : Announced s.history i) (hx : Extends a a')
    (hs : B5KvStore.step c s act = some s') : Overruled a' s' n i := by
  intro k call' hn hk hle
  cases step_call (hp.waited hv) hs hk with
  | same call hk₀ hsame =>
      rw [hsame.index] at hle ⊢
      rw [hsame.term]
      obtain ⟨e, he, hne⟩ := h k call hn hk₀ hle
      exact ⟨e, he.mono hx, hne⟩
  | accepted hnew hleader hrole hindex hterm =>
      rw [hindex] at hle ⊢
      rw [hterm]
      obtain ⟨e, he, hne⟩ := hv.committed_other hleader hrole hi hle
      exact ⟨e, he.mono hx, hne⟩

end

/-- **Acknowledged writes are in order**, in every run in which no `SaveState` call fails and
snapshots are used safely.  Two calls that have been told `nil` were given different indices; and a
call that was made after another one had been told `nil` was given the larger one. -/
theorem acknowledged_writes_ordered (c : Config) (as bs : List Action) (s₁ s₂ : Cluster)
    (hok₁ : Runs.Along (step c) Safe c.init as) (hrun₁ : run c c.init as = some s₁)
    (hok₂ : Runs.Along (step c) Safe s₁ bs) (hrun₂ : run c s₁ bs = some s₂) :
    (∀ (k k' : Nat) (call call' : Proposal), k ≠ k' → s₂.proposals[k]? = some call →
      s₂.proposals[k']? = some call' → call.chan = some none → call'.chan = some none →
      call.index ≠ call'.index) ∧
    ∀ call ∈ s₁.proposals, ∀ (k : Nat) (call' : Proposal), s₁.proposals.length ≤ k →
      s₂.proposals[k]? = some call' → call.chan = some none → call'.chan = some none →
      call.index < call'.index := by
  have hstart : ∃ a, ClusterView c a s₁ ∧ Promises c a s₁ ∧ OwnEntries s₁ := by
    refine Runs.invariant (I := fun s => ∃ a, ClusterView c a s ∧ Promises c a s ∧ OwnEntries s) ?_
      ⟨_, .init c, .init c, by simp [OwnEntries, Config.init]⟩ hok₁ (run_eq_exec .. ▸ hrun₁)
    rintro s act s' ⟨a, hv, hp, hown⟩ hok hs
    obtain ⟨a', -, hv', hp'⟩ := hp.step hv hok hs
    exact ⟨a', hv', hp', hown.step hp hv hs⟩
  obtain ⟨a₁, hv₁, hp₁, hown₁⟩ := hstart
  -- what was committed in the middle of the run stands against every later call
  have hrest : ∃ a, ClusterView c a s₂ ∧ Promises c a s₂ ∧ OwnEntries s₂ ∧
      ∀ i, Announced s₁.history i → Announced s₂.history i ∧
        Overruled a s₂ s₁.proposals.length i := by
    refine Runs.invariant (I := fun s => ∃ a, ClusterView c a s ∧ Promises c a s ∧ OwnEntries s ∧
      ∀ i, Announced s₁.history i → Announced s.history i ∧
        Overruled a s s₁.proposals.length i) ?_ ⟨a₁, hv₁, hp₁, hown₁, fun i hi => ⟨hi, ?_⟩⟩ hok₂
      (run_eq_exec .. ▸ hrun₂)
    · rintro s act s' ⟨a, hv, hp, hown, hover⟩ hok hs
      obtain ⟨a', hx, hv', hp'⟩ := hp.step hv hok hs
      exact ⟨a', hv', hp', hown.step hp hv hs, fun i hi =>
        ⟨(hover i hi).1.mono (step_history hs), (hover i hi).2.step hp hv (hover i hi).1 hx hs⟩⟩
    · intro k call hk hcall _
      have := (List.getElem?_eq_some_iff.1 hcall).1
      omega
  obtain ⟨a, hv, hp, hown, hover⟩ := hrest
  refine ⟨fun k k' call call' hne hk hk' hchan hchan' hindex => ?_, ?_⟩
  · have hcom := hp.told call (List.mem_of_getElem? hk) hchan
    have hcom' := hp.told call' (List.mem_of_getElem? hk') hchan'
    rw [← hindex] at hcom'
    have hterm : call.term = call'.term :=
      congrArg LogEntry.term (hv.reach.inv.committedAt_unique hcom hcom')
    rcases Nat.lt_or_gt_of_ne hne with hlt | hlt
    · exact hown k k' call call' hlt hk hk' hterm hindex
    · exact hown k' k call' call hlt hk' hk hterm.symm hindex.symm
  · intro call hcall k call' hnew hk' hchan hchan'
    by_contra hle
    have hcom := hp₁.told call hcall hchan
    have hann := (hv₁.announced_iff hcom.pos).2 ⟨_, hcom⟩
    obtain ⟨e, he, hterm⟩ := (hover _ hann).2 k call' hnew hk' (Nat.le_of_not_lt hle)
    have hcom' := hp.told call' (List.mem_of_getElem? hk') hchan'
    exact hterm (congrArg LogEntry.term (hv.reach.inv.committedAt_unique he hcom'))

/-- Node `a` acknowledges a write that it commits with `b`; `b` is elected and acknowledges
another one. -/
def writeTwice : List Action × List Action :=
  (winElection "a" "b" 0 ++ [.run (.proposeSync "a" (putBytes 120 49))] ++ replicate "a" "b" 0,
    winElection "b" "c" 1 ++ [.run (.proposeSync "b" (putBytes 120 50))] ++ replicate "b" "c" 1 ++
      replicate "b" "c" 2)

theorem acknowledged_writes_ordered_writeTwice : ∃ s₁ s₂ call call',
    run trio trio.init writeTwice.1 = some s₁ ∧ run trio s₁ writeTwice.2 = some s₂ ∧
    call ∈ s₁.proposals ∧ s₂.proposals[1]? = some call' ∧ call.chan = some none ∧
    call'.chan = some none ∧ call.index < call'.index := by
  obtain ⟨s₁, hrun₁, hcalls, hrest⟩ := exists_of_run (fun s : Cluster =>
    s.proposals = [⟨"a", 0, 1, 1, putBytes 120 49, some none, false⟩] ∧
      Runs.Along (step trio) Safe s writeTwice.2 ∧
      (run trio s writeTwice.2).any (fun s₂ : Cluster => decide
        (s₂.proposals[1]? = some (⟨"b", 0, 2, 2, putBytes 120 50, some none, false⟩ : Proposal)))
          = true)
    (by decide +kernel : (run trio trio.init writeTwice.1).any _ = true)
  obtain ⟨hok₂, hlast⟩ := hrest
  obtain ⟨s₂, hrun₂, hk⟩ := exists_of_run (fun s₂ : Cluster =>
    s₂.proposals[1]? = some (⟨"b", 0, 2, 2, putBytes 120 50, some none, false⟩ : Proposal)) hlast
  have hcall : ⟨"a", 0, 1, 1, putBytes 120 49, some none, false⟩ ∈ s₁.proposals := by
    rw [hcalls]
    exact List.mem_singleton_self _
  exact ⟨s₁, s₂, _, _, hrun₁, hrun₂, hcall, hk, rfl, rfl,
    (acknowledged_writes_ordered trio _ _ s₁ s₂ (by decide +kernel) hrun₁ hok₂ hrun₂).2 _ hcall 1 _
      (by rw [hcalls]; exact le_refl 1) hk rfl rfl⟩

end B5KvStore
