import B5KvStore.Cluster.LeaderReads
import B5KvStore.Raft.Durability

/-!
# Reads at a follower

`FollowerLinearizableRead` asks the leader for a read index and waits until that much has been
applied.  The leader hands out its commit index once a quorum has answered a round of requests,
which shows that nobody had been elected when the index was captured; it does not show that the
commit index had caught up with what earlier leaders have committed.

* `ReadsEffect` — what an operation does to the reads and to the rounds that confirm them.
* `ReadView` — what a read can rely on, phase by phase.
* `follower_reads_current` — reads whose index was captured by a leader that had caught up.
-/

namespace B5KvStore

open ReplicatedLog (CommittedAt Extends)
open QuorumSystem

/-- A reply carries the term of the node that gives it. -/
theorem Locked.term_appendEntries {s : Locked} {req : AppendEntriesRequest} {f : SaveFaults}
    {reply : AppendEntriesReply} (h : (s.appendEntries req f).2 = .ok reply) :
    reply.term = (s.appendEntries req f).1.node.currentTerm := by
  unfold Locked.appendEntries at h ⊢
  cases hobs : s.observeRequest req.term f.observe with
  | mk s₁ err =>
      rw [hobs] at h
      cases err with
      | some e => exact absurd h (by simp)
      | none =>
          dsimp only at h ⊢
          rw [(Locked.keepsVote_acceptEntries s₁ req).currentTerm, ← Except.ok.inj h]
          exact s₁.term_acceptEntries req

/-! ## What an operation does to reads -/

/-- How a read goes on. -/
inductive ReadMove (c : Config) (s : Cluster) (call : ReadCall) (op : Op) : ReadPhase → Prop
  /-- The leader captures its commit index. -/
  | capture (r : Nat) (hop : op = .requestReadIndex r) (hk : s.reads[r]? = some call)
      (hph : call.phase = .asking) (hl : call.leader ∈ c.addrs)
      (hrole : (s.hosts call.leader).node.role = .leader) :
      ReadMove c s call op (.captured (s.hosts call.leader).epoch
        (s.hosts call.leader).node.currentTerm (s.hosts call.leader).node.commitIndex)
  /-- The leader has nobody to ask. -/
  | alone (epoch term readIndex : Nat) (hph : call.phase = .captured epoch term readIndex)
      (hpeers : c.peersOf call.leader = []) :
      ReadMove c s call op (.answered (some { ok := true, readIndex := readIndex }))
  | refuse (reply : Option ReadIndexReply) (hno : ∀ r ∈ reply, r.ok = false) :
      ReadMove c s call op (.answered reply)
  | reply (reply : ReadIndexReply) (hph : call.phase = .answered (some reply))
      (hyes : reply.ok = true) : ReadMove c s call op (.waiting reply.readIndex)
  | applied (readIndex : Nat) (hph : call.phase = .waiting readIndex)
      (hle : readIndex ≤ (s.hosts call.reader).node.lastApplied) :
      ReadMove c s call op (.done (s.hosts call.reader).node.lastApplied)
  | unavailable : ReadMove c s call op .unavailable

/-- What an operation does to reads and rounds of requests. -/
inductive ReadsEffect (c : Config) (s : Cluster) (op : Op) (o : Outcome) : Prop
  | same (hreads : o.around.reads = s.reads) (hrounds : o.around.broadcasts = s.broadcasts)
  /-- A round that confirms nothing. -/
  | round (b : Broadcast) (hb : b.read = none) (hreads : o.around.reads = s.reads)
      (hrounds : o.around.broadcasts = s.broadcasts ++ [b])
  /-- A request is answered. -/
  | answer (k : Nat) (b : Broadcast) (req : AppendEntriesRequest) (f : SaveFaults)
      (hk : s.broadcasts[k]? = some b) (hp : o.host ∈ c.addrs) (hsent : b.calls o.host = .sent)
      (hres : o.result = ((s.hosts o.host).node.lock.appendEntries req f).1)
      (hreads : o.around.reads = s.reads)
      (hrounds : o.around.broadcasts = s.broadcasts.set k { b with
        calls := Function.update b.calls o.host
          (replyPhase ((s.hosts o.host).node.lock.appendEntries req f).2) })
  /-- A reply is taken up. -/
  | take (k : Nat) (b : Broadcast) (out : OutgoingAppendEntries) (reply : AppendEntriesReply)
      (hk : s.broadcasts[k]? = some b) (hout : out ∈ b.reqs)
      (hans : b.calls out.peer = .answered reply)
      (haround : o.around = s.setBroadcast k { b with
          calls := Function.update b.calls out.peer .finished } ∨
        ∃ r, b.read = some r ∧ reply.term = b.term ∧
          o.around = (s.setBroadcast k { b with
            calls := Function.update b.calls out.peer .finished }).ackRead c r b.epoch)
  | start (call : ReadCall) (hph : call.phase = .asking)
      (hstart : call.startedAt = s.history.length) (hreads : o.around.reads = s.reads ++ [call])
      (hrounds : o.around.broadcasts = s.broadcasts)
  | move (r : Nat) (call : ReadCall) (ph : ReadPhase) (hk : s.reads[r]? = some call)
      (hmove : ReadMove c s call op ph) (haround : o.around = s.setRead r ph)
  /-- The leader asks its peers to confirm that it still leads. -/
  | confirm (r : Nat) (call : ReadCall) (epoch term readIndex : Nat)
      (reqs : List OutgoingAppendEntries) (hk : s.reads[r]? = some call)
      (hph : call.phase = .captured epoch term readIndex)
      (hterm : (s.hosts call.leader).node.currentTerm = term)
      (haround : o.around =
        (s.setRead r (.confirming epoch term readIndex 1)).send call.leader reqs (some r))

variable {c : Config} {a a' : Model} {s s' : Cluster} {act : Action} {op : Op} {o : Outcome}

/-- A leader that cannot confirm does not say yes. -/
theorem Node.ok_of_readIndexFailed (n : Node) (term : Nat) :
    ∀ r ∈ n.readIndexFailed term, r.ok = false := by
  unfold Node.readIndexFailed
  split
  · simp
  · simp

/-- How a read goes on when a reply is counted. -/
inductive AckMove (c : Config) (call : ReadCall) : ReadPhase → Prop
  | count (epoch term readIndex n : Nat) (hph : call.phase = .confirming epoch term readIndex n) :
      AckMove c call (.confirming epoch term readIndex (n + 1))
  | grant (epoch term readIndex n : Nat) (hph : call.phase = .confirming epoch term readIndex n)
      (hq : quorumSize ((c.peersOf call.leader).length + 1) ≤ n + 1) :
      AckMove c call (.answered (some { ok := true, readIndex := readIndex }))

theorem Cluster.ackRead_cases (s : Cluster) (c : Config) (r epoch : Nat) :
    s.ackRead c r epoch = s ∨ ∃ call ph, s.reads[r]? = some call ∧ AckMove c call ph ∧
      s.ackRead c r epoch = s.setRead r ph := by
  unfold Cluster.ackRead
  split
  · rename_i call hcall
    split
    · rename_i ep term readIndex n hph
      split
      · split
        · rename_i hq
          exact Or.inr ⟨call, _, hcall, .grant ep term readIndex n hph hq, rfl⟩
        · exact Or.inr ⟨call, _, hcall, .count ep term readIndex n hph, rfl⟩
      · exact Or.inl rfl
    · exact Or.inl rfl
  · exact Or.inl rfl

theorem exec_reads (h : exec c s op = some o) : ReadsEffect c s op o := by
  cases op with
  | broadcastAppendEntries p =>
      simp only [exec, Option.bind_eq_bind, Option.bind_eq_some_iff, guard_eq_some, exists_const,
        look_eq_some] at h
      obtain ⟨-, rfl⟩ := h
      exact .round _ rfl rfl rfl
  | appendEntries k peer f =>
      simp only [exec, Option.bind_eq_bind, Option.bind_eq_some_iff, guard_eq_some, exists_const,
        Option.some.injEq] at h
      obtain ⟨b, hk, out, hfind, ⟨hp, hsent⟩, rfl⟩ := h
      exact .answer k b out.req f hk hp hsent rfl rfl rfl
  | appendEntriesReply k peer fails =>
      simp only [exec, Option.bind_eq_bind, Option.bind_eq_some_iff, guard_eq_some,
        exists_const] at h
      obtain ⟨b, hk, out, hfind, hepoch, h⟩ := h
      split at h
      · rename_i reply hans
        rw [Option.some.injEq] at h
        subst h
        obtain rfl : out.peer = peer := by simpa using List.find?_some hfind
        refine .take k b out reply hk (List.mem_of_find?_eq_some hfind) hans ?_
        dsimp only
        cases hread : b.read with
        | none => exact Or.inl rfl
        | some r =>
            dsimp only
            split
            · rename_i hsucc
              refine Or.inr ⟨r, rfl, ?_, rfl⟩
              unfold Locked.handleAppendEntriesReply at hsucc
              split at hsucc
              · exact absurd hsucc (by simp)
              · exact (by simpa using hsucc : reply.term = b.term ∧ _).1
            · exact Or.inl rfl
      · exact absurd h (by simp)
  | startRead p =>
      simp only [exec, Option.bind_eq_bind, Option.bind_eq_some_iff, guard_eq_some,
        exists_const] at h
      obtain ⟨-, h⟩ := h
      split at h
      · rw [look_eq_some] at h
        subst h
        exact .start _ rfl rfl rfl rfl
      · rw [look_eq_some] at h
        subst h
        exact .same rfl rfl
  | requestReadIndex r =>
      simp only [exec, Option.bind_eq_bind, Option.bind_eq_some_iff, guard_eq_some, exists_const,
        look_eq_some] at h
      obtain ⟨call, hk, ⟨hph, hl⟩, rfl⟩ := h
      refine .move r call _ hk ?_ rfl
      unfold Node.requestReadIndex
      by_cases hrole : (s.hosts call.leader).node.role = .leader
      · rw [if_neg (by simpa using hrole)]
        exact .capture r rfl hk hph hl hrole
      · rw [if_pos hrole]
        exact .refuse _ (by simp)
  | confirmLeadership r =>
      simp only [exec, Option.bind_eq_bind, Option.bind_eq_some_iff] at h
      obtain ⟨call, hk, h⟩ := h
      split at h
      · rename_i epoch term readIndex hph
        simp only [Option.bind_eq_some_iff, guard_eq_some, exists_const, look_eq_some] at h
        obtain ⟨-, rfl⟩ := h
        unfold Node.confirmLeadership
        by_cases hgone : (s.hosts call.leader).node.role ≠ .leader ∨
            (s.hosts call.leader).node.currentTerm ≠ term
        · rw [if_pos hgone]
          exact .move r call _ hk (.refuse _ (Node.ok_of_readIndexFailed _ _)) rfl
        · rw [if_neg hgone]
          dsimp only
          split
          · rename_i hpeers
            exact .move r call _ hk (.alone epoch term readIndex hph hpeers) rfl
          · exact .confirm r call epoch term readIndex _ hk hph (by
              by_contra hne
              exact hgone (Or.inr hne)) rfl
      · exact absurd h (by simp)
  | readIndexFailed r =>
      simp only [exec, Option.bind_eq_bind, Option.bind_eq_some_iff] at h
      obtain ⟨call, hk, h⟩ := h
      split at h
      · simp only [Option.bind_eq_some_iff, guard_eq_some, exists_const, look_eq_some] at h
        obtain ⟨-, rfl⟩ := h
        exact .move r call _ hk (.refuse _ (Node.ok_of_readIndexFailed _ _)) rfl
      · exact absurd h (by simp)
  | readIndexReply r =>
      simp only [exec, Option.bind_eq_bind, Option.bind_eq_some_iff, guard_eq_some,
        exists_const] at h
      obtain ⟨call, hk, -, h⟩ := h
      split at h
      · rename_i reply hph
        split at h
        · rename_i hyes
          rw [look_eq_some] at h
          subst h
          exact .move r call _ hk (.reply reply hph hyes) rfl
        · rw [Option.some.injEq] at h
          subst h
          exact .move r call _ hk .unavailable rfl
      · rw [look_eq_some] at h
        subst h
        exact .move r call _ hk .unavailable rfl
      · exact absurd h (by simp)
  | readApplied r =>
      simp only [exec, Option.bind_eq_bind, Option.bind_eq_some_iff, guard_eq_some,
        exists_const] at h
      obtain ⟨call, hk, -, h⟩ := h
      split at h
      · rename_i readIndex hph
        simp only [Option.bind_eq_some_iff, guard_eq_some, exists_const, look_eq_some] at h
        obtain ⟨hle, rfl⟩ := h
        exact .move r call _ hk (.applied readIndex hph hle) rfl
      · exact absurd h (by simp)
  | readTimeout r =>
      simp only [exec, Option.bind_eq_bind, Option.bind_eq_some_iff, guard_eq_some,
        exists_const] at h
      obtain ⟨call, hk, -, h⟩ := h
      split at h
      · exact absurd h (by simp)
      · rw [look_eq_some] at h
        subst h
        exact .move r call _ hk .unavailable rfl
  | _ =>
      have hsame : o.around.reads = s.reads ∧ o.around.broadcasts = s.broadcasts := by
        simp only [exec, Option.bind_eq_bind, Option.bind_eq_some_iff, guard_eq_some, exists_const,
          look_eq_some, Option.some.injEq] at h
        grind [look, Option.bind_eq_some_iff, Cluster.setHost, Cluster.setPoll, Cluster.setElection,
          Cluster.setProposal, Cluster.setGet]
      exact .same hsame.1 hsame.2

/-! ## What a read can rely on -/

/-- The index covers what had been acknowledged when a read started. -/
def Cluster.Covers (s : Cluster) (start readIndex : Nat) : Prop :=
  ∀ i, Returned (s.history.take start) i → i ≤ readIndex

/-- A quorum without `l` has gone beyond term `T`. -/
structure Overtaken (c : Config) (a : Model) (T : Nat) (l : String) (S : Set String) : Prop where
  quorum : c.quorums.IsQuorum S
  later : ∀ w ∈ S, T < a.term w
  leader : l ∉ S

/-- The round `b` confirms the read, and the peers `acks` have been counted.  If the index does not
cover what was acknowledged, none of those who answer in the leader's term was among the quorum
that had gone on. -/
structure Confirming (c : Config) (a : Model) (s : Cluster) (r : Nat) (l : String)
    (start T readIndex k : Nat) (b : Broadcast) (acks : List String) : Prop where
  round : s.broadcasts[k]? = some b
  read : b.read = some r
  only : ∀ k' b', s.broadcasts[k']? = some b' → b'.read = some r → k' = k
  leader : b.leader = l
  term : b.term = T
  nodup : acks.Nodup
  counted : ∀ w ∈ acks, w ∈ c.peersOf l ∧ b.calls w = .finished
  sure : s.Covers start readIndex ∨ ∃ S, Overtaken c a T l S ∧ (∀ w ∈ acks, w ∉ S) ∧
    ∀ w reply, b.calls w = .answered reply → reply.term = T → w ∉ S

/-- No round confirms the read. -/
def Cluster.Unconfirmed (s : Cluster) (r : Nat) : Prop := ∀ b ∈ s.broadcasts, b.read ≠ some r

/-- **What a read can rely on** in each of its phases. -/
inductive ReadView (c : Config) (a : Model) (s : Cluster) (r : Nat) (l : String) (start : Nat) :
    ReadPhase → Prop
  | asking (hnew : s.Unconfirmed r) : ReadView c a s r l start .asking
  | captured (epoch T readIndex : Nat) (hnew : s.Unconfirmed r) (hl : l ∈ c.addrs)
      (hsure : s.Covers start readIndex ∨ ∃ S, Overtaken c a T l S) :
      ReadView c a s r l start (.captured epoch T readIndex)
  | confirming (epoch T readIndex k : Nat) (b : Broadcast) (acks : List String)
      (hl : l ∈ c.addrs) (hconf : Confirming c a s r l start T readIndex k b acks) :
      ReadView c a s r l start (.confirming epoch T readIndex (acks.length + 1))
  | refused (reply : Option ReadIndexReply) (hno : ∀ r ∈ reply, r.ok = false) :
      ReadView c a s r l start (.answered reply)
  | granted (reply : ReadIndexReply) (h : s.Covers start reply.readIndex) :
      ReadView c a s r l start (.answered (some reply))
  | waiting (readIndex : Nat) (h : s.Covers start readIndex) :
      ReadView c a s r l start (.waiting readIndex)
  | done (k : Nat) (h : s.Covers start k) : ReadView c a s r l start (.done k)
  | unavailable : ReadView c a s r l start .unavailable

theorem Overtaken.mono {T : Nat} {l : String} {S : Set String} (h : Overtaken c a T l S)
    (hx : Extends a a') : Overtaken c a' T l S :=
  ⟨h.quorum, fun w hw => (h.later w hw).trans_le (hx.term w), h.leader⟩

/-- The leader and those who stay with it are no quorum. -/
theorem Overtaken.no_quorum {T : Nat} {l : String} {S : Set String} (h : Overtaken c a T l S)
    (hl : l ∈ c.addrs) {acks : List String} (hnodup : acks.Nodup)
    (hpeers : ∀ w ∈ acks, w ∈ c.peersOf l) (hacks : ∀ w ∈ acks, w ∉ S) :
    ¬ quorumSize ((c.peersOf l).length + 1) ≤ acks.length + 1 := by
  intro hq
  have hQ : c.quorums.IsQuorum {w | w ∈ l :: acks} := by
    refine isQuorum_of_list (l := l :: acks) ?_ ?_ ?_ fun w hw => hw
    · exact List.nodup_cons.2 ⟨fun hin => notMem_peersOf c _ (hpeers _ hin), hnodup⟩
    · intro w hw
      rcases List.mem_cons.1 hw with rfl | hw
      · exact hl
      · exact List.mem_of_mem_erase (hpeers w hw)
    · have hlen := length_peersOf hl
      unfold quorumSize at hq
      rw [List.length_cons]
      omega
  obtain ⟨w, hw, hwS⟩ := c.quorums.inter hQ h.quorum
  rcases List.mem_cons.1 hw with rfl | hw
  · exact h.leader hwS
  · exact hacks w hw hwS

/-- The rounds that confirm the read are the same. -/
def SameRounds (r : Nat) (bs bs' : List Broadcast) : Prop :=
  ∀ (k : Nat) (b : Broadcast), b.read = some r → (bs'[k]? = some b ↔ bs[k]? = some b)

section

variable {r : Nat} {bs : List Broadcast} {b b' : Broadcast} {k : Nat}

theorem sameRounds_append (hb : b.read ≠ some r) : SameRounds r bs (bs ++ [b]) := by
  intro k x hx
  rcases Nat.lt_trichotomy k bs.length with hlt | rfl | hgt
  · rw [List.getElem?_append_left hlt]
  · rw [List.getElem?_concat_length, List.getElem?_eq_none (le_refl _)]
    refine iff_of_false (fun h => hb ?_) (by simp)
    rw [Option.some.inj h]
    exact hx
  · rw [List.getElem?_eq_none (by rw [List.length_append]; exact hgt), List.getElem?_eq_none hgt.le]

theorem sameRounds_set (hk : bs[k]? = some b) (hb : b.read ≠ some r) (hread : b'.read = b.read) :
    SameRounds r bs (bs.set k b') := by
  intro j x hx
  by_cases hj : k = j
  · subst hj
    rw [List.getElem?_set_self (List.getElem?_eq_some_iff.1 hk).1, hk]
    refine iff_of_false (fun h => hb ?_) (fun h => hb ?_)
    · rw [← hread, Option.some.inj h]
      exact hx
    · rw [Option.some.inj h]
      exact hx
  · rw [List.getElem?_set_ne hj]

theorem Cluster.Unconfirmed.same (h : s.Unconfirmed r)
    (hs : SameRounds r s.broadcasts s'.broadcasts) : s'.Unconfirmed r := by
  intro b hb hread
  obtain ⟨k, hk⟩ := List.mem_iff_getElem?.1 hb
  exact h b (List.mem_of_getElem? ((hs k b hread).1 hk)) hread

variable {call : ReadCall} {l p : String} {start T readIndex : Nat} {acks : List String}
  {ph : ReadPhase}

theorem Cluster.Covers.same (h : s.Covers start readIndex)
    (hhist : s'.history.take start = s.history.take start) :
    s'.Covers start readIndex := by
  unfold Cluster.Covers
  rw [hhist]
  exact h

namespace Confirming

theorem same (h : Confirming c a s r l start T readIndex k b acks) (hx : Extends a a')
    (hhist : s'.history.take start = s.history.take start)
    (hs : SameRounds r s.broadcasts s'.broadcasts) :
    Confirming c a' s' r l start T readIndex k b acks where
  round := (hs k b h.read).2 h.round
  read := h.read
  only k' b' hk' hread := h.only k' b' ((hs k' b' hread).1 hk') hread
  leader := h.leader
  term := h.term
  nodup := h.nodup
  counted := h.counted
  sure := h.sure.imp (fun hcov => hcov.same hhist) fun ⟨S, hS, hrest⟩ => ⟨S, hS.mono hx, hrest⟩

/-- One of the calls of the round has been answered, or its reply taken up. -/
theorem update (h : Confirming c a s r l start T readIndex k b acks) (hx : Extends a a')
    (hhist : s'.history.take start = s.history.take start)
    {x : CallPhase AppendEntriesReply} (hopen : b.calls p ≠ .finished)
    (hnew : ∀ reply, x = .answered reply → a'.term p = reply.term)
    (hrounds : s'.broadcasts = s.broadcasts.set k { b with calls := Function.update b.calls p x }) :
    Confirming c a' s' r l start T readIndex k { b with calls := Function.update b.calls p x }
      acks where
  round := by
    rw [hrounds, List.getElem?_set_self (List.getElem?_eq_some_iff.1 h.round).1]
  read := h.read
  only k' b' hk' hread := by
    by_cases hkk : k = k'
    · exact hkk.symm
    · rw [hrounds, List.getElem?_set_ne hkk] at hk'
      exact h.only k' b' hk' hread
  leader := h.leader
  term := h.term
  nodup := h.nodup
  counted w hw := by
    obtain ⟨hpeer, hfin⟩ := h.counted w hw
    refine ⟨hpeer, ?_⟩
    dsimp only
    rw [Function.update_of_ne]
    · exact hfin
    · rintro rfl
      exact hopen hfin
  sure := by
    refine h.sure.imp (fun hcov => hcov.same hhist) ?_
    rintro ⟨S, hS, hacks, hans⟩
    refine ⟨S, hS.mono hx, hacks, fun w reply hw hterm hwS => ?_⟩
    dsimp only at hw
    by_cases hwp : w = p
    · -- whoever answers in the term is still in it
      subst hwp
      rw [Function.update_self] at hw
      have := (hS.mono hx).later w hwS
      rw [hnew reply hw, hterm] at this
      exact lt_irrefl _ this
    · rw [Function.update_of_ne hwp] at hw
      exact hans w reply hw hterm hwS

/-- A reply in the leader's term is counted. -/
theorem count (h : Confirming c a s r l start T readIndex k b acks) (hx : Extends a a')
    (hhist : s'.history.take start = s.history.take start)
    {reply : AppendEntriesReply} (hans : b.calls p = .answered reply) (hterm : reply.term = T)
    (hp : p ∈ c.peersOf l)
    (hrounds : s'.broadcasts = s.broadcasts.set k
      { b with calls := Function.update b.calls p .finished }) :
    Confirming c a' s' r l start T readIndex k
      { b with calls := Function.update b.calls p .finished } (p :: acks) := by
  have h' := h.update hx hhist (p := p) (x := .finished) (by rw [hans]; simp) (by simp) hrounds
  have hnot : p ∉ acks := by
    intro hmem
    rw [(h.counted p hmem).2] at hans
    exact absurd hans (by simp)
  refine { h' with nodup := List.nodup_cons.2 ⟨hnot, h.nodup⟩, counted := ?_, sure := ?_ }
  · intro w hw
    rcases List.mem_cons.1 hw with rfl | hw
    · exact ⟨hp, Function.update_self ..⟩
    · exact h'.counted w hw
  · refine h.sure.imp (fun hcov => hcov.same hhist) ?_
    rintro ⟨S, hS, hacks, hlate⟩
    refine ⟨S, hS.mono hx, fun w hw => ?_, fun w reply' hw ht => ?_⟩
    · rcases List.mem_cons.1 hw with rfl | hw
      · exact hlate w reply hans hterm
      · exact hacks w hw
    · by_cases hwp : w = p
      · subst hwp
        exact absurd hw (by simp)
      · dsimp only at hw
        rw [Function.update_of_ne hwp] at hw
        exact hlate w reply' hw ht

/-- **A quorum that answers** shows that nobody had gone on. -/
theorem covers (h : Confirming c a s r l start T readIndex k b acks) (hl : l ∈ c.addrs)
    (hq : quorumSize ((c.peersOf l).length + 1) ≤ acks.length + 1) : s.Covers start readIndex := by
  refine h.sure.resolve_right ?_
  rintro ⟨S, hS, hacks, -⟩
  exact hS.no_quorum hl h.nodup (fun w hw => (h.counted w hw).1) hacks hq

end Confirming

namespace ReadView

/-- A step that leaves the read and its round alone. -/
theorem same (h : ReadView c a s r l start ph) (hx : Extends a a')
    (hhist : s'.history.take start = s.history.take start)
    (hs : SameRounds r s.broadcasts s'.broadcasts) : ReadView c a' s' r l start ph := by
  cases h with
  | asking hnew => exact .asking (hnew.same hs)
  | captured epoch T readIndex hnew hl hsure =>
      exact .captured epoch T readIndex (hnew.same hs) hl
        (hsure.imp (fun hcov => hcov.same hhist) fun ⟨S, hS⟩ => ⟨S, hS.mono hx⟩)
  | confirming epoch T readIndex k b acks hl hconf =>
      exact .confirming epoch T readIndex k b acks hl (hconf.same hx hhist hs)
  | refused reply hno => exact .refused reply hno
  | granted reply hcov => exact .granted reply (hcov.same hhist)
  | waiting readIndex hcov => exact .waiting readIndex (hcov.same hhist)
  | done k hcov => exact .done k (hcov.same hhist)
  | unavailable => exact .unavailable

/-- One of the calls of the read's round has been answered, or its reply taken up. -/
theorem update (h : ReadView c a s r l start ph) (hx : Extends a a')
    (hhist : s'.history.take start = s.history.take start)
    (hk : s.broadcasts[k]? = some b) {x : CallPhase AppendEntriesReply}
    (hopen : b.calls p ≠ .finished) (hnew : ∀ reply, x = .answered reply → a'.term p = reply.term)
    (hrounds : s'.broadcasts = s.broadcasts.set k { b with calls := Function.update b.calls p x }) :
    ReadView c a' s' r l start ph := by
  by_cases hread : b.read = some r
  · cases h with
    | asking hun => exact absurd hread (hun b (List.mem_of_getElem? hk))
    | captured epoch T readIndex hun hl hsure =>
        exact absurd hread (hun b (List.mem_of_getElem? hk))
    | confirming epoch T readIndex k₀ b₀ acks hl hconf =>
        obtain rfl := hconf.only k b hk hread
        obtain rfl : b = b₀ := Option.some.inj (hk.symm.trans hconf.round)
        exact .confirming epoch T readIndex k _ acks hl
          (hconf.update hx hhist hopen hnew hrounds)
    | refused reply hno => exact .refused reply hno
    | granted reply hcov => exact .granted reply (hcov.same hhist)
    | waiting readIndex hcov => exact .waiting readIndex (hcov.same hhist)
    | done k hcov => exact .done k (hcov.same hhist)
    | unavailable => exact .unavailable
  · refine h.same hx hhist ?_
    rw [hrounds]
    exact sameRounds_set hk hread rfl

/-- A read that has not been confirmed yet is covered, or a quorum has gone on. -/
theorem sure_of_captured {epoch : Nat}
    (h : ReadView c a s r l start (.captured epoch T readIndex)) :
    s.Unconfirmed r ∧ l ∈ c.addrs ∧
      (s.Covers start readIndex ∨ ∃ S, Overtaken c a T l S) := by
  cases h with
  | captured _ _ _ hnew hl hsure => exact ⟨hnew, hl, hsure⟩

end ReadView

/-- **The capture.**  A leader that has nothing of an earlier term left to commit covers what
has been acknowledged, unless a quorum has gone on. -/
theorem Attested.sure (h : Attested c a s) (hv : ClusterView c a s) (hl : l ∈ c.addrs)
    (hrole : (s.hosts l).node.role = .leader)
    (hown : (s.hosts l).node.OwnAbove) :
    s.Covers start (s.hosts l).node.commitIndex ∨
      ∃ S, Overtaken c a (s.hosts l).node.currentTerm l S := by
  by_cases hlast : ∀ T l' L, a.led T = some (l', L) → T ≤ (s.hosts l).node.currentTerm
  · refine Or.inl fun i hi => h.le_commitIndex hv hl hrole hown hlast ?_
    obtain ⟨ev, hev, hwhat⟩ := hi
    exact ⟨ev, List.mem_of_mem_take hev, hwhat⟩
  · obtain ⟨T, l', L, hled, hlt⟩ : ∃ T l' L, a.led T = some (l', L) ∧
        (s.hosts l).node.currentTerm < T := by
      simpa using hlast
    refine Or.inr ⟨{w | (s.hosts l).node.currentTerm < a.term w}, ?_, fun w hw => hw, ?_⟩
    · refine c.quorums.mono ?_ (hv.reach.inv.elections.led_won T l' L hled).2.2
      rintro w ⟨F, hb⟩
      exact hlt.trans_le (hv.reach.inv.elections.vote_le _ hb)
    · rw [Set.mem_ofPred_eq, (hv.nodes _ hl).term]
      exact lt_irrefl _

/-- The read whose index a step captures. -/
def Action.captures? (s : Cluster) : Action → Option ReadCall
  | .run (.requestReadIndex r) => s.reads[r]?
  | _ => none

/-- Whenever `RequestReadIndex` captures the commit index of a leader, the leader has nothing of
an earlier term left to commit. -/
def ConfirmedReads (s : Cluster) (act : Action) : Prop :=
  ∀ call ∈ act.captures? s,
    (s.hosts call.leader).node.role = .leader → (s.hosts call.leader).node.OwnAbove

instance ConfirmedReads.decidable (s : Cluster) (act : Action) :
    Decidable (ConfirmedReads s act) :=
  inferInstanceAs (Decidable (∀ call ∈ act.captures? s,
    (s.hosts call.leader).node.role = .leader → (s.hosts call.leader).node.OwnAbove))

/-- What holds of all reads. -/
structure ReadsCurrent (c : Config) (a : Model) (s : Cluster) : Prop where
  known : ∀ b ∈ s.broadcasts, ∀ r, b.read = some r → r < s.reads.length
  started : ∀ call ∈ s.reads, call.startedAt ≤ s.history.length
  reads : ∀ r call, s.reads[r]? = some call →
    ReadView c a s r call.leader call.startedAt call.phase

namespace ReadsCurrent

theorem init (c : Config) : ReadsCurrent c .init c.init where
  known := by simp [Config.init]
  started := by simp [Config.init]
  reads := by simp [Config.init]

theorem take_eq (h : ReadsCurrent c a s) (hhist : s.history <+: s'.history)
    (hcall : s.reads[r]? = some call) :
    s'.history.take call.startedAt = s.history.take call.startedAt :=
  ReplicatedLog.take_eq_of_isPrefix hhist (h.started call (List.mem_of_getElem? hcall))

/-- A step that leaves the reads alone. -/
theorem of_reads (h : ReadsCurrent c a s) (hhist : s.history <+: s'.history)
    (hreads : s'.reads = s.reads)
    (hknown : ∀ b ∈ s'.broadcasts, ∀ r, b.read = some r → ∃ b' ∈ s.broadcasts, b'.read = some r)
    (hviews : ∀ r call, s.reads[r]? = some call →
      ReadView c a' s' r call.leader call.startedAt call.phase) : ReadsCurrent c a' s' where
  known b hb r hread := by
    obtain ⟨b', hb', hread'⟩ := hknown b hb r hread
    rw [hreads]
    exact h.known b' hb' r hread'
  started := by
    rw [hreads]
    exact fun call hcall => (h.started call hcall).trans hhist.length_le
  reads := by
    rw [hreads]
    exact hviews

/-- A step that moves one read on. -/
theorem of_setRead (h : ReadsCurrent c a s) (hhist : s.history <+: s'.history)
    (hk : s.reads[r]? = some call)
    (hreads : s'.reads = s.reads.modify r fun call => { call with phase := ph })
    (hknown : ∀ b ∈ s'.broadcasts, ∀ r', b.read = some r' →
      r' = r ∨ ∃ b' ∈ s.broadcasts, b'.read = some r')
    (hview : ReadView c a' s' r call.leader call.startedAt ph)
    (hviews : ∀ r' call', r' ≠ r → s.reads[r']? = some call' →
      ReadView c a' s' r' call'.leader call'.startedAt call'.phase) : ReadsCurrent c a' s' := by
  have hcases : ∀ r' call', s'.reads[r']? = some call' →
      r' = r ∧ call' = { call with phase := ph } ∨ r' ≠ r ∧ s.reads[r']? = some call' := by
    intro r' call' hcall'
    rw [hreads] at hcall'
    by_cases hr : r = r'
    · subst hr
      rw [List.getElem?_modify_eq, hk] at hcall'
      exact Or.inl ⟨rfl, (Option.some.inj hcall').symm⟩
    · rw [List.getElem?_modify_ne _ _ hr] at hcall'
      exact Or.inr ⟨Ne.symm hr, hcall'⟩
  refine ⟨fun b hb r' hread => ?_, fun call' hcall' => ?_, fun r' call' hcall' => ?_⟩
  · rw [hreads, List.length_modify]
    rcases hknown b hb r' hread with rfl | ⟨b', hb', hread'⟩
    · exact (List.getElem?_eq_some_iff.1 hk).1
    · exact h.known b' hb' r' hread'
  · obtain ⟨r', hr'⟩ := List.mem_iff_getElem?.1 hcall'
    rcases hcases r' call' hr' with ⟨-, rfl⟩ | ⟨-, hold⟩
    · exact (h.started call (List.mem_of_getElem? hk)).trans hhist.length_le
    · exact (h.started call' (List.mem_of_getElem? hold)).trans hhist.length_le
  · rcases hcases r' call' hcall' with ⟨rfl, rfl⟩ | ⟨hne, hold⟩
    · exact hview
    · exact hviews r' call' hne hold

/-- The read that is asked to go on. -/
theorem move (h : ReadsCurrent c a s) (hat : Attested c a s) (hv : ClusterView c a s)
    (hconf : ConfirmedReads s (.run op)) (hk : s.reads[r]? = some call)
    (hmove : ReadMove c s call op ph) : ReadView c a s r call.leader call.startedAt ph := by
  have hview := h.reads r call hk
  cases hmove with
  | capture r₀ hop hk₀ hph hl hrole =>
      subst hop
      rw [hph] at hview
      cases hview with
      | asking hnew =>
          exact .captured _ _ _ hnew hl (hat.sure hv hl hrole (hconf call hk₀ hrole))
  | alone epoch T readIndex hph hpeers =>
      rw [hph] at hview
      obtain ⟨-, hl, hsure⟩ := hview.sure_of_captured
      refine .granted _ (hsure.resolve_right ?_)
      rintro ⟨S, hS⟩
      exact hS.no_quorum hl List.nodup_nil (by simp) (by simp) (by rw [hpeers]; decide)
  | refuse reply hno => exact .refused reply hno
  | reply reply hph hyes =>
      rw [hph] at hview
      cases hview with
      | refused _ hno => exact absurd hyes (by rw [hno reply rfl]; decide)
      | granted _ hcov => exact .waiting _ hcov
  | applied readIndex hph hle =>
      rw [hph] at hview
      cases hview with
      | waiting _ hcov => exact .done _ fun i hi => (hcov i hi).trans hle
  | unavailable => exact .unavailable

/-- A reply is taken up, and counted if it is one of the leader's term. -/
theorem take (h : ReadsCurrent c a s) (hv : ClusterView c a s) (hx : Extends a a')
    (hhist : s.history <+: s'.history) (hk : s.broadcasts[k]? = some b)
    {out : OutgoingAppendEntries} (hout : out ∈ b.reqs) {reply : AppendEntriesReply}
    (hans : b.calls out.peer = .answered reply)
    (hrounds : s'.broadcasts = s.broadcasts.set k
      { b with calls := Function.update b.calls out.peer .finished })
    (hreads : s'.reads = s.reads ∨ ∃ r call ph, b.read = some r ∧ s.reads[r]? = some call ∧
      reply.term = b.term ∧ AckMove c call ph ∧
      s'.reads = s.reads.modify r fun call => { call with phase := ph }) :
    ReadsCurrent c a' s' := by
  have hknown : ∀ b' ∈ s'.broadcasts, ∀ r, b'.read = some r →
      ∃ b' ∈ s.broadcasts, b'.read = some r := by
    intro b' hb' r hread
    rw [hrounds] at hb'
    rcases List.mem_or_eq_of_mem_set hb' with hb' | rfl
    · exact ⟨b', hb', hread⟩
    · exact ⟨b, List.mem_of_getElem? hk, hread⟩
  have hviews : ∀ r call, s.reads[r]? = some call →
      ReadView c a' s' r call.leader call.startedAt call.phase :=
    fun r call hcall => (h.reads r call hcall).update hx (h.take_eq hhist hcall) hk
      (by rw [hans]; simp) (by simp) hrounds
  rcases hreads with hreads | ⟨r, call, ph, hread, hcall, hterm, hack, hreads⟩
  · exact h.of_reads hhist hreads hknown hviews
  · refine h.of_setRead hhist hcall hreads (fun b' hb' r' hr' => Or.inr (hknown b' hb' r' hr')) ?_
      fun r' call' _ hcall' => hviews r' call' hcall'
    have hview := h.reads r call hcall
    have hcounted : ∀ {epoch T readIndex n}, call.phase = .confirming epoch T readIndex n →
        call.leader ∈ c.addrs ∧ ∃ acks b', n = acks.length ∧
          Confirming c a' s' r call.leader call.startedAt T readIndex k b' acks := by
      intro epoch T readIndex n hph
      rw [hph] at hview
      cases hview with
      | confirming _ _ _ k₀ b₀ acks hl hconf =>
          obtain rfl := hconf.only k b hk hread
          obtain rfl : b = b₀ := Option.some.inj (hk.symm.trans hconf.round)
          have hpeer := ((hv.broadcasts b (List.mem_of_getElem? hk)).sent out hout).2.2.2.2
          exact ⟨hl, out.peer :: acks, _, rfl, hconf.count hx (h.take_eq hhist hcall) hans
            (hterm.trans hconf.term) (hconf.leader ▸ hpeer) hrounds⟩
    cases hack with
    | count epoch T readIndex n hph =>
        obtain ⟨hl, acks, b', hn, hcount⟩ := hcounted hph
        rw [hn]
        exact .confirming epoch T readIndex k b' acks hl hcount
    | grant epoch T readIndex n hph hq =>
        obtain ⟨hl, acks, b', hn, hcount⟩ := hcounted hph
        exact .granted _ (hcount.covers hl (by omega))

/-- A read starts. -/
theorem begin_read (h : ReadsCurrent c a s) (hx : Extends a a') (hhist : s.history <+: s'.history)
    (hph : call.phase = .asking) (hstart : call.startedAt = s.history.length)
    (hreads : s'.reads = s.reads ++ [call]) (hrounds : s'.broadcasts = s.broadcasts) :
    ReadsCurrent c a' s' := by
  refine ⟨fun b hb r hread => ?_, fun call' hcall' => ?_, fun r call' hcall' => ?_⟩
  · rw [hreads, List.length_append]
    exact (h.known b (hrounds ▸ hb) r hread).trans_le (Nat.le_add_right _ _)
  · rcases List.mem_append.1 (hreads ▸ hcall' : call' ∈ s.reads ++ [call]) with hcall' | hcall'
    · exact (h.started call' hcall').trans hhist.length_le
    · rw [List.mem_singleton.1 hcall', hstart]
      exact hhist.length_le
  · rw [hreads] at hcall'
    by_cases hlt : r < s.reads.length
    · rw [List.getElem?_append_left hlt] at hcall'
      refine (h.reads r call' hcall').same hx (h.take_eq hhist hcall') ?_
      rw [hrounds]
      exact fun _ _ _ => Iff.rfl
    · obtain ⟨hr, heq⟩ : r = s.reads.length ∧ call = call' := by
        have hle := (List.getElem?_eq_some_iff.1 hcall').1
        rw [List.length_append, List.length_singleton] at hle
        obtain rfl : r = s.reads.length := by omega
        rw [List.getElem?_concat_length] at hcall'
        exact ⟨rfl, Option.some.inj hcall'⟩
      rw [← heq, hph]
      refine .asking fun b hb hread => ?_
      have := h.known b (hrounds ▸ hb) r hread
      omega

/-- A round starts that is to confirm a read. -/
theorem confirm (h : ReadsCurrent c a s) (hx : Extends a a') (hhist : s.history <+: s'.history)
    (hk : s.reads[r]? = some call) {epoch : Nat} (hph : call.phase = .captured epoch T readIndex)
    (hb : b.read = some r ∧ b.leader = call.leader ∧ b.term = T ∧ b.calls = fun _ => .sent)
    (hreads : s'.reads = s.reads.modify r fun call =>
      { call with phase := .confirming epoch T readIndex 1 })
    (hrounds : s'.broadcasts = s.broadcasts ++ [b]) : ReadsCurrent c a' s' := by
  obtain ⟨hread, hleader, hterm, hcalls⟩ := hb
  have hview := h.reads r call hk
  rw [hph] at hview
  obtain ⟨hnew, hl, hsure⟩ := hview.sure_of_captured
  refine h.of_setRead hhist hk hreads ?_ ?_ ?_
  · intro b' hb' r' hread'
    rw [hrounds] at hb'
    rcases List.mem_append.1 hb' with hb' | hb'
    · exact Or.inr ⟨b', hb', hread'⟩
    · rw [List.mem_singleton.1 hb', hread] at hread'
      exact Or.inl (Option.some.inj hread').symm
  · refine .confirming epoch T readIndex s.broadcasts.length b [] hl
      ⟨?_, hread, ?_, hleader, hterm, List.nodup_nil, by simp, ?_⟩
    · rw [hrounds, List.getElem?_concat_length]
    · intro k' b' hk' hread'
      rw [hrounds] at hk'
      by_contra hne
      have hlt : k' < s.broadcasts.length := by
        have := (List.getElem?_eq_some_iff.1 hk').1
        rw [List.length_append, List.length_singleton] at this
        omega
      rw [List.getElem?_append_left hlt] at hk'
      exact hnew b' (List.mem_of_getElem? hk') hread'
    · refine hsure.imp (fun hcov => hcov.same (h.take_eq hhist hk)) ?_
      rintro ⟨S, hS⟩
      refine ⟨S, hS.mono hx, by simp, fun w reply hw => ?_⟩
      rw [hcalls] at hw
      exact absurd hw (by simp)
  · intro r' call' hne hcall'
    refine (h.reads r' call' hcall').same hx (h.take_eq hhist hcall') ?_
    rw [hrounds]
    exact sameRounds_append (by rw [hread]; simpa using Ne.symm hne)

/-- **One step.** -/
theorem step (h : ReadsCurrent c a s) (hat : Attested c a s) (hv : ClusterView c a s)
    (hv' : ClusterView c a' s') (hx : Extends a a') (hconf : ConfirmedReads s act)
    (hs : B5KvStore.step c s act = some s') : ReadsCurrent c a' s' := by
  have hhist := step_history hs
  have hsame : ∀ r call, s.reads[r]? = some call → SameRounds r s.broadcasts s'.broadcasts →
      ReadView c a' s' r call.leader call.startedAt call.phase :=
    fun r call hcall hsr => (h.reads r call hcall).same hx (h.take_eq hhist hcall) hsr
  have hquiet : s'.reads = s.reads → s'.broadcasts = s.broadcasts → ReadsCurrent c a' s' := by
    intro hreads hrounds
    refine h.of_reads hhist hreads (fun b hb r hread => ⟨b, hrounds ▸ hb, hread⟩) ?_
    exact fun r call hcall => hsame r call hcall (by rw [hrounds]; exact fun _ _ _ => Iff.rfl)
  cases stepView hs with
  | run op o ho =>
      cases exec_reads ho with
      | same hreads hrounds => exact hquiet hreads hrounds
      | round b hb hreads hrounds =>
          refine h.of_reads hhist hreads (fun b' hb' r hread => ?_) fun r call hcall =>
            hsame r call hcall (hrounds ▸ sameRounds_append (by rw [hb]; simp))
          rcases List.mem_append.1 (hrounds ▸ hb' : b' ∈ s.broadcasts ++ [b]) with hb' | hb'
          · exact ⟨b', hb', hread⟩
          · rw [List.mem_singleton.1 hb', hb] at hread
            exact absurd hread (by simp)
      | answer k b req f hk hp hsent hres hreads hrounds =>
          refine h.of_reads hhist hreads (fun b' hb' r hread => ?_) fun r call hcall =>
            (h.reads r call hcall).update hx (h.take_eq hhist hcall) hk (by rw [hsent]; simp) ?_
              hrounds
          · rcases List.mem_or_eq_of_mem_set (hrounds ▸ hb' : b' ∈ s.broadcasts.set k _) with
              hb' | rfl
            · exact ⟨b', hb', hread⟩
            · exact ⟨b, List.mem_of_getElem? hk, hread⟩
          · intro reply hreply
            have hok : ((s.hosts o.host).node.lock.appendEntries req f).2 = .ok reply := by
              cases hres : ((s.hosts o.host).node.lock.appendEntries req f).2 with
              | error e =>
                  rw [hres] at hreply
                  exact absurd hreply (by simp [replyPhase])
              | ok reply' =>
                  rw [hres] at hreply
                  rw [CallPhase.answered.inj hreply]
            rw [(hv'.nodes o.host hp).term, Cluster.node_finish, hres,
              Locked.term_appendEntries hok]
      | take k b out reply hk hout hans haround =>
          generalize o.around = s₁ at haround hhist ⊢
          rcases haround with rfl | ⟨r, hread, hterm, rfl⟩
          · exact h.take hv hx hhist hk hout hans rfl (Or.inl rfl)
          · rcases Cluster.ackRead_cases (s.setBroadcast k { b with
                calls := Function.update b.calls out.peer .finished }) c r b.epoch with
              heq | ⟨call, ph, hcall, hack, heq⟩
            · rw [heq] at hhist ⊢
              exact h.take hv hx hhist hk hout hans rfl (Or.inl rfl)
            · rw [heq] at hhist ⊢
              exact h.take hv hx hhist hk hout hans rfl
                (Or.inr ⟨r, call, ph, hread, hcall, hterm, hack, rfl⟩)
      | start call hph hstart hreads hrounds => 
          exact h.begin_read hx hhist hph hstart hreads hrounds
      | move r call ph hk hmove haround =>
          generalize o.around = s₁ at haround hhist hsame ⊢
          subst haround
          have hview := h.move hat hv hconf hk hmove
          refine h.of_setRead hhist hk rfl (fun b hb r' hread => Or.inr ⟨b, hb, hread⟩)
            (hview.same hx (h.take_eq hhist hk) fun _ _ _ => Iff.rfl) ?_
          exact fun r' call' _ hcall' => hsame r' call' hcall' fun _ _ _ => Iff.rfl
      | confirm r call epoch T readIndex reqs hk hph hterm haround =>
          generalize o.around = s₁ at haround hhist ⊢
          subst haround
          exact h.confirm hx hhist hk hph ⟨rfl, rfl, hterm, rfl⟩ rfl rfl
  | crash q _ => exact hquiet rfl rfl
  | crashDuring op o k ho => exact hquiet rfl rfl
  | publish file => exact hquiet rfl rfl

end ReadsCurrent

end

/-- **Reads at a follower** find every write that was acknowledged before they started, in every
run without snapshots in which `RequestReadIndex` captures the commit index of a leader only when
that leader has nothing of an earlier term left to commit. -/
theorem follower_reads_current (c : Config) (as : List Action) (s : Cluster)
    (hplain : ∀ act ∈ as, act.Plain) (hconf : Runs.Along (step c) ConfirmedReads c.init as)
    (hrun : run c c.init as = some s) (call : ReadCall) (hcall : call ∈ s.reads) (k : Nat)
    (hdone : call.phase = .done k) (i : Nat)
    (hi : Returned (s.history.take call.startedAt) i) : i ≤ k := by
  have hok : Runs.Along (step c) (fun s act => Safe s act ∧ ConfirmedReads s act) c.init as :=
    Runs.Along.and (.of_forall fun act hact s => (hplain act hact).safe s) hconf
  obtain ⟨a, -, -, -, h⟩ : ∃ a, ClusterView c a s ∧ Promises c a s ∧ Attested c a s ∧
      ReadsCurrent c a s := by
    refine Runs.invariant (I := fun s => ∃ a, ClusterView c a s ∧ Promises c a s ∧
      Attested c a s ∧ ReadsCurrent c a s) ?_
      ⟨_, .init c, .init c, .init c, .init c⟩ hok (run_eq_exec c c.init as ▸ hrun)
    rintro s act s' ⟨a, hv, hp, hat, h⟩ ⟨hsafe, hreads⟩ hs
    obtain ⟨a', hx, hv', hp'⟩ := hp.step hv hsafe hs
    exact ⟨a', hv', hp', hat.step hp hv hx hsafe hs, h.step hat hv hv' hx hreads hs⟩
  obtain ⟨r, hr⟩ := List.mem_iff_getElem?.1 hcall
  have hview := h.reads r call hr
  rw [hdone] at hview
  cases hview with
  | done _ hcov => exact hcov i hi

/-- The first read of the run starts at `q`, and its leader confirms that it leads with one round,
the `k`-th of the run, that `q` answers. -/
def readAt (q : String) (k : Nat) : List Action :=
  [.run (.startRead q), .run (.requestReadIndex 0), .run (.confirmLeadership 0),
    .run (.appendEntries k q noFaults), .run (.appendEntriesReply k q false),
    .run (.readIndexReply 0), .run (.readApplied 0)]

/-- `a` leads term `1`, commits two writes with `b`, acknowledges both, and `b` serves a read. -/
def readAtFollower : List Action :=
  winElection "a" "b" 0 ++ [.run (.proposeSync "a" (putBytes 120 49)),
    .run (.proposeSync "a" (putBytes 120 50))] ++ replicate "a" "b" 0 ++
    [.run (.proposeReturn 0), .run (.proposeReturn 1)] ++ readAt "b" 1

theorem follower_reads_current_readAtFollower : ∃ s call,
    run trio trio.init readAtFollower = some s ∧ call ∈ s.reads ∧ call.phase = .done 2 ∧
    Returned (s.history.take call.startedAt) 1 ∧ Returned (s.history.take call.startedAt) 2 ∧
    ∀ i, Returned (s.history.take call.startedAt) i → i ≤ 2 := by
  obtain ⟨s, hrun, hreads, hfirst, hsecond⟩ := exists_of_run
    (fun s => s.reads = [⟨"b", 0, "a", 8, .done 2⟩] ∧ Returned (s.history.take 8) 1 ∧
      Returned (s.history.take 8) 2)
    (by decide +kernel : (run trio trio.init readAtFollower).any _ = true)
  have hcall : ⟨"b", 0, "a", 8, .done 2⟩ ∈ s.reads := by rw [hreads]; simp
  exact ⟨s, _, hrun, hcall, rfl, hfirst, hsecond, follower_reads_current trio readAtFollower s
    (by decide) (by decide +kernel) hrun _ hcall 2 rfl⟩

/-- `a` leads term `1` and acknowledges a write that it commits with `b`; `b` is elected, brings
`c` up to date and answers its read. -/
def readAfterElection : List Action :=
  winElection "a" "b" 0 ++ [.run (.proposeSync "a" (putBytes 120 49))] ++ replicate "a" "b" 0 ++
    [.run (.proposeReturn 0)] ++ winElection "b" "c" 1 ++ replicate "b" "c" 1 ++ readAt "c" 2

/-- `c` has applied nothing when the read returns. -/
theorem follower_read_stale : ∃ s call, run trio trio.init readAfterElection = some s ∧
    (∀ act ∈ readAfterElection, act.Plain) ∧ call ∈ s.reads ∧ call.phase = .done 0 ∧
    Returned (s.history.take call.startedAt) 1 := by
  obtain ⟨s, hrun, hreads, hret⟩ := exists_of_run
    (fun s => s.reads = [⟨"c", 0, "b", 6, .done 0⟩] ∧ Returned (s.history.take 6) 1)
    (by decide +kernel : (run trio trio.init readAfterElection).any _ = true)
  exact ⟨s, ⟨"c", 0, "b", 6, .done 0⟩, hrun, by decide, by rw [hreads]; simp, rfl, hret⟩

end B5KvStore
