import Mathlib.Data.Option.Basic
import B5KvStore.Cluster.Basic
import B5KvStore.Raft.Frame

/-!
# What one step can do

`exec` decides for each operation whether it can run and what it does.  Most of
the cluster's properties depend on the part of it that belongs to the consensus
protocol: processes, elections, rounds of requests, the catalog and the history.
`Effect` lists what an operation can do to that part, once and for all; the
bookkeeping of reads is left open.
-/

namespace B5KvStore

/-- The two clusters differ at most in the calls clients are waiting for. -/
structure SameProtocol (s s' : Cluster) : Prop where
  hosts : s'.hosts = s.hosts
  elections : s'.elections = s.elections
  broadcasts : s'.broadcasts = s.broadcasts
  catalog : s'.catalog = s.catalog
  history : s'.history = s.history

theorem SameProtocol.refl (s : Cluster) : SameProtocol s s := ⟨rfl, rfl, rfl, rfl, rfl⟩

/-- A `ProposeSync` call, whether it has returned or not. -/
def Proposal.core (call : Proposal) : Proposal := { call with returned := false }

/-- The same calls are under way, though some may have returned. -/
def SameCalls (ps ps' : List Proposal) : Prop := ps'.map Proposal.core = ps.map Proposal.core

theorem sameCalls_set {ps : List Proposal} {k : Nat} {call : Proposal} (hk : ps[k]? = some call) :
    SameCalls ps (ps.set k { call with returned := true }) := by
  unfold SameCalls
  rw [List.map_set]
  refine List.ext_getElem? fun j => ?_
  by_cases hj : k = j
  · subst hj
    rw [List.getElem?_set_self (by simpa using (List.getElem?_eq_some_iff.1 hk).1), List.getElem?_map,
      hk]
    rfl
  · rw [List.getElem?_set_ne hj]

/-- Changes of a node that no other node can notice. -/
inductive Idle (n : Node) : Locked → Prop
  | look : Idle n n.lock
  | returned (index : Nat) (outcome : Option RaftError) :
      Idle n (n.lock.emit [.returned index outcome])
  | waiters (i : Nat) :
      Idle n (n.lock.modify fun n => { n with waiters := n.waiters.erase i })
  | leader (l : String) : Idle n (n.lock.modify fun n => { n with currentLeader := l })

theorem keepsLog_idle {n : Node} {r : Locked} (h : Idle n r) : KeepsLog n.lock r := by
  cases h with
  | look => exact .refl _
  | returned i out => exact .emit _ _
  | waiters w => exact .modify rfl rfl rfl rfl
  | leader l => exact .modify rfl rfl rfl rfl

variable (c : Config) (s : Cluster)

/-- What an operation can do. -/
inductive Effect : Op → Outcome → Prop
  | startElection (p : String) (fails : Bool) (hp : p ∈ c.addrs) :
      Effect (.startElection p fails) ⟨p, ((s.hosts p).node.lock.startElection fails).1,
        { s with elections := s.elections ++ (((s.hosts p).node.lock.startElection fails).2.map
          fun e => ⟨p, (s.hosts p).epoch, e⟩).toList }⟩
  | soloElection (k : Nat) (call : ElectionCall) (hk : s.elections[k]? = some call)
      (hepoch : call.epoch = (s.hosts call.candidate).epoch) (hq : call.election.quorum ≤ 1) :
      Effect (.soloElection k)
        ⟨call.candidate, (s.hosts call.candidate).node.lock.soloElection call.election, s⟩
  | requestVote (k : Nat) (call : ElectionCall) (peer : String) (f : SaveFaults)
      (hk : s.elections[k]? = some call) (hp : peer ∈ c.addrs)
      (hsent : call.election.calls peer = .sent) :
      Effect (.requestVote k peer f) ⟨peer,
        ((s.hosts peer).node.lock.requestVote call.election.req f).1,
        s.setElection k { call with
          election := { call.election with
            calls := Function.update call.election.calls peer
              (replyPhase ((s.hosts peer).node.lock.requestVote call.election.req f).2) } }⟩
  | requestVoteReply (k : Nat) (call : ElectionCall) (peer : String) (fails : Bool)
      (reply : RequestVoteReply) (hk : s.elections[k]? = some call)
      (hepoch : call.epoch = (s.hosts call.candidate).epoch)
      (hans : call.election.calls peer = .answered reply) :
      Effect (.requestVoteReply k peer fails) ⟨call.candidate,
        ((s.hosts call.candidate).node.lock.handleRequestVoteReply call.election reply fails).1,
        s.setElection k { call with
          election := { call.election with
            votes := ((s.hosts call.candidate).node.lock.handleRequestVoteReply
              call.election reply fails).2
            calls := Function.update call.election.calls peer .finished } }⟩
  | broadcast (op : Op) (p : String) (read : Option Nat) (s' : Cluster) (hp : p ∈ c.addrs)
      (hrole : (s.hosts p).node.role = .leader)
      (hs' : SameProtocol (s.send p (s.hosts p).node.buildAppendEntriesRequestsLocked read) s')
      (hcalls : s'.proposals = s.proposals) :
      Effect op ⟨p, (s.hosts p).node.lock, s'⟩
  | appendEntries (k : Nat) (b : Broadcast) (out : OutgoingAppendEntries) (peer : String)
      (f : SaveFaults) (hk : s.broadcasts[k]? = some b) (hout : out ∈ b.reqs)
      (hpeer : out.peer = peer) (hp : peer ∈ c.addrs) (hsent : b.calls peer = .sent) :
      Effect (.appendEntries k peer f) ⟨peer, ((s.hosts peer).node.lock.appendEntries out.req f).1,
        s.setBroadcast k { b with
          calls := Function.update b.calls peer
            (replyPhase ((s.hosts peer).node.lock.appendEntries out.req f).2) }⟩
  | appendEntriesReply (k : Nat) (b : Broadcast) (out : OutgoingAppendEntries) (peer : String)
      (fails : Bool) (reply : AppendEntriesReply) (s' : Cluster) (hk : s.broadcasts[k]? = some b)
      (hout : out ∈ b.reqs) (hfind : b.reqs.find? (fun o => o.peer = peer) = some out)
      (hpeer : out.peer = peer) (hepoch : b.epoch = (s.hosts b.leader).epoch)
      (hans : b.calls peer = .answered reply)
      (hs' : SameProtocol
        (s.setBroadcast k { b with calls := Function.update b.calls peer .finished }) s')
      (hcalls : s'.proposals = s.proposals) :
      Effect (.appendEntriesReply k peer fails) ⟨b.leader,
        ((s.hosts b.leader).node.lock.handleAppendEntriesReply b.term out reply fails).1, s'⟩
  | propose (p : String) (command : List UInt8) (hp : p ∈ c.addrs) :
      Effect (.propose p command) ⟨p, (s.hosts p).node.lock.propose command, s⟩
  | proposeSync (p : String) (command : List UInt8) (hp : p ∈ c.addrs) (s' : Cluster)
      (hs' : SameProtocol s s')
      (hcalls : s'.proposals = if (s.hosts p).node.role ≠ .leader then s.proposals
        else s.proposals ++ [⟨p, (s.hosts p).epoch, (s.hosts p).node.lastLogIndexLocked + 1,
          (s.hosts p).node.currentTerm, command, none, false⟩]) :
      Effect (.proposeSync p command)
        ⟨p, ((s.hosts p).node.lock.proposeSync command s.proposals.length).1, s'⟩
  | idle (op : Op) (p : String) (r : Locked) (s' : Cluster) (hr : Idle (s.hosts p).node r)
      (hs' : SameProtocol s s') (hop : ∀ q command, op ≠ .proposeSync q command)
      (hcalls : SameCalls s.proposals s'.proposals)
      (hret : ∀ i outcome, .returned i outcome ∈ r.events →
        ∃ call ∈ s.proposals, call.index = i ∧ call.chan = some outcome) :
      Effect op ⟨p, r, s'⟩
  | confirmCompaction (p : String) (req : CompactionAck) (hp : p ∈ c.addrs) :
      Effect (.confirmCompaction p req) ⟨p, ((s.hosts p).node.lock.confirmCompaction req).1, s⟩
  | pollWait (op : Op) (p : String) (ph : PollPhase) (hp : p ∈ c.addrs)
      (hop : op.snapshotting = true) (hfrom : (s.hosts p).poll.catchUpFile? = none)
      (hph : ∀ file, ph = .fetched file ∨ ph = .compactFetched file → s.catalog = some file)
      (hpos : ∀ file, ph = .fetched file → 0 < file.lastIncludedIndex)
      (hph' : ∀ file, ph ≠ .written file ∧ ph ≠ .rewritten file ∧ ph ≠ .restored file)
      (hfetch : ∀ file, ph = .compactFetched file → op = .pollFetch p) :
      Effect op ⟨p, (s.hosts p).node.lock, s.setPoll p ph⟩
  | pollWriteFile (p : String) (file : File) (hp : p ∈ c.addrs)
      (hpoll : (s.hosts p).poll = .fetched file) :
      Effect (.pollWriteFile p)
        ⟨p, (s.hosts p).node.lock.write [.writeFile file], s.setPoll p (.written file)⟩
  | pollRewriteLog (p : String) (file : File) (hp : p ∈ c.addrs)
      (hpoll : (s.hosts p).poll = .written file) :
      Effect (.pollRewriteLog p) ⟨p, (s.hosts p).node.lock.write [.rewriteLog [file.anchor]],
        s.setPoll p (.rewritten file)⟩
  | pollRestore (p : String) (file : File) (hp : p ∈ c.addrs)
      (hpoll : (s.hosts p).poll = .rewritten file) :
      Effect (.pollRestore p) ⟨p, (s.hosts p).node.lock,
        s.setHost p { s.hosts p with kv := file.state, poll := .restored file }⟩
  | pollAdopt (p : String) (file : File) (hp : p ∈ c.addrs)
      (hpoll : (s.hosts p).poll = .restored file) :
      Effect (.pollAdopt p) ⟨p, (s.hosts p).node.lock.adoptSnapshot file, s.setPoll p .idle⟩
  | pollCompact (p : String) (file : File) (hp : p ∈ c.addrs)
      (hpoll : (s.hosts p).poll = .compactFetched file) :
      Effect (.pollCompact p) ⟨p, (s.hosts p).node.lock.pollCompact file, s.setPoll p .idle⟩

variable {c s} {op : Op} {o : Outcome}

theorem sameProtocol_setRead (s : Cluster) (r : Nat) (ph : ReadPhase) :
    SameProtocol s (s.setRead r ph) := ⟨rfl, rfl, rfl, rfl, rfl⟩

theorem sameProtocol_ackRead (s : Cluster) (r epoch : Nat) :
    SameProtocol s (s.ackRead c r epoch) := by
  unfold Cluster.ackRead
  split
  · split
    · split
      · split
        · exact sameProtocol_setRead _ _ _
        · exact sameProtocol_setRead _ _ _
      · exact .refl s
    · exact .refl s
  · exact .refl s

theorem guard_eq_some {P : Prop} [Decidable P] {u : Unit} :
    (guard P : Option Unit) = some u ↔ P := by
  unfold guard
  by_cases hP : P
  · rw [if_pos hP]
    exact ⟨fun _ => hP, fun _ => rfl⟩
  · rw [if_neg hP]
    exact iff_of_false (fun h => nomatch h) hP

theorem look_eq_some {p : String} {s' : Cluster} :
    look s p s' = some o ↔ (⟨p, (s.hosts p).node.lock, s'⟩ : Outcome) = o := by
  simp [look]

theorem proposals_ackRead (s : Cluster) (r epoch : Nat) :
    (s.ackRead c r epoch).proposals = s.proposals := by
  unfold Cluster.ackRead
  split
  · split
    · split
      · split <;> rfl
      · rfl
    · rfl
  · rfl

/-- A look at the node, with some bookkeeping around it. -/
theorem Effect.of_look {p : String} {s' : Cluster} (hop : ∀ q command, op ≠ .proposeSync q command)
    (hs' : SameProtocol s s') (hcalls : s'.proposals = s.proposals) :
    Effect c s op ⟨p, (s.hosts p).node.lock, s'⟩ :=
  .idle op p _ s' .look hs' hop (by rw [hcalls]; rfl) (by simp [Node.lock])

/-- **What an operation can do.** -/
theorem exec_effect (h : exec c s op = some o) : Effect c s op o := by
  cases op with
  | startElection p fails =>
      simp only [exec, Option.bind_eq_bind, Option.bind_eq_some_iff, guard_eq_some, exists_const,
        Option.some.injEq] at h
      obtain ⟨hp, rfl⟩ := h
      exact .startElection p fails hp
  | soloElection k =>
      simp only [exec, Option.bind_eq_bind, Option.bind_eq_some_iff, guard_eq_some, exists_const,
        Option.some.injEq] at h
      obtain ⟨call, hk, ⟨hepoch, hq⟩, rfl⟩ := h
      exact .soloElection k call hk hepoch hq
  | requestVote k peer f =>
      simp only [exec, Option.bind_eq_bind, Option.bind_eq_some_iff, guard_eq_some, exists_const,
        Option.some.injEq] at h
      obtain ⟨call, hk, ⟨hp, hsent⟩, rfl⟩ := h
      exact .requestVote k call peer f hk hp hsent
  | requestVoteReply k peer fails =>
      simp only [exec, Option.bind_eq_bind, Option.bind_eq_some_iff, guard_eq_some,
        exists_const] at h
      obtain ⟨call, hk, hepoch, h⟩ := h
      split at h
      · rename_i reply hans
        rw [Option.some.injEq] at h
        subst h
        exact .requestVoteReply k call peer fails reply hk hepoch hans
      · exact absurd h (by simp)
  | broadcastAppendEntries p =>
      simp only [exec, Option.bind_eq_bind, Option.bind_eq_some_iff, guard_eq_some, exists_const,
        look_eq_some] at h
      obtain ⟨⟨hp, hrole⟩, rfl⟩ := h
      exact .broadcast _ p none _ hp hrole (.refl _) rfl
  | appendEntries k peer f =>
      simp only [exec, Option.bind_eq_bind, Option.bind_eq_some_iff, guard_eq_some, exists_const,
        Option.some.injEq] at h
      obtain ⟨b, hk, out, hfind, ⟨hp, hsent⟩, rfl⟩ := h
      exact .appendEntries k b out peer f hk (List.mem_of_find?_eq_some hfind)
        (by simpa using List.find?_some hfind) hp hsent
  | appendEntriesReply k peer fails =>
      simp only [exec, Option.bind_eq_bind, Option.bind_eq_some_iff, guard_eq_some,
        exists_const] at h
      obtain ⟨b, hk, out, hfind, hepoch, h⟩ := h
      split at h
      · rename_i reply hans
        rw [Option.some.injEq] at h
        subst h
        refine .appendEntriesReply k b out peer fails reply _ hk (List.mem_of_find?_eq_some hfind)
          hfind (by simpa using List.find?_some hfind) hepoch hans ?_ ?_
        · split
          · split
            · exact sameProtocol_ackRead _ _ _
            · exact .refl _
          · exact .refl _
        · split
          · split
            · exact proposals_ackRead _ _ _
            · rfl
          · rfl
      · exact absurd h (by simp)
  | propose p command =>
      simp only [exec, Option.bind_eq_bind, Option.bind_eq_some_iff, guard_eq_some, exists_const,
        Option.some.injEq] at h
      obtain ⟨hp, rfl⟩ := h
      exact .propose p command hp
  | proposeSync p command =>
      simp only [exec, Option.bind_eq_bind, Option.bind_eq_some_iff, guard_eq_some, exists_const,
        Option.some.injEq] at h
      obtain ⟨hp, rfl⟩ := h
      refine .proposeSync p command hp _ ?_ ?_
      · split
        · exact ⟨rfl, rfl, rfl, rfl, rfl⟩
        · exact .refl s
      · unfold Locked.proposeSync
        by_cases hrole : (s.hosts p).node.role ≠ .leader
        · rw [if_pos hrole, if_pos (show (s.hosts p).node.lock.node.role ≠ .leader from hrole)]
        · rw [if_neg hrole, if_neg (show ¬ (s.hosts p).node.lock.node.role ≠ .leader from hrole)]
          rfl
  | proposeReturn k =>
      simp only [exec, Option.bind_eq_bind, Option.bind_eq_some_iff, guard_eq_some, exists_const,
        Option.some.injEq] at h
      obtain ⟨call, hk, outcome, hchan, -, rfl⟩ := h
      refine .idle _ _ _ _ (.returned _ _) ⟨rfl, rfl, rfl, rfl, rfl⟩ (by simp) (sameCalls_set hk) ?_
      intro i out hret
      obtain ⟨rfl, rfl⟩ : i = call.index ∧ out = outcome := by simpa [Node.lock] using hret
      exact ⟨call, List.mem_of_getElem? hk, rfl, hchan⟩
  | proposeCancel k =>
      simp only [exec, Option.bind_eq_bind, Option.bind_eq_some_iff, guard_eq_some, exists_const,
        Option.some.injEq] at h
      obtain ⟨call, hk, -, rfl⟩ := h
      exact .idle _ _ _ _ (.waiters _) ⟨rfl, rfl, rfl, rfl, rfl⟩ (by simp) (sameCalls_set hk)
        (by simp [Node.lock])
  | startRead p =>
      simp only [exec, Option.bind_eq_bind, Option.bind_eq_some_iff, guard_eq_some,
        exists_const] at h
      obtain ⟨-, h⟩ := h
      split at h
      · rw [look_eq_some] at h
        subst h
        exact .of_look (by simp) ⟨rfl, rfl, rfl, rfl, rfl⟩ rfl
      · rw [look_eq_some] at h
        subst h
        exact .of_look (by simp) (.refl s) rfl
  | requestReadIndex r =>
      simp only [exec, Option.bind_eq_bind, Option.bind_eq_some_iff, guard_eq_some, exists_const,
        look_eq_some] at h
      obtain ⟨call, -, -, rfl⟩ := h
      exact .of_look (by simp) (sameProtocol_setRead _ _ _) rfl
  | confirmLeadership r =>
      simp only [exec, Option.bind_eq_bind, Option.bind_eq_some_iff] at h
      obtain ⟨call, -, h⟩ := h
      split at h
      · simp only [Option.bind_eq_some_iff, guard_eq_some, exists_const, look_eq_some] at h
        obtain ⟨⟨hp, -⟩, rfl⟩ := h
        split
        · exact .of_look (by simp) (sameProtocol_setRead _ _ _) rfl
        · rename_i reqs hreqs
          unfold Node.confirmLeadership at hreqs
          split at hreqs
          · exact absurd hreqs (by simp)
          · rename_i hlead
            rw [Option.some.injEq] at hreqs
            subst hreqs
            split
            · exact .of_look (by simp) (sameProtocol_setRead _ _ _) rfl
            · exact .broadcast _ _ (some r) _ hp (by simpa using (not_or.1 hlead).1)
                ⟨rfl, rfl, rfl, rfl, rfl⟩ rfl
      · exact absurd h (by simp)
  | readIndexFailed r =>
      simp only [exec, Option.bind_eq_bind, Option.bind_eq_some_iff] at h
      obtain ⟨call, -, h⟩ := h
      split at h
      · simp only [Option.bind_eq_some_iff, guard_eq_some, exists_const, look_eq_some] at h
        obtain ⟨-, rfl⟩ := h
        exact .of_look (by simp) (sameProtocol_setRead _ _ _) rfl
      · exact absurd h (by simp)
  | readIndexReply r =>
      simp only [exec, Option.bind_eq_bind, Option.bind_eq_some_iff, guard_eq_some,
        exists_const] at h
      obtain ⟨call, -, -, h⟩ := h
      split at h
      · split at h
        · rw [look_eq_some] at h
          subst h
          exact .of_look (by simp) (sameProtocol_setRead _ _ _) rfl
        · rename_i reply _ _
          rw [Option.some.injEq] at h
          subst h
          refine .idle _ _ _ _ ?_ (sameProtocol_setRead _ _ _) (by simp) rfl (by simp [Node.lock])
          unfold Node.rememberRedirect
          split
          · exact .leader _
          · exact .look
      · rw [look_eq_some] at h
        subst h
        exact .of_look (by simp) (sameProtocol_setRead _ _ _) rfl
      · exact absurd h (by simp)
  | readApplied r =>
      simp only [exec, Option.bind_eq_bind, Option.bind_eq_some_iff, guard_eq_some,
        exists_const] at h
      obtain ⟨call, -, -, h⟩ := h
      split at h
      · simp only [Option.bind_eq_some_iff, guard_eq_some, exists_const, look_eq_some] at h
        obtain ⟨-, rfl⟩ := h
        exact .of_look (by simp) (sameProtocol_setRead _ _ _) rfl
      · exact absurd h (by simp)
  | readTimeout r =>
      simp only [exec, Option.bind_eq_bind, Option.bind_eq_some_iff, guard_eq_some,
        exists_const] at h
      obtain ⟨call, -, -, h⟩ := h
      split at h
      · exact absurd h (by simp)
      · rw [look_eq_some] at h
        subst h
        exact .of_look (by simp) (sameProtocol_setRead _ _ _) rfl
  | getStatus p =>
      simp only [exec, Option.bind_eq_bind, Option.bind_eq_some_iff, guard_eq_some, exists_const,
        look_eq_some] at h
      obtain ⟨-, rfl⟩ := h
      exact .of_look (by simp) ⟨rfl, rfl, rfl, rfl, rfl⟩ rfl
  | getValue k key =>
      simp only [exec, Option.bind_eq_bind, Option.bind_eq_some_iff, guard_eq_some, exists_const,
        look_eq_some] at h
      obtain ⟨call, -, -, rfl⟩ := h
      exact .of_look (by simp) ⟨rfl, rfl, rfl, rfl, rfl⟩ rfl
  | confirmCompaction p req =>
      simp only [exec, Option.bind_eq_bind, Option.bind_eq_some_iff, guard_eq_some, exists_const,
        Option.some.injEq] at h
      obtain ⟨hp, rfl⟩ := h
      exact .confirmCompaction p req hp
  | pollInfo p =>
      simp only [exec, Option.bind_eq_bind, Option.bind_eq_some_iff, guard_eq_some,
        exists_const] at h
      obtain ⟨hp, h⟩ := h
      split at h
      · rename_i file hpoll hcat
        rw [look_eq_some] at h
        subst h
        exact .pollWait _ p _ hp rfl (by rw [hpoll]; rfl) (by simp) (by simp) (by simp) (by simp)
      · exact absurd h (by simp)
  | pollDecide p =>
      simp only [exec, Option.bind_eq_bind, Option.bind_eq_some_iff, guard_eq_some,
        exists_const] at h
      obtain ⟨hp, h⟩ := h
      split at h
      · rename_i target hpoll
        rw [look_eq_some] at h
        subst h
        have hfrom : (s.hosts p).poll.catchUpFile? = none := by rw [hpoll]; rfl
        unfold Node.pollDecision
        split
        · exact .pollWait _ p _ hp rfl hfrom (by simp) (by simp) (by simp) (by simp)
        · split
          · exact .pollWait _ p _ hp rfl hfrom (by simp) (by simp) (by simp) (by simp)
          · exact .pollWait _ p _ hp rfl hfrom (by simp) (by simp) (by simp) (by simp)
      · exact absurd h (by simp)
  | pollFetch p =>
      simp only [exec, Option.bind_eq_bind, Option.bind_eq_some_iff, guard_eq_some,
        exists_const] at h
      obtain ⟨hp, h⟩ := h
      split at h
      · rename_i file hpoll hcat
        rw [look_eq_some] at h
        subst h
        have hfrom : (s.hosts p).poll.catchUpFile? = none := by rw [hpoll]; rfl
        split
        · exact .pollWait _ p _ hp rfl hfrom (by simp) (by simp) (by simp) (by simp)
        · rename_i hne
          exact .pollWait _ p _ hp rfl hfrom (by simp [hcat])
            (by rintro f ⟨⟩; exact Nat.pos_of_ne_zero hne) (by simp) (by simp)
      · rename_i target file hpoll hcat
        rw [look_eq_some] at h
        subst h
        have hfrom : (s.hosts p).poll.catchUpFile? = none := by rw [hpoll]; rfl
        split
        · exact .pollWait _ p _ hp rfl hfrom (by simp) (by simp) (by simp) (by simp)
        · exact .pollWait _ p _ hp rfl hfrom (by simp [hcat]) (by simp) (by simp) (by simp)
      · exact absurd h (by simp)
  | pollAbort p =>
      simp only [exec, Option.bind_eq_bind, Option.bind_eq_some_iff, guard_eq_some,
        exists_const] at h
      obtain ⟨hp, h⟩ := h
      split at h
      · rename_i hpoll
        rw [look_eq_some] at h
        subst h
        exact .pollWait _ p _ hp rfl (by rw [hpoll]; rfl) (by simp) (by simp) (by simp) (by simp)
      · rename_i target hpoll
        rw [look_eq_some] at h
        subst h
        exact .pollWait _ p _ hp rfl (by rw [hpoll]; rfl) (by simp) (by simp) (by simp) (by simp)
      · exact absurd h (by simp)
  | pollWriteFile p =>
      simp only [exec, Option.bind_eq_bind, Option.bind_eq_some_iff, guard_eq_some,
        exists_const] at h
      obtain ⟨hp, h⟩ := h
      split at h
      · rename_i file hpoll
        rw [Option.some.injEq] at h
        subst h
        exact .pollWriteFile p file hp hpoll
      · exact absurd h (by simp)
  | pollRewriteLog p =>
      simp only [exec, Option.bind_eq_bind, Option.bind_eq_some_iff, guard_eq_some,
        exists_const] at h
      obtain ⟨hp, h⟩ := h
      split at h
      · rename_i file hpoll
        rw [Option.some.injEq] at h
        subst h
        exact .pollRewriteLog p file hp hpoll
      · exact absurd h (by simp)
  | pollRestore p =>
      simp only [exec, Option.bind_eq_bind, Option.bind_eq_some_iff, guard_eq_some,
        exists_const] at h
      obtain ⟨hp, h⟩ := h
      split at h
      · rename_i file hpoll
        rw [look_eq_some] at h
        subst h
        exact .pollRestore p file hp hpoll
      · exact absurd h (by simp)
  | pollAdopt p =>
      simp only [exec, Option.bind_eq_bind, Option.bind_eq_some_iff, guard_eq_some,
        exists_const] at h
      obtain ⟨hp, h⟩ := h
      split at h
      · rename_i file hpoll
        rw [Option.some.injEq] at h
        subst h
        exact .pollAdopt p file hp hpoll
      · exact absurd h (by simp)
  | pollCompact p =>
      simp only [exec, Option.bind_eq_bind, Option.bind_eq_some_iff, guard_eq_some,
        exists_const] at h
      obtain ⟨hp, h⟩ := h
      split at h
      · rename_i file hpoll
        rw [Option.some.injEq] at h
        subst h
        exact .pollCompact p file hp hpoll
      · exact absurd h (by simp)

/-! ## One process -/

/-- A critical section changes the node and the disk of its own process only, and
those only at its end. -/
theorem Effect.same (h : Effect c s op o) (q : String) :
    (o.around.hosts q).node = (s.hosts q).node ∧ (o.around.hosts q).disk = (s.hosts q).disk ∧
      (o.around.hosts q).epoch = (s.hosts q).epoch ∧
      (q ≠ o.host → (o.around.hosts q).poll = (s.hosts q).poll) := by
  have hset : ∀ (p : String) (h' : Host), h'.node = (s.hosts p).node → h'.disk = (s.hosts p).disk →
      h'.epoch = (s.hosts p).epoch →
      ((s.setHost p h').hosts q).node = (s.hosts q).node ∧
      ((s.setHost p h').hosts q).disk = (s.hosts q).disk ∧
      ((s.setHost p h').hosts q).epoch = (s.hosts q).epoch ∧
      (q ≠ p → ((s.setHost p h').hosts q).poll = (s.hosts q).poll) := by
    intro p h' hn hd he
    by_cases hq : q = p
    · subst hq
      simp [Cluster.setHost, hn, hd, he]
    · simp [Cluster.setHost, hq]
  cases h with
  | startElection p fails hp => exact ⟨rfl, rfl, rfl, fun _ => rfl⟩
  | soloElection k call hk hepoch hq => exact ⟨rfl, rfl, rfl, fun _ => rfl⟩
  | requestVote k call peer f hk hp hsent => exact ⟨rfl, rfl, rfl, fun _ => rfl⟩
  | requestVoteReply k call peer fails reply hk hepoch hans => exact ⟨rfl, rfl, rfl, fun _ => rfl⟩
  | broadcast op p read s' hp hrole hs' =>
      rw [hs'.hosts]
      exact ⟨rfl, rfl, rfl, fun _ => rfl⟩
  | appendEntries k b out peer f hk hout hpeer hp hsent => exact ⟨rfl, rfl, rfl, fun _ => rfl⟩
  | appendEntriesReply k b out peer fails reply s' hk hout hfind hpeer hepoch hans hs' =>
      rw [hs'.hosts]
      exact ⟨rfl, rfl, rfl, fun _ => rfl⟩
  | propose p command hp => exact ⟨rfl, rfl, rfl, fun _ => rfl⟩
  | proposeSync p command hp s' hs' =>
      rw [hs'.hosts]
      exact ⟨rfl, rfl, rfl, fun _ => rfl⟩
  | idle op p r s' hr hs' =>
      rw [hs'.hosts]
      exact ⟨rfl, rfl, rfl, fun _ => rfl⟩
  | confirmCompaction p req hp => exact ⟨rfl, rfl, rfl, fun _ => rfl⟩
  | pollWait op p ph hp hop hfrom hph hpos hph' => exact hset p _ rfl rfl rfl
  | pollWriteFile p file hp hpoll => exact hset p _ rfl rfl rfl
  | pollRewriteLog p file hp hpoll => exact hset p _ rfl rfl rfl
  | pollRestore p file hp hpoll => exact hset p _ rfl rfl rfl
  | pollAdopt p file hp hpoll => exact hset p _ rfl rfl rfl
  | pollCompact p file hp hpoll => exact hset p _ rfl rfl rfl

/-- Other processes are left as they were. -/
theorem Effect.hosts_other (h : Effect c s op o) {q : String} (hq : q ≠ o.host) :
    o.around.hosts q = s.hosts q := by
  cases h with
  | broadcast op p read s' hp hrole hs' hcalls => rw [hs'.hosts]; rfl
  | appendEntriesReply k b out peer fails reply s' hk hout hfind hpeer hepoch hans hs' hcalls =>
      rw [hs'.hosts]
      rfl
  | proposeSync p command hp s' hs' hcalls => rw [hs'.hosts]
  | idle op p r s' hr hs' hop hcalls hret => rw [hs'.hosts]
  | pollWait op p ph hp hop' hfrom hph hpos hph' hfetch => exact Function.update_of_ne hq ..
  | pollWriteFile p file hp hpoll => exact Function.update_of_ne hq ..
  | pollRewriteLog p file hp hpoll => exact Function.update_of_ne hq ..
  | pollRestore p file hp hpoll => exact Function.update_of_ne hq ..
  | pollAdopt p file hp hpoll => exact Function.update_of_ne hq ..
  | pollCompact p file hp hpoll => exact Function.update_of_ne hq ..
  | _ => rfl

section

variable (s : Cluster) (c : Config) (p : String) (r : Locked)

theorem Cluster.hosts_finish : (s.finish c p r).hosts p =
    { s.hosts p with
      node := r.node
      disk := (s.hosts p).disk.applyAll r.writes
      kv := r.events.foldl c.applyEvent (s.hosts p).kv } := Function.update_self ..

theorem Cluster.hosts_finish_of_ne {q : String} (hq : q ≠ p) :
    (s.finish c p r).hosts q = s.hosts q := Function.update_of_ne hq ..

theorem Cluster.node_finish : ((s.finish c p r).hosts p).node = r.node := by
  rw [Cluster.hosts_finish]

theorem Cluster.proposals_finish :
    (s.finish c p r).proposals = r.events.foldl Cluster.notify s.proposals := rfl

theorem Cluster.history_finish :
    (s.finish c p r).history = s.history ++ r.events.map fun e => ⟨p, (s.hosts p).epoch, e⟩ := rfl

variable (ws : List DiskWrite)

theorem Cluster.hosts_restart : (s.restart c p ws).hosts p =
    c.boot p ((s.hosts p).disk.applyAll ws) ((s.hosts p).epoch + 1) := Function.update_self ..

theorem Cluster.hosts_restart_of_ne {q : String} (hq : q ≠ p) :
    (s.restart c p ws).hosts q = s.hosts q := Function.update_of_ne hq ..

end

/-- At its end, a critical section leaves the other processes as they were. -/
theorem Effect.hosts_finish_other (h : Effect c s op o) {q : String} (hq : q ≠ o.host) :
    (o.around.finish c o.host o.result).hosts q = s.hosts q :=
  (Cluster.hosts_finish_of_ne _ _ _ _ hq).trans (h.hosts_other hq)

theorem Effect.disk_finish (h : Effect c s op o) :
    ((o.around.finish c o.host o.result).hosts o.host).disk =
      (s.hosts o.host).disk.applyAll o.result.writes := by
  rw [Cluster.hosts_finish, (h.same o.host).2.1]

theorem Effect.epoch_finish (h : Effect c s op o) (q : String) :
    ((o.around.finish c o.host o.result).hosts q).epoch = (s.hosts q).epoch := by
  by_cases hq : q = o.host
  · subst hq
    rw [Cluster.hosts_finish]
    exact (h.same o.host).2.2.1
  · rw [h.hosts_finish_other hq]

/-- Where a round of requests comes from: it was under way and has had at most one more
answer, or a leader has just sent it. -/
inductive RoundOrigin (s : Cluster) (o : Outcome) (b' : Broadcast) : Prop
  | old (b : Broadcast) (calls : String → CallPhase AppendEntriesReply) (hb : b ∈ s.broadcasts)
      (heq : b' = { b with calls := calls })
      (hcalls : ∀ peer reply, calls peer = .answered reply → b.calls peer = .answered reply ∨
        ∃ out ∈ b.reqs, out.peer = peer ∧
          ∃ f, ((s.hosts peer).node.lock.appendEntries out.req f).2 = .ok reply)
  | new (read : Option Nat) (hrole : (s.hosts o.host).node.role = .leader)
      (hres : o.result = (s.hosts o.host).node.lock)
      (heq : b' = ⟨o.host, (s.hosts o.host).epoch, (s.hosts o.host).node.currentTerm,
        (s.hosts o.host).node.buildAppendEntriesRequestsLocked, fun _ => .sent, read⟩)

/-- **Rounds of requests** after a critical section. -/
theorem Effect.round (h : Effect c s op o) {b' : Broadcast} (hb' : b' ∈ o.around.broadcasts) :
    RoundOrigin s o b' := by
  have hold : ∀ {b : Broadcast}, b ∈ s.broadcasts → RoundOrigin s o b :=
    fun {b} hb => .old b b.calls hb rfl fun _ _ h => Or.inl h
  have hset : ∀ {k : Nat} {b : Broadcast} {calls : String → CallPhase AppendEntriesReply},
      s.broadcasts[k]? = some b →
      (∀ peer reply, calls peer = .answered reply → b.calls peer = .answered reply ∨
        ∃ out ∈ b.reqs, out.peer = peer ∧
          ∃ f, ((s.hosts peer).node.lock.appendEntries out.req f).2 = .ok reply) →
      b' ∈ (s.setBroadcast k { b with calls := calls }).broadcasts → RoundOrigin s o b' := by
    intro k b calls hk hcalls hin
    rcases List.mem_or_eq_of_mem_set hin with hin | rfl
    · exact hold hin
    · exact .old b calls (List.mem_of_getElem? hk) rfl hcalls
  cases h with
  | broadcast op p read s' hp hrole hs' hcalls =>
      rw [hs'.broadcasts] at hb'
      rcases List.mem_append.1 hb' with hb' | hb'
      · exact hold hb'
      · exact .new read hrole rfl (List.mem_singleton.1 hb')
  | appendEntries k b out peer f hk hout hpeer hp hsent =>
      refine hset hk (fun q reply hq => ?_) hb'
      by_cases hqp : q = peer
      · subst hqp
        rw [Function.update_self] at hq
        refine Or.inr ⟨out, hout, hpeer, f, ?_⟩
        generalize ((s.hosts q).node.lock.appendEntries out.req f).2 = r at hq
        cases r with
        | ok r => exact congrArg Except.ok (CallPhase.answered.inj hq)
        | error err => exact absurd hq (by simp [replyPhase])
      · rw [Function.update_of_ne hqp] at hq
        exact Or.inl hq
  | appendEntriesReply k b out peer fails reply s' hk hout hfind hpeer hepoch hans hs' hcalls =>
      rw [hs'.broadcasts] at hb'
      refine hset hk (fun q reply hq => Or.inl ?_) hb'
      by_cases hqp : q = peer
      · subst hqp
        rw [Function.update_self] at hq
        exact absurd hq (by simp)
      · rwa [Function.update_of_ne hqp] at hq
  | proposeSync p command hp s' hs' hcalls => exact hold (hs'.broadcasts ▸ hb')
  | idle op p r s' hr hs' hop hcalls hret => exact hold (hs'.broadcasts ▸ hb')
  | _ => exact hold hb'

/-- What a step of the cluster is: a critical section, a restart, perhaps in the middle of one,
or another snapshot in the catalog. -/
inductive StepView (c : Config) (s : Cluster) : Action → Cluster → Prop
  | run (op : Op) (o : Outcome) (ho : exec c s op = some o) :
      StepView c s (.run op) (o.around.finish c o.host o.result)
  | crash (p : String) (hp : p ∈ c.addrs) : StepView c s (.crash p) (s.restart c p [])
  | crashDuring (op : Op) (o : Outcome) (k : Nat) (ho : exec c s op = some o) :
      StepView c s (.crashDuring op k) (s.restart c o.host (o.result.writes.take k))
  | publish (file : File) : StepView c s (.publish file) { s with catalog := some file }

theorem stepView {s' : Cluster} {a : Action} (hs : step c s a = some s') : StepView c s a s' := by
  cases a with
  | run op =>
      simp only [step, Option.map_eq_some_iff] at hs
      obtain ⟨o, ho, rfl⟩ := hs
      exact .run op o ho
  | crash p =>
      simp only [step, Option.ite_none_right_eq_some, Option.some.injEq] at hs
      obtain ⟨hp, rfl⟩ := hs
      exact .crash p hp
  | crashDuring op k =>
      simp only [step, Option.map_eq_some_iff] at hs
      obtain ⟨o, ho, rfl⟩ := hs
      exact .crashDuring op o k ho
  | publish file =>
      simp only [step, Option.some.injEq] at hs
      subst hs
      exact .publish file

/-- What a step can do to one process: nothing but bookkeeping, a critical section of
its own, or a restart. -/
inductive HostStep (c : Config) (s : Cluster) (a : Action) (p : String) (h' : Host) : Prop
  | other (hnode : h'.node = (s.hosts p).node) (hdisk : h'.disk = (s.hosts p).disk)
      (hepoch : h'.epoch = (s.hosts p).epoch) (hpoll : h'.poll = (s.hosts p).poll)
  | own (op : Op) (o : Outcome) (ha : a = .run op) (heff : Effect c s op o) (hp : o.host = p)
      (hnode : h'.node = o.result.node) (hdisk : h'.disk = (s.hosts p).disk.applyAll o.result.writes)
      (hepoch : h'.epoch = (s.hosts p).epoch) (hpoll : h'.poll = (o.around.hosts p).poll)
  | restart (ws : List DiskWrite)
      (hh : h' = c.boot p ((s.hosts p).disk.applyAll ws) ((s.hosts p).epoch + 1))

theorem hostStep {s' : Cluster} {a : Action} (hs : step c s a = some s') (p : String) :
    HostStep c s a p (s'.hosts p) := by
  have hrestart : ∀ (q : String) (ws : List DiskWrite),
      HostStep c s a p ((s.restart c q ws).hosts p) := by
    intro q ws
    by_cases hq : p = q
    · subst hq
      exact .restart ws (Cluster.hosts_restart ..)
    · rw [Cluster.hosts_restart_of_ne _ _ _ _ hq]
      exact .other rfl rfl rfl rfl
  cases stepView hs with
  | run op o ho =>
      have heff := exec_effect ho
      by_cases hp : p = o.host
      · subst hp
        exact .own op o rfl heff rfl (Cluster.node_finish ..) heff.disk_finish
          (heff.epoch_finish _) (by rw [Cluster.hosts_finish])
      · rw [heff.hosts_finish_other hp]
        exact .other rfl rfl rfl rfl
  | crash q _ => exact hrestart q []
  | crashDuring op o k _ => exact hrestart o.host _
  | publish file => exact .other rfl rfl rfl rfl

/-- A process is the one it was, or one that was started later. -/
theorem step_epoch {s' : Cluster} {act : Action} (hs : step c s act = some s') (q : String) :
    (s.hosts q).epoch ≤ (s'.hosts q).epoch := by
  cases hostStep hs q with
  | other hnode hdisk hepoch hpoll => rw [hepoch]
  | own op o ha heff hhost hnode hdisk hepoch hpoll => rw [hepoch]
  | restart ws hh =>
      rw [hh]
      exact Nat.le_succ _

end B5KvStore
