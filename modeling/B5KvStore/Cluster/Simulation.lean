import B5KvStore.Cluster.Compaction
import B5KvStore.Cluster.Followers

/-!
# The cluster runs the abstract protocol

Every step of the cluster is matched by steps of the abstract protocol, as long as no
disk write fails and snapshots are used safely: the catalog and every `CompactionAck`
hold committed snapshots, and a node catches up only to a snapshot that covers its log
and was committed in a term it has reached.

* `SafeSnapshots`, `Safe` — what is asked of a step.
* `ClusterView.effect` — one critical section.
* `ClusterView.step`, `ClusterView.run` — one step, and whole runs.
-/

namespace B5KvStore

open ReplicatedLog (Known Backed CommittedAt Extends)

/-! ## Safe use of snapshots -/

/-- The last entry of the snapshot has been committed. -/
def CommittedSnapshot (s : Cluster) (file : File) : Prop :=
  ∃ ev ∈ s.history, ∃ n, ev.what = .advancedCommit n ∧
    ∃ e ∈ n.entryAtLocked file.lastIncludedIndex,
      Shows n file.lastIncludedIndex e ∧ e.term = file.lastIncludedTerm

/-- It was committed in a term the node has reached. -/
def Fresh (s : Cluster) (p : String) (file : File) : Prop :=
  ∃ ev ∈ s.history, ∃ n, ev.what = .advancedCommit n ∧ file.lastIncludedIndex ≤ n.commitIndex ∧
    n.currentTerm ≤ (s.hosts p).node.currentTerm

/-- The node's log ends at or below the snapshot. -/
def Covers (s : Cluster) (p : String) (file : File) : Prop :=
  (s.hosts p).node.lastLogIndexLocked ≤ file.lastIncludedIndex

/-- Snapshots hold committed entries, and a node that catches up to one loses nothing.
A snapshot of a single entry is left out: its anchor has offset `0`, so that it is
taken for an entry. -/
def Op.SafeSnapshots (s : Cluster) : Op → Prop
  | .confirmCompaction _ req => ∀ file ∈ req.stateMachineSnapshot.toOption, CommittedSnapshot s file
  | .pollWriteFile p => ∀ file ∈ (s.hosts p).poll.fetched?,
      2 ≤ file.lastIncludedIndex ∧ Covers s p file ∧ Fresh s p file
  | .pollRewriteLog p => ∀ file ∈ (s.hosts p).poll.written?, Covers s p file
  | .pollAdopt p => ∀ file ∈ (s.hosts p).poll.restored?, Covers s p file
  | _ => True

/-- The same for a step. -/
def SafeSnapshots (s : Cluster) : Action → Prop
  | .run op | .crashDuring op _ => op.SafeSnapshots s
  | .publish file => 0 < file.lastIncludedIndex → CommittedSnapshot s file
  | .crash _ => True

/-- No `SaveState` call fails, and snapshots are used safely. -/
def Safe (s : Cluster) (a : Action) : Prop := a.NoFaults ∧ SafeSnapshots s a

section

variable (s : Cluster) (p : String) (file : File)

instance : Decidable (CommittedSnapshot s file) := decidableAdvanced s _

instance : Decidable (Fresh s p file) := decidableAdvanced s _

instance : Decidable (Covers s p file) := Nat.decLe _ _

instance : (op : Op) → Decidable (op.SafeSnapshots s)
  | .confirmCompaction _ req => inferInstanceAs
      (Decidable (∀ file ∈ req.stateMachineSnapshot.toOption, CommittedSnapshot s file))
  | .pollWriteFile p => inferInstanceAs (Decidable (∀ file ∈ (s.hosts p).poll.fetched?,
      2 ≤ file.lastIncludedIndex ∧ Covers s p file ∧ Fresh s p file))
  | .pollRewriteLog p => inferInstanceAs
      (Decidable (∀ file ∈ (s.hosts p).poll.written?, Covers s p file))
  | .pollAdopt p => inferInstanceAs
      (Decidable (∀ file ∈ (s.hosts p).poll.restored?, Covers s p file))
  | .startElection .. | .soloElection .. | .requestVote .. | .requestVoteReply ..
  | .broadcastAppendEntries .. | .appendEntries .. | .appendEntriesReply .. | .propose ..
  | .proposeSync .. | .proposeReturn .. | .proposeCancel .. | .startRead .. | .requestReadIndex ..
  | .confirmLeadership .. | .readIndexFailed .. | .readIndexReply .. | .readApplied ..
  | .readTimeout .. | .getStatus .. | .getValue .. | .pollInfo .. | .pollDecide .. | .pollFetch ..
  | .pollAbort .. | .pollRestore .. | .pollCompact .. => instDecidableTrue

instance : (a : Action) → Decidable (SafeSnapshots s a)
  | .run op => inferInstanceAs (Decidable (op.SafeSnapshots s))
  | .crashDuring op _ => inferInstanceAs (Decidable (op.SafeSnapshots s))
  | .publish file => inferInstanceAs
      (Decidable (0 < file.lastIncludedIndex → CommittedSnapshot s file))
  | .crash _ => instDecidableTrue

instance (a : Action) : Decidable (Safe s a) := instDecidableAnd

end

/-- What an event shows is committed. -/
theorem EventView.committedAt {a : Model} {p : String} {n : Node}
    (h : EventView a p (.advancedCommit n)) {i : Nat} {e : LogEntry} (hs : Shows n i e) :
    CommittedAt a i e := by
  obtain ⟨hcom, L, m, hled, hcm, hm, hlog⟩ := h
  obtain ⟨hi, hanchor, he⟩ := hs
  have hview : n.logOffset = 0 ∨ n.logOffset + 1 < i := by
    unfold Node.anchorIndex at hanchor
    split at hanchor
    · rename_i h0
      exact Or.inl h0
    · exact Or.inr hanchor
  have hpos : 0 < i := by omega
  rw [n.entryAtLocked_eq hlog hpos hview, List.getElem?_take, if_pos (by omega)] at he
  exact ⟨n.currentTerm, n.commitIndex, p, L, hcom, hpos, hi, hled, he⟩

section

variable {c : Config} {a a' : Model} {p : String} {s s' : Cluster} {op : Op} {o : Outcome}

theorem ClusterView.committedAt (h : ClusterView c a s) {i : Nat} {e : LogEntry}
    (he : CommittedEntry s i e) : CommittedAt a i e := by
  obtain ⟨ev, hev, n, hn, hs⟩ := he
  have := h.history ev hev
  rw [hn] at this
  exact this.committedAt hs

theorem ClusterView.committedFile (h : ClusterView c a s) {file : File}
    (hf : CommittedSnapshot s file) : CommittedFile a file := by
  obtain ⟨ev, hev, n, hn, e, -, hs, ht⟩ := hf
  exact ⟨e, h.committedAt ⟨ev, hev, n, hn, hs⟩, ht⟩

/-- A fresh snapshot that covers the log can be started from. -/
theorem ClusterView.fileView (h : ClusterView c a s) (hp : p ∈ c.addrs) {file : File}
    (hf : CommittedFile a file) (h2 : 2 ≤ file.lastIncludedIndex) (hcov : Covers s p file)
    (hfresh : Fresh s p file) : FileView a p file := by
  obtain ⟨e, ⟨T, N, l, L, hcom, hpos, hN, hled, he⟩, ht⟩ := hf
  obtain ⟨ev, hev, n, hn, hA, hT⟩ := hfresh
  have hview := h.history ev hev
  rw [hn] at hview
  obtain ⟨hcom', L', m, hled', -⟩ := hview
  have htake := h.reach.inv.commit_agree hcom hled hcom' hled' hN hA
  refine ⟨h2, e, ⟨n.currentTerm, n.commitIndex, _, L', hcom', ?_, hpos, hA, hled', ?_, Or.inl ?_⟩, ht⟩
  · rw [(h.nodes p hp).term]
    exact hT
  · rw [← ReplicatedLog.getElem?_eq_of_take_eq htake (by omega)]
    exact he
  · unfold Covers at hcov
    rwa [Node.lastLogIndexLocked_eq (h.nodes p hp).log] at hcov

/-! ## One critical section -/

/-- What a critical section makes of the abstract state: `lo` is where applying began. -/
structure SectionStep (c : Config) (a : Model) (s : Cluster) (op : Op) (o : Outcome) (lo : Nat)
    (a' : Model) : Prop where
  moves : Moves c o.host a a'
  member : o.host ∈ c.addrs → SectionView c a o.host (s.hosts o.host).disk lo o.result a'
  stranger : o.host ∉ c.addrs → a' = a ∧ ∀ e ∈ o.result.events, EventView a' o.host e
  elections : ∀ call ∈ o.around.elections, ElectionView c a' call
  broadcasts : ∀ b ∈ o.around.broadcasts, BroadcastView c a' b
  poll : o.host ∈ c.addrs → PollView a' o.host
    ((s.hosts o.host).disk.applyAll o.result.writes) (o.around.hosts o.host).poll
  le : o.host ∈ c.addrs → (s.hosts o.host).node.lastApplied ≤ lo
  applied : (∀ p, op ≠ .pollAdopt p) → lo = (s.hosts o.host).node.lastApplied

/-- The poll loop can go on with data directories that keep up. -/
theorem PollView.covered {d d' : Disk} {ph : PollPhase} (h : PollView a p d ph) (hr : c.Reaches a)
    (hm : Moves c p a a') (hcov : ∀ f ∈ d.snapshots, ∃ g ∈ d'.snapshots,
      f.lastIncludedIndex ≤ g.lastIncludedIndex) : PollView a' p d' ph := by
  have hcov' : ∀ f : File, (∃ g ∈ d.snapshots, f.lastIncludedIndex ≤ g.lastIncludedIndex) →
      ∃ g ∈ d'.snapshots, f.lastIncludedIndex ≤ g.lastIncludedIndex := by
    rintro f ⟨g, hg, hle⟩
    obtain ⟨g', hg', hle'⟩ := hcov g hg
    exact ⟨g', hg', hle.trans hle'⟩
  have h' := h.moves hr hm
  cases ph with
  | written f => exact ⟨h'.1, hcov' f h'.2⟩
  | rewritten f => exact ⟨h'.1, hcov' f h'.2⟩
  | restored f => exact ⟨h'.1, hcov' f h'.2⟩
  | _ => exact h'

@[simp] theorem Cluster.poll_setPoll (s : Cluster) (p : String) (ph : PollPhase) :
    ((s.setPoll p ph).hosts p).poll = ph := by
  simp [Cluster.setPoll, Cluster.setHost]

/-- A critical section of the poll loop. -/
theorem ClusterView.section_of_poll (h : ClusterView c a s) (hp : o.host ∈ c.addrs)
    (hview : SectionView c a o.host (s.hosts o.host).disk
      (s.hosts o.host).node.lastApplied o.result a)
    (haround : o.around.elections = s.elections ∧ o.around.broadcasts = s.broadcasts)
    (hpoll : PollView a o.host ((s.hosts o.host).disk.applyAll o.result.writes)
      (o.around.hosts o.host).poll) :
    SectionStep c a s op o (s.hosts o.host).node.lastApplied a where
  moves := hview.moves
  member _ := hview
  stranger hn := absurd hp hn
  elections := by rw [haround.1]; exact h.elections
  broadcasts := by rw [haround.2]; exact h.broadcasts
  poll _ := hpoll
  le _ := le_refl _
  applied _ := rfl

/-- A critical section of a member that leaves the rest of the system alone, apart from
elections and rounds of requests. -/
theorem ClusterView.section_of_view (h : ClusterView c a s) (hp : o.host ∈ c.addrs)
    (hview : SectionView c a o.host (s.hosts o.host).disk
      (s.hosts o.host).node.lastApplied o.result a')
    (hel : ∀ call ∈ o.around.elections, ElectionView c a' call)
    (hbr : ∀ b ∈ o.around.broadcasts, BroadcastView c a' b)
    (hpoll : (o.around.hosts o.host).poll = (s.hosts o.host).poll) :
    SectionStep c a s op o (s.hosts o.host).node.lastApplied a' where
  moves := hview.moves
  member _ := hview
  stranger hn := absurd hp hn
  elections := hel
  broadcasts := hbr
  poll _ := by
    rw [hpoll]
    exact (h.polls _ hp).covered h.reach hview.moves hview.files
  le _ := le_refl _
  applied _ := rfl

theorem ClusterView.elections_moves (h : ClusterView c a s) (hm : Moves c p a a') :
    ∀ call ∈ s.elections, ElectionView c a' call := fun call hcall =>
  (h.elections call hcall).mono (hm.extends h.reach.inv)

theorem ClusterView.broadcasts_moves (h : ClusterView c a s) (hm : Moves c p a a') :
    ∀ b ∈ s.broadcasts, BroadcastView c a' b := fun b hb =>
  (h.broadcasts b hb).mono (hm.extends h.reach.inv)

theorem ClusterView.lock (h : ClusterView c a s) (hp : p ∈ c.addrs) :
    Simulates c a p (s.hosts p).disk (s.hosts p).node.lastApplied (s.hosts p).node.lock a :=
  .lock (h.nodes p hp) (h.disks p hp)

/-- A request has been answered. -/
theorem BroadcastView.answer {b : Broadcast} (h : BroadcastView c a b) {out : OutgoingAppendEntries}
    (hout : out ∈ b.reqs) {reply : Except RaftError AppendEntriesReply}
    (hack : ∀ r, reply = .ok r → r.success = true →
      (out.peer, out.req.term, out.req.prevLogIndex + out.req.entries.length) ∈ a.acks) :
    BroadcastView c a { b with calls := Function.update b.calls out.peer (replyPhase reply) } where
  member := h.member
  sent := h.sent
  unique := h.unique
  acked out' hout' r hans hs := by
    by_cases heq : out'.peer = out.peer
    · obtain rfl := h.unique out' hout' out hout heq
      obtain ⟨-, hT, hprev, hnum, -⟩ := h.sent out' hout'
      simp only [Function.update_self] at hans
      cases reply with
      | error err => exact absurd hans (by simp [replyPhase])
      | ok r' =>
          simp only [replyPhase, CallPhase.answered.injEq] at hans
          rw [hprev, hnum]
          subst hans
          have := hack r' rfl hs
          rwa [hT] at this
    · simp only [ne_eq, heq, not_false_eq_true, Function.update_of_ne] at hans
      exact h.acked out' hout' r hans hs

/-- A reply has been taken up. -/
theorem BroadcastView.take {b : Broadcast} (h : BroadcastView c a b) (peer : String) :
    BroadcastView c a { b with calls := Function.update b.calls peer .finished } where
  member := h.member
  sent := h.sent
  unique := h.unique
  acked out hout r hans hs := by
    by_cases heq : out.peer = peer
    · subst heq
      simp at hans
    · simp only [ne_eq, heq, not_false_eq_true, Function.update_of_ne] at hans
      exact h.acked out hout r hans hs

theorem mem_set_of {α : Type} {P : α → Prop} {l : List α} {k : Nat} {x : α} (h : ∀ y ∈ l, P y)
    (hx : P x) : ∀ y ∈ l.set k x, P y := by
  intro y hy
  rcases List.mem_or_eq_of_mem_set hy with hy | rfl
  · exact h y hy
  · exact hx

/-- A critical section nobody else can notice. -/
theorem ClusterView.section_of_idle (h : ClusterView c a s) {r : Locked}
    (hr : Idle (s.hosts p).node r) (hs' : SameProtocol s s') :
    SectionStep c a s op ⟨p, r, s'⟩ (s.hosts p).node.lastApplied a := by
  have hev : ∀ e ∈ r.events, EventView a p e := by
    cases hr with
    | returned i out =>
        intro e he
        obtain rfl := List.mem_singleton.1 he
        trivial
    | _ => exact fun e he => absurd he (by simp [Node.lock, Locked.modify])
  have hmember : p ∈ c.addrs →
      SectionView c a p (s.hosts p).disk (s.hosts p).node.lastApplied r a := by
    intro hp
    have hlock := h.lock hp
    cases hr with
    | look => exact hlock.toSection h.reach
    | returned i out =>
        refine hlock.finish h.reach .refl rfl rfl rfl rfl rfl hev (fun _ _ hi => Or.inl hi)
          (h.nodes p hp) (le_refl _) ?_
        rw [List.drop_eq_nil_of_le (by rw [List.length_take]; exact min_le_left _ _)]
        rfl
    | waiters w =>
        refine Simulates.toSection ?_ h.reach
        exact hlock.idle h.reach rfl rfl ⟨rfl, rfl, rfl, rfl, rfl, rfl, rfl⟩ rfl rfl rfl rfl
    | leader l =>
        refine Simulates.toSection ?_ h.reach
        exact hlock.idle h.reach rfl rfl ⟨rfl, rfl, rfl, rfl, rfl, rfl, rfl⟩ rfl rfl rfl rfl
  refine ⟨.refl, hmember, fun _ => ⟨rfl, hev⟩, by rw [hs'.elections]; exact h.elections,
    by rw [hs'.broadcasts]; exact h.broadcasts, fun hp => ?_, fun _ => le_refl _, fun _ => rfl⟩
  rw [hs'.hosts]
  exact (h.polls p hp).covered h.reach .refl (hmember hp).files

/-- **One critical section** is matched by steps of the abstract protocol. -/
theorem ClusterView.effect (h : ClusterView c a s) (he : Effect c s op o) (hf : op.NoFaults)
    (hok : op.SafeSnapshots s) : ∃ lo a', SectionStep c a s op o lo a' := by
  have hr := h.reach
  cases he with
  | startElection p fails hp =>
      obtain rfl : fails = false := hf
      obtain ⟨a', h', -, hel⟩ := (h.lock hp).startElection hr hp (s.hosts p).epoch
      refine ⟨_, a', h.section_of_view hp (h'.toSection hr) ?_ (h.broadcasts_moves h'.moves) rfl⟩
      intro call hcall
      rcases List.mem_append.1 hcall with hold | hnew
      · exact h.elections_moves h'.moves call hold
      · rw [Option.mem_toList, Option.map_eq_some_iff] at hnew
        obtain ⟨e, he, rfl⟩ := hnew
        exact hel e he
  | soloElection k call hk hepoch hq =>
      obtain ⟨hcounts, -⟩ := h.elections call (List.mem_of_getElem? hk)
      have hlock := h.lock hcounts.member
      have hview : ∃ a', SectionView c a call.candidate (s.hosts call.candidate).disk
          (s.hosts call.candidate).node.lastApplied
          ((s.hosts call.candidate).node.lock.soloElection call.election) a' := by
        unfold Locked.soloElection
        split
        · rename_i hcur
          obtain ⟨a', h', -⟩ := hlock.becomeLeaderLocked hr hcur.1
            (by rw [hcur.2]; exact hcounts.won (hq.trans hcounts.pos)) hcounts.member
          exact ⟨a', h'⟩
        · exact ⟨a, hlock.toSection hr⟩
      obtain ⟨a', h'⟩ := hview
      exact ⟨_, a', h.section_of_view hcounts.member h' (h.elections_moves h'.moves)
        (h.broadcasts_moves h'.moves) rfl⟩
  | requestVote k call peer f hk hp hsent =>
      obtain rfl : f = noFaults := hf
      have hcall := h.elections call (List.mem_of_getElem? hk)
      obtain ⟨a', h', hgrant⟩ := (h.lock hp).requestVote hr hcall
      refine ⟨_, a', h.section_of_view hp (h'.toSection hr)
        (mem_set_of (h.elections_moves h'.moves) ?_) (h.broadcasts_moves h'.moves) rfl⟩
      obtain ⟨hcounts, F, hF⟩ := hcall.mono (h'.moves.extends hr.inv)
      exact ⟨hcounts.answer hp hsent hgrant, F, hF⟩
  | requestVoteReply k call peer fails reply hk hepoch hans =>
      obtain rfl : fails = false := hf
      have hcall := h.elections call (List.mem_of_getElem? hk)
      obtain ⟨a', h'⟩ := (h.lock hcall.1.member).handleRequestVoteReply hr hcall.1.member
        call.election reply fun hg hq => (hcall.1.count hans (Or.inr ⟨hg, rfl⟩)).won hq
      refine ⟨_, a', h.section_of_view hcall.1.member h'
        (mem_set_of (h.elections_moves h'.moves) ?_) (h.broadcasts_moves h'.moves) rfl⟩
      obtain ⟨hcounts, F, hF⟩ := hcall.mono (h'.moves.extends hr.inv)
      exact ⟨hcounts.count hans (Locked.votes_handleRequestVoteReply ..), F, hF⟩
  | broadcast op p read s' hp hrole hs' =>
      refine ⟨_, a, h.section_of_view hp ((h.lock hp).toSection hr)
        (by dsimp only; rw [hs'.elections]; exact h.elections) ?_ (by dsimp only; rw [hs'.hosts]; rfl)⟩
      dsimp only
      rw [hs'.broadcasts]
      intro b hb
      rcases List.mem_append.1 hb with hb | hb
      · exact h.broadcasts b hb
      · rw [List.mem_singleton] at hb
        subst hb
        exact (h.nodes p hp).broadcastView hr hp hrole _ read
  | appendEntries k b out peer f hk hout hpeer hp hsent =>
      obtain rfl : f = noFaults := hf
      have hb := h.broadcasts b (List.mem_of_getElem? hk)
      subst hpeer
      obtain ⟨a', h', hack⟩ := (h.lock hp).appendEntries hr (hb.sent out hout).1
      exact ⟨_, a', h.section_of_view hp h' (h.elections_moves h'.moves)
        (mem_set_of (h.broadcasts_moves h'.moves)
          ((hb.mono (h'.moves.extends hr.inv)).answer hout hack)) rfl⟩
  | appendEntriesReply k b out peer fails reply s' hk hout hfind hpeer hepoch hans hs' =>
      obtain rfl : fails = false := hf
      have hb := h.broadcasts b (List.mem_of_getElem? hk)
      subst hpeer
      obtain ⟨a', h'⟩ := (h.lock hb.member).handleAppendEntriesReply hr hb.member
        (hb.sent out hout).2.2.2.2 (hb.acked out hout reply hans)
      refine ⟨_, a', h.section_of_view hb.member h'
        (by dsimp only; rw [hs'.elections]; exact h.elections_moves h'.moves) ?_
        (by dsimp only; rw [hs'.hosts]; rfl)⟩
      dsimp only
      rw [hs'.broadcasts]
      exact mem_set_of (h.broadcasts_moves h'.moves)
        ((hb.mono (h'.moves.extends hr.inv)).take out.peer)
  | propose p command hp =>
      obtain ⟨a', h'⟩ := (h.lock hp).propose hr command
      exact ⟨_, a', h.section_of_view hp (h'.toSection hr) (h.elections_moves h'.moves)
        (h.broadcasts_moves h'.moves) rfl⟩
  | proposeSync p command hp s' hs' =>
      obtain ⟨a', h'⟩ := (h.lock hp).proposeSync hr command s.proposals.length
      exact ⟨_, a', h.section_of_view hp (h'.toSection hr)
        (by dsimp only; rw [hs'.elections]; exact h.elections_moves h'.moves)
        (by dsimp only; rw [hs'.broadcasts]; exact h.broadcasts_moves h'.moves)
        (by dsimp only; rw [hs'.hosts])⟩
  | idle op p r s' hidle hs' => exact ⟨_, a, h.section_of_idle hidle hs'⟩
  | confirmCompaction p req hp =>
      have h' := (h.lock hp).confirmCompaction hr fun file hfile =>
        h.committedFile (hok file (by rw [hfile]; rfl))
      exact ⟨_, a, h.section_of_view hp (h'.toSection hr) h.elections h.broadcasts rfl⟩
  | pollWait op p ph hp hop hfrom hph hpos hph' =>
      refine ⟨_, a, h.section_of_poll hp ((h.lock hp).toSection hr) ⟨rfl, rfl⟩ ?_⟩
      rw [Cluster.poll_setPoll]
      cases ph with
      | fetched file => exact h.catalog file (hph file (Or.inl rfl)) (hpos file rfl)
      | compactFetched file => exact h.catalog file (hph file (Or.inr rfl))
      | written file => exact absurd rfl (hph' file).1
      | rewritten file => exact absurd rfl (hph' file).2.1
      | restored file => exact absurd rfl (hph' file).2.2
      | _ => trivial
  | pollWriteFile p file hp hpoll =>
      obtain ⟨h2, hcov, hfresh⟩ := hok file (by rw [hpoll]; rfl)
      have hcom : CommittedFile a file := by
        have := h.polls p hp
        rw [hpoll] at this
        exact this
      have hfile := h.fileView hp hcom h2 hcov hfresh
      refine ⟨_, a, h.section_of_poll hp (((h.lock hp).writeFile hr hfile).toSection hr)
        ⟨rfl, rfl⟩ ?_⟩
      rw [Cluster.poll_setPoll]
      exact ⟨hfile, file, mem_writeFile _ file, le_refl _⟩
  | pollRewriteLog p file hp hpoll =>
      have hph := h.polls p hp
      rw [hpoll] at hph
      obtain ⟨hfile, g, hg, hle⟩ := hph
      have h' := (h.lock hp).rewriteLog hg hle (hok file (by rw [hpoll]; rfl))
      refine ⟨_, a, h.section_of_poll hp (h'.toSection hr) ⟨rfl, rfl⟩ ?_⟩
      rw [Cluster.poll_setPoll]
      exact ⟨hfile, g, hg, hle⟩
  | pollRestore p file hp hpoll =>
      have hph := h.polls p hp
      rw [hpoll] at hph
      refine ⟨_, a, h.section_of_poll hp ((h.lock hp).toSection hr) ⟨rfl, rfl⟩ ?_⟩
      simp only [Cluster.setHost, Function.update_self]
      exact hph
  | pollAdopt p file hp hpoll =>
      have hph := h.polls p hp
      rw [hpoll] at hph
      obtain ⟨hfile, g, hg, hle⟩ := hph
      obtain ⟨a', h'⟩ := Simulates.adoptSnapshot (h.nodes p hp) (h.disks p hp) hr hfile hg hle
        (hok file (by rw [hpoll]; rfl))
      refine ⟨_, a', ⟨h'.moves, fun _ => h'.toSection hr, fun hn => absurd hp hn,
        h.elections_moves h'.moves, h.broadcasts_moves h'.moves, fun _ => ?_, fun _ => ?_,
        fun hne => absurd rfl (hne p)⟩⟩
      · rw [Cluster.poll_setPoll]
        trivial
      · have hcov : Covers s p file := hok file (by rw [hpoll]; rfl)
        have hknown := (h.nodes p hp).known.1
        unfold Covers at hcov
        rw [Node.lastLogIndexLocked_eq (h.nodes p hp).log] at hcov
        rw [(h.nodes p hp).applied]
        exact hknown.trans hcov
  | pollCompact p file hp hpoll =>
      have hcom : 0 < file.lastIncludedIndex → CommittedFile a file := by
        have := h.polls p hp
        rw [hpoll] at this
        exact this
      refine ⟨_, a, h.section_of_poll hp (((h.lock hp).pollCompact hr hcom).toSection hr)
        ⟨rfl, rfl⟩ ?_⟩
      rw [Cluster.poll_setPoll]
      trivial

/-- A critical section leaves catalog and history to its end. -/
theorem Effect.same_rest (h : Effect c s op o) :
    o.around.catalog = s.catalog ∧ o.around.history = s.history := by
  cases h with
  | broadcast op p read s' hp hrole hs' => exact ⟨hs'.catalog, hs'.history⟩
  | appendEntriesReply k b out peer fails reply s' hk hout hfind hpeer hepoch hans hs' =>
      exact ⟨hs'.catalog, hs'.history⟩
  | proposeSync p command hp s' hs' => exact ⟨hs'.catalog, hs'.history⟩
  | idle op p r s' hr hs' => exact ⟨hs'.catalog, hs'.history⟩
  | _ => exact ⟨rfl, rfl⟩

/-- The history only grows. -/
theorem step_history {act : Action} (hs : step c s act = some s') : s.history <+: s'.history := by
  cases stepView hs with
  | run op o ho =>
      rw [Cluster.history_finish, (exec_effect ho).same_rest.2]
      exact List.prefix_append _ _
  | crash q _ => exact List.prefix_refl _
  | crashDuring op o k ho => exact List.prefix_refl _
  | publish file => exact List.prefix_refl _

/-! ## One step -/

/-- A finished critical section. -/
theorem ClusterView.finish (h : ClusterView c a s) (he : Effect c s op o) {lo : Nat}
    (hs : SectionStep c a s op o lo a') : ClusterView c a' (o.around.finish c o.host o.result) := by
  have hx := hs.moves.extends h.reach.inv
  obtain ⟨hcat, hhist⟩ := he.same_rest
  have hmem : ∀ ev, ev ∈ (o.around.finish c o.host o.result).history ↔
      ev ∈ s.history ∨ ∃ e ∈ o.result.events, ⟨o.host, (s.hosts o.host).epoch, e⟩ = ev := by
    intro ev
    rw [Cluster.history_finish, List.mem_append, List.mem_map, hhist, (he.same o.host).2.2.1]
  have hevents : ∀ e ∈ o.result.events, EventView a' o.host e := by
    by_cases hp : o.host ∈ c.addrs
    · exact (hs.member hp).events
    · exact (hs.stranger hp).2
  refine ⟨h.reach.steps hs.moves, ?_, ?_, ?_, hs.elections, hs.broadcasts, ?_, ?_, ?_⟩
  · intro q hq
    by_cases hqp : q = o.host
    · subst hqp
      rw [Cluster.node_finish]
      exact (hs.member hq).node
    · rw [he.hosts_finish_other hqp]
      exact (h.nodes q hq).others h.reach hs.moves hqp
  · intro q hq
    by_cases hqp : q = o.host
    · subst hqp
      rw [he.disk_finish]
      exact (hs.member hq).disk
    · rw [he.hosts_finish_other hqp]
      exact (h.disks q hq).others h.reach hs.moves hqp
  · intro q hq
    by_cases hqp : q = o.host
    · subst hqp
      rw [he.disk_finish, Cluster.hosts_finish]
      exact hs.poll hq
    · rw [he.hosts_finish_other hqp]
      exact (h.polls q hq).moves h.reach hs.moves
  · intro f hf hpos
    exact (h.catalog f (hcat ▸ hf) hpos).mono hx
  · intro ev hev
    rcases (hmem ev).1 hev with hev | ⟨e, he, rfl⟩
    · exact (h.history ev hev).mono hx
    · exact hevents e he
  · intro i e hi
    have hcase : CommittedAt a i e ∨ ∃ n, .advancedCommit n ∈ o.result.events ∧ Shows n i e := by
      by_cases hp : o.host ∈ c.addrs
      · exact (hs.member hp).commits i e hi
      · rw [(hs.stranger hp).1] at hi
        exact Or.inl hi
    rcases hcase with hi | ⟨n, hn, hshow⟩
    · obtain ⟨ev, hev, n, hn, hshow⟩ := h.commits i e hi
      exact ⟨ev, (hmem ev).2 (Or.inl hev), n, hn, hshow⟩
    · exact ⟨_, (hmem _).2 (Or.inr ⟨_, hn, rfl⟩), n, rfl, hshow⟩

/-- A restart on a data directory that stands for some state. -/
theorem ClusterView.restart (h : ClusterView c a s) (ws : List DiskWrite)
    (hd : p ∈ c.addrs → ∃ a', Moves c p a a' ∧ a'.commits = a.commits ∧
      DiskView c a' p ((s.hosts p).disk.applyAll ws)) :
    ∃ a', Moves c p a a' ∧ ClusterView c a' (s.restart c p ws) := by
  have hother : ∀ q, q ≠ p → (s.restart c p ws).hosts q = s.hosts q := fun q hq =>
    Cluster.hosts_restart_of_ne s c p ws hq
  have hown := Cluster.hosts_restart s c p ws
  by_cases hp : p ∈ c.addrs
  · obtain ⟨a₁, hm₁, hc₁, hd₁⟩ := hd hp
    obtain ⟨a₂, hm₂, hc₂, hn₂, hd₂⟩ := hd₁.boot (h.reach.steps hm₁)
    have hm : Moves c p a a₂ := hm₁.trans hm₂
    have hx := hm.extends h.reach.inv
    refine ⟨a₂, hm, h.reach.steps hm, ?_, ?_, ?_, h.elections_moves hm, h.broadcasts_moves hm,
      fun f hf hpos => (h.catalog f hf hpos).mono hx, fun ev hev => (h.history ev hev).mono hx,
      fun i e hi => h.commits i e (hi.of_commits h.reach.inv hx (hc₂.trans hc₁))⟩
    · intro q hq
      by_cases hqp : q = p
      · subst hqp
        rw [hown]
        exact hn₂
      · rw [hother q hqp]
        exact (h.nodes q hq).others h.reach hm hqp
    · intro q hq
      by_cases hqp : q = p
      · subst hqp
        rw [hown]
        exact hd₂
      · rw [hother q hqp]
        exact (h.disks q hq).others h.reach hm hqp
    · intro q hq
      by_cases hqp : q = p
      · subst hqp
        rw [hown]
        trivial
      · rw [hother q hqp]
        exact (h.polls q hq).moves h.reach hm
  · have hmem : ∀ q ∈ c.addrs, (s.restart c p ws).hosts q = s.hosts q := fun q hq =>
      hother q fun hqp => hp (hqp ▸ hq)
    exact ⟨a, .refl, h.reach, fun q hq => by rw [hmem q hq]; exact h.nodes q hq,
      fun q hq => by rw [hmem q hq]; exact h.disks q hq,
      fun q hq => by rw [hmem q hq]; exact h.polls q hq, h.elections, h.broadcasts, h.catalog,
      h.history, h.commits⟩

/-- **One step** is matched by steps of the abstract protocol. -/
theorem ClusterView.step (h : ClusterView c a s) {act : Action} (hok : Safe s act)
    (hs : step c s act = some s') : ∃ p a', Moves c p a a' ∧ ClusterView c a' s' := by
  cases stepView hs with
  | run op o ho =>
      have heff := exec_effect ho
      obtain ⟨lo, a', hsec⟩ := h.effect heff hok.1 hok.2
      exact ⟨o.host, a', hsec.moves, h.finish heff hsec⟩
  | crash p _ =>
      obtain ⟨a', hm, h'⟩ := h.restart [] fun hp => ⟨a, .refl, rfl, h.disks p hp⟩
      exact ⟨p, a', hm, h'⟩
  | crashDuring op o k ho =>
      obtain ⟨lo, a₁, hsec⟩ := h.effect (exec_effect ho) hok.1 hok.2
      obtain ⟨a', hm, h'⟩ := h.restart _ fun hp => (hsec.member hp).crash k
      exact ⟨o.host, a', hm, h'⟩
  | publish file =>
      refine ⟨"", a, .refl, h.reach, h.nodes, h.disks, h.polls, h.elections, h.broadcasts, ?_,
        h.history, h.commits⟩
      intro f hf hpos
      obtain rfl := Option.some.inj hf
      exact h.committedFile (hok.2 hpos)

end

/-- While a node runs, what it has applied only grows. -/
theorem ClusterView.progress {c : Config} {a : Model} {s s' : Cluster} (h : ClusterView c a s)
    {act : Action} (hok : Safe s act) (hs : B5KvStore.step c s act = some s') {p : String}
    (hp : p ∈ c.addrs) (hepoch : (s'.hosts p).epoch = (s.hosts p).epoch) :
    (s.hosts p).node.lastApplied ≤ (s'.hosts p).node.lastApplied := by
  cases hostStep hs p with
  | other hnode hdisk hep hpoll => rw [hnode]
  | own op o ha heff hop hnode hdisk hep hpoll =>
      subst ha hop
      obtain ⟨lo, a', hsec⟩ := h.effect heff hok.1 hok.2
      rw [hnode]
      exact (hsec.le hp).trans (hsec.member hp).le
  | restart ws hh =>
      rw [hh] at hepoch
      exact absurd hepoch (Nat.succ_ne_self _)

/-- The cluster starts as the abstract protocol does. -/
theorem ClusterView.init (c : Config) : ClusterView c .init c.init where
  reach := .init
  nodes p _ := ⟨rfl, rfl, rfl, rfl, rfl, .full _, rfl, Or.inl rfl, .zero, rfl,
    fun hl => absurd hl (by simp [Config.init, Config.boot, Config.newNode, newNode])⟩
  disks p _ := ⟨rfl, rfl, by simp [Config.init, Config.boot, Disk.empty], Or.inl ⟨rfl, rfl⟩⟩
  polls _ _ := trivial
  elections := by simp [Config.init]
  broadcasts := by simp [Config.init]
  catalog := by simp [Config.init]
  history := by simp [Config.init]
  commits i e h := by
    obtain ⟨T, N, l, L, hc, -⟩ := h
    exact absurd hc (by simp)

/-- **Runs** of the cluster are runs of the abstract protocol. -/
theorem ClusterView.run {c : Config} {s : Cluster} {as : List Action}
    (hok : Runs.Along (B5KvStore.step c) Safe c.init as)
    (hrun : B5KvStore.run c c.init as = some s) : ∃ a, ClusterView c a s := by
  refine Runs.invariant (I := fun s => ∃ a, ClusterView c a s) ?_ ⟨_, ClusterView.init c⟩ hok
    (run_eq_exec c c.init as ▸ hrun)
  rintro s act s' ⟨a, h⟩ hok hs
  obtain ⟨p, a', -, h'⟩ := h.step hok hs
  exact ⟨a', h'⟩

end B5KvStore
