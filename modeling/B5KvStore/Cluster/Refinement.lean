import B5KvStore.Lib.ReplicatedLog.Commitment
import B5KvStore.Raft.Recovery
import B5KvStore.Cluster.ElectionSafety

/-!
# The cluster as a replicated log

How a state of the cluster stands for a state of the abstract replicated log
(`ReplicatedLog.State`), whose participants are the addresses and whose logs are
the full logs, without compaction.  What a node has in memory (`NodeView`), what
it has on disk (`DiskView`), and every request, reply and event is backed by the
history of the abstract state, and stays so while that history grows.

* `NodeView`, `DiskView`, `PollView` — one process.
* `RequestView`, `BroadcastView`, `ElectionView`, `EventView` — the rest.
* `ClusterView` — all of it.
* `DiskView.boot` — a process restarted from a data directory.
-/

namespace B5KvStore

open ReplicatedLog (Known Backed CommittedBy CommittedAt Extends lastTerm)
open QuorumSystem

/-- The abstract state a cluster stands for. -/
abbrev Model := ReplicatedLog.State String LogEntry

/-- Entries carry their position as index. -/
def indexFits (i : Nat) (e : LogEntry) : Prop := e.index = i + 1

/-- The quorums of a cluster are the majorities of its members. -/
def Config.quorums (c : Config) : Quorums String := majority c.addrs.toFinset

/-- What member `p` can make of an abstract state. -/
abbrev Moves (c : Config) (p : String) : Model → Model → Prop :=
  ReplicatedLog.Steps LogEntry.term indexFits c.quorums p

/-- The reachable abstract states. -/
abbrev Config.Reaches (c : Config) : Model → Prop :=
  ReplicatedLog.Reachable LogEntry.term indexFits c.quorums

theorem placed_of_sound {c : Config} {a : Model} (h : c.Reaches a) {F : List LogEntry}
    (hF : ReplicatedLog.Sound LogEntry.term a F) : Placed F := fun _ _ he => h.ledFits.of_sound hF he

theorem placed_log {c : Config} {a : Model} (h : c.Reaches a) (p : String) : Placed (a.log p) :=
  placed_of_sound h (h.inv.logs.sound_log p)

/-- Entries are from terms that had a leader. -/
theorem term_pos_of_sound {c : Config} {a : Model} (h : c.Reaches a) {F : List LogEntry} {i : Nat}
    {e : LogEntry} (hF : ReplicatedLog.Sound LogEntry.term a F) (he : F[i]? = some e) :
    0 < e.term := by
  obtain ⟨l, L, hled, -⟩ := hF i e he
  exact (h.inv.elections.led_won _ _ _ hled).2.1

/-! ## One process -/

/-- The role of a node. -/
def Role.view : Role → ReplicatedLog.Role
  | .follower => .follower
  | .candidate => .candidate
  | .leader => .leader

/-- An empty `votedFor` is no vote, anything else the id of a member. -/
def VoteView (c : Config) : Option String → String → Prop
  | none, votedFor => votedFor = ""
  | some q, votedFor => q ∈ c.addrs ∧ votedFor = c.idOf q

/-- What a node has in memory. -/
structure NodeView (c : Config) (a : Model) (p : String) (n : Node) : Prop where
  id : n.id = c.idOf p
  peers : n.peers = c.peersOf p
  term : a.term p = n.currentTerm
  vote : VoteView c (a.vote p) n.votedFor
  role : a.role p = n.role.view
  log : LogView (a.log p) n.logOffset n.log
  path : n.currentSnapshotPath = if n.logOffset = 0 then none else some (n.logOffset + 1)
  /-- The anchor stands for committed entries. -/
  anchor : n.logOffset = 0 ∨ n.logOffset + 1 ≤ n.commitIndex
  known : Known a p n.commitIndex
  applied : n.lastApplied = n.commitIndex
  /-- What the leader believes its followers hold, they have acknowledged. -/
  matched : n.role = .leader → ∀ q m, n.matchIndex.lookup q = some m →
    q ∈ c.peersOf p ∧ (m = 0 ∨ (q, n.currentTerm, m) ∈ a.acks)

/-- A snapshot file of committed entries that `p` can start from. -/
def FileView (a : Model) (p : String) (f : File) : Prop :=
  2 ≤ f.lastIncludedIndex ∧
    ∃ e, Backed a p f.lastIncludedIndex e ∧ e.term = f.lastIncludedTerm

/-- A snapshot of committed entries. -/
def CommittedFile (a : Model) (f : File) : Prop :=
  ∃ e, CommittedAt a f.lastIncludedIndex e ∧ e.term = f.lastIncludedTerm

/-- What a process has on disk. -/
structure DiskView (c : Config) (a : Model) (p : String) (d : Disk) : Prop where
  term : d.loadState.1 = a.term p
  vote : VoteView c (a.vote p) d.loadState.2
  files : ∀ f ∈ d.snapshots, FileView a p f
  log : d.latest = none ∧ d.log = a.log p ∨
    ∃ f, d.latest = some f ∧
      d.log.filter (fun e => f.lastIncludedIndex < e.index) = (a.log p).drop f.lastIncludedIndex

/-- What the poll loop is holding on to. -/
def PollView (a : Model) (p : String) (d : Disk) : PollPhase → Prop
  | .fetched f => CommittedFile a f
  | .compactFetched f => 0 < f.lastIncludedIndex → CommittedFile a f
  | .written f => FileView a p f ∧ ∃ g ∈ d.snapshots, f.lastIncludedIndex ≤ g.lastIncludedIndex
  | .rewritten f => FileView a p f ∧ ∃ g ∈ d.snapshots, f.lastIncludedIndex ≤ g.lastIncludedIndex
  | .restored f => FileView a p f ∧ ∃ g ∈ d.snapshots, f.lastIncludedIndex ≤ g.lastIncludedIndex
  | _ => True

/-! ## Calls and events -/

/-- The saved votes, by the id voted for. -/
def ballots (c : Config) (a : Model) : Votes :=
  {x | ∃ b ∈ a.votes, b.voter = x.1 ∧ b.term = x.2.1 ∧ b.cand ∈ c.addrs ∧ c.idOf b.cand = x.2.2}

/-- An election: its votes are ballots, and its request describes the log the
candidate put forward. -/
def ElectionView (c : Config) (a : Model) (call : ElectionCall) : Prop :=
  ElectionCounts c (ballots c a) call ∧
    ∃ F, a.cand call.candidate call.election.req.term = some F ∧
      call.election.req.lastLogIndex = F.length ∧
      call.election.req.lastLogTerm = lastTerm LogEntry.term F

/-- A request was cut out of the log of its term's leader. -/
def RequestView (a : Model) (req : AppendEntriesRequest) : Prop :=
  ∃ l L m, a.led req.term = some (l, L) ∧ m ≤ L.length ∧ SentFrom (L.take m) req ∧
    req.leaderCommit ≤ m ∧ CommittedBy a req.term req.leaderCommit

/-- A round of requests; replies that report success are backed by an
acknowledgement. -/
structure BroadcastView (c : Config) (a : Model) (b : Broadcast) : Prop where
  member : b.leader ∈ c.addrs
  sent : ∀ out ∈ b.reqs, RequestView a out.req ∧ out.req.term = b.term ∧
    out.prevIndex = out.req.prevLogIndex ∧ out.numEntries = out.req.entries.length ∧
    out.peer ∈ c.peersOf b.leader
  unique : ∀ out ∈ b.reqs, ∀ out' ∈ b.reqs, out.peer = out'.peer → out = out'
  acked : ∀ out ∈ b.reqs, ∀ reply, b.calls out.peer = .answered reply → reply.success = true →
    (out.peer, b.term, out.prevIndex + out.numEntries) ∈ a.acks

/-- A leader that moves its commit index shows the entry. -/
def Shows (n : Node) (i : Nat) (e : LogEntry) : Prop :=
  i ≤ n.commitIndex ∧ n.anchorIndex < i ∧ n.entryAtLocked i = some e

/-- The entry at an index has been committed: some leader moved its commit index to it
or beyond, with the entry in its log. -/
def CommittedEntry (s : Cluster) (i : Nat) (e : LogEntry) : Prop :=
  ∃ ev ∈ s.history, ∃ n, ev.what = .advancedCommit n ∧ Shows n i e

instance (n : Node) (i : Nat) (e : LogEntry) : Decidable (Shows n i e) :=
  inferInstanceAs (Decidable (_ ∧ _ ∧ _))

/-- The leader that has moved its commit index. -/
def NodeEvent.advanced? : NodeEvent → Option Node
  | .advancedCommit n => some n
  | _ => none

theorem NodeEvent.advanced?_eq_some {e : NodeEvent} {n : Node} :
    n ∈ e.advanced? ↔ e = .advancedCommit n := by
  cases e <;> simp [NodeEvent.advanced?, eq_comm]

/-- A commit with a property can be looked for. -/
instance decidableAdvanced (s : Cluster) (P : Node → Prop) [DecidablePred P] :
    Decidable (∃ ev ∈ s.history, ∃ n, ev.what = .advancedCommit n ∧ P n) :=
  decidable_of_iff (∃ ev ∈ s.history, ∃ n ∈ ev.what.advanced?, P n) (by
    simp only [NodeEvent.advanced?_eq_some])

instance (s : Cluster) (i : Nat) (e : LogEntry) : Decidable (CommittedEntry s i e) :=
  decidableAdvanced s fun n => Shows n i e

/-- An event is backed by the history. -/
def EventView (a : Model) (p : String) : NodeEvent → Prop
  | .becameLeader n => ∃ L m, a.led n.currentTerm = some (p, L) ∧ m ≤ L.length ∧
      LogView (L.take m) n.logOffset n.log
  | .advancedCommit n => (n.currentTerm, n.commitIndex) ∈ a.commits ∧
      ∃ L m, a.led n.currentTerm = some (p, L) ∧ n.commitIndex ≤ m ∧ m ≤ L.length ∧
        LogView (L.take m) n.logOffset n.log
  | .applied msg => CommittedAt a msg.index ⟨msg.term, msg.index, msg.command⟩
  | _ => True

/-- **A state of the cluster stands for an abstract state.** -/
structure ClusterView (c : Config) (a : Model) (s : Cluster) : Prop where
  reach : c.Reaches a
  nodes : ∀ p ∈ c.addrs, NodeView c a p (s.hosts p).node
  disks : ∀ p ∈ c.addrs, DiskView c a p (s.hosts p).disk
  polls : ∀ p ∈ c.addrs, PollView a p (s.hosts p).disk (s.hosts p).poll
  elections : ∀ call ∈ s.elections, ElectionView c a call
  broadcasts : ∀ b ∈ s.broadcasts, BroadcastView c a b
  catalog : ∀ f, s.catalog = some f → 0 < f.lastIncludedIndex → CommittedFile a f
  history : ∀ ev ∈ s.history, EventView a ev.host ev.what
  commits : ∀ i e, CommittedAt a i e → CommittedEntry s i e

/-! ## The history grows -/

section

variable {c : Config} {a a' : Model} {p q : String}

theorem CommittedFile.mono {f : File} (h : CommittedFile a f) (hx : Extends a a') :
    CommittedFile a' f := by
  obtain ⟨e, he, ht⟩ := h
  exact ⟨e, he.mono hx, ht⟩

theorem RequestView.mono {req : AppendEntriesRequest} (h : RequestView a req)
    (hx : Extends a a') : RequestView a' req := by
  obtain ⟨l, L, m, hled, hm, hsent, hcm, hcom⟩ := h
  obtain ⟨L', hled', hm', htake⟩ := hx.led_take hled hm
  exact ⟨l, L', m, hled', hm', by rw [htake]; exact hsent, hcm, hcom.mono hx (le_refl _)⟩

theorem BroadcastView.mono {b : Broadcast} (h : BroadcastView c a b) (hx : Extends a a') :
    BroadcastView c a' b where
  member := h.member
  sent out hout := by
    obtain ⟨hreq, hrest⟩ := h.sent out hout
    exact ⟨hreq.mono hx, hrest⟩
  unique := h.unique
  acked out hout reply hans hs := hx.acks (h.acked out hout reply hans hs)

theorem ballots_mono (hx : Extends a a') : ballots c a ⊆ ballots c a' := by
  rintro x ⟨b, hb, hrest⟩
  exact ⟨b, hx.votes hb, hrest⟩

theorem ElectionView.mono {call : ElectionCall} (h : ElectionView c a call) (hx : Extends a a') :
    ElectionView c a' call := by
  obtain ⟨hcounts, F, hF, hrest⟩ := h
  exact ⟨hcounts.mono (ballots_mono hx), F, hx.cand _ _ _ hF, hrest⟩

theorem EventView.mono {e : NodeEvent} (h : EventView a p e) (hx : Extends a a') :
    EventView a' p e := by
  cases e with
  | becameLeader n =>
      obtain ⟨L, m, hled, hm, hlog⟩ := h
      obtain ⟨L', hled', hm', htake⟩ := hx.led_take hled hm
      exact ⟨L', m, hled', hm', by rw [htake]; exact hlog⟩
  | advancedCommit n =>
      obtain ⟨hcom, L, m, hled, hcm, hm, hlog⟩ := h
      obtain ⟨L', hled', hm', htake⟩ := hx.led_take hled hm
      exact ⟨hx.commits hcom, L', m, hled', hcm, hm', by rw [htake]; exact hlog⟩
  | applied msg =>
      exact CommittedAt.mono h hx
  | notified w out => trivial
  | returned i out => trivial

theorem FileView.moves {f : File} (h : FileView a q f) (hr : c.Reaches a)
    (hm : Moves c p a a') : FileView a' q f := by
  obtain ⟨h2, e, hb, ht⟩ := h
  exact ⟨h2, e, hb.steps hr.inv hm, ht⟩

theorem PollView.moves {d : Disk} {ph : PollPhase} (h : PollView a q d ph) (hr : c.Reaches a)
    (hm : Moves c p a a') : PollView a' q d ph := by
  have hx := hm.extends hr.inv
  cases ph with
  | fetched f => exact CommittedFile.mono h hx
  | compactFetched f => exact fun hpos => CommittedFile.mono (h hpos) hx
  | written f => exact ⟨h.1.moves hr hm, h.2⟩
  | rewritten f => exact ⟨h.1.moves hr hm, h.2⟩
  | restored f => exact ⟨h.1.moves hr hm, h.2⟩
  | _ => trivial

/-- Nothing another member does changes what a node's memory stands for. -/
theorem NodeView.others {n : Node} (h : NodeView c a q n) (hr : c.Reaches a)
    (hm : Moves c p a a') (hq : q ≠ p) : NodeView c a' q n := by
  have hs := hm.sameElsewhere
  have hx := hm.extends hr.inv
  exact ⟨h.id, h.peers, by rw [hs.term q hq]; exact h.term, by rw [hs.vote q hq]; exact h.vote,
    by rw [hs.role q hq]; exact h.role, by rw [hs.log q hq]; exact h.log, h.path, h.anchor,
    h.known.steps hr.inv hm, h.applied,
    fun hl u m hu => ⟨(h.matched hl u m hu).1, (h.matched hl u m hu).2.imp_right fun h' =>
      hx.acks h'⟩⟩

theorem DiskView.others {d : Disk} (h : DiskView c a q d) (hr : c.Reaches a)
    (hm : Moves c p a a') (hq : q ≠ p) : DiskView c a' q d := by
  have hs := hm.sameElsewhere
  exact ⟨by rw [hs.term q hq]; exact h.term, by rw [hs.vote q hq]; exact h.vote,
    fun f hf => (h.files f hf).moves hr hm, by rw [hs.log q hq]; exact h.log⟩

end

/-! ## The data directory -/

namespace DiskView

variable {c : Config} {a a' : Model} {p : String} {d d' : Disk}

/-- Above every snapshot, `log.dat` holds the rest of the log. -/
theorem filter_log (h : DiskView c a p d) (hr : c.Reaches a) {k : Nat}
    (hk : ∀ f, d.latest = some f → f.lastIncludedIndex ≤ k) :
    d.log.filter (fun e => k < e.index) = (a.log p).drop k := by
  have hplaced := placed_log hr p
  rcases h.log with ⟨-, hlog⟩ | ⟨f, hf, hlog⟩
  · rw [hlog]
    have := hplaced.filter_drop (Nat.zero_le k)
    rwa [List.drop_zero] at this
  · have hle := hk f hf
    rw [← hplaced.filter_drop hle, ← hlog, List.filter_filter]
    congr 1
    funext e
    rw [Bool.eq_iff_iff]
    simp only [decide_eq_true_eq, Bool.and_eq_true]
    omega

/-- A data directory with the same log and at least as recent snapshots. -/
theorem of_files (h : DiskView c a p d) (hr : c.Reaches a) (hstate : d'.state = d.state)
    (hlog : d'.log = d.log) (hfiles : ∀ f ∈ d'.snapshots, FileView a p f)
    (hnew : ∀ f ∈ d.snapshots, ∃ g ∈ d'.snapshots, f.lastIncludedIndex ≤ g.lastIncludedIndex) :
    DiskView c a p d' where
  term := by rw [loadState_congr hstate]; exact h.term
  vote := by rw [loadState_congr hstate]; exact h.vote
  files := hfiles
  log := by
    cases hl : d'.latest with
    | none =>
        have hempty : d.snapshots = [] := by
          rw [List.eq_nil_iff_forall_not_mem]
          intro f hf
          obtain ⟨g, hg, -⟩ := hnew f hf
          rw [latest_eq_none.1 hl] at hg
          exact absurd hg (by simp)
        have hnone := latest_eq_none.2 hempty
        rcases h.log with ⟨-, heq⟩ | ⟨f, hf, -⟩
        · exact Or.inl ⟨rfl, by rw [hlog]; exact heq⟩
        · rw [hnone] at hf
          exact absurd hf (by simp)
    | some g =>
        refine Or.inr ⟨g, rfl, ?_⟩
        rw [hlog]
        refine h.filter_log hr fun f hf => ?_
        obtain ⟨g', hg', hle⟩ := hnew f (latest_mem hf).1
        exact hle.trans ((latest_mem hl).2 g' hg')

/-- The same snapshots, seen from a later abstract state. -/
theorem files_moves (h : DiskView c a p d) (hr : c.Reaches a) (hm : Moves c p a a') :
    ∀ f ∈ d.snapshots, FileView a' p f := fun f hf => (h.files f hf).moves hr hm

theorem saveState (h : DiskView c a p d) (hr : c.Reaches a) (hm : Moves c p a a')
    (hlog : a'.log p = a.log p) {v : String} (hv : VoteView c (a'.vote p) v) :
    DiskView c a' p (d.apply (.saveState (a'.term p) v)) where
  term := rfl
  vote := hv
  files := h.files_moves hr hm
  log := by rw [hlog]; exact h.log

theorem appendRecord (h : DiskView c a p d) (hr : c.Reaches a) (hm : Moves c p a a')
    (hterm : a'.term p = a.term p) (hvote : a'.vote p = a.vote p) {e : LogEntry}
    (hlog : a'.log p = a.log p ++ [e]) (he : e.index = (a.log p).length + 1) :
    DiskView c a' p (d.apply (.appendRecord e)) where
  term := by rw [hterm]; exact h.term
  vote := by rw [hvote]; exact h.vote
  files := h.files_moves hr hm
  log := by
    rcases h.log with ⟨hnone, heq⟩ | ⟨f, hf, heq⟩
    · exact Or.inl ⟨hnone, by rw [hlog, ← heq]; rfl⟩
    · refine Or.inr ⟨f, hf, ?_⟩
      have hd : (d.apply (.appendRecord e)).log = d.log ++ [e] := rfl
      rw [hd, hlog, List.filter_append, heq, List.drop_append]
      congr 1
      by_cases hle : f.lastIncludedIndex ≤ (a.log p).length
      · rw [show f.lastIncludedIndex - (a.log p).length = 0 by omega]
        simp only [List.filter_cons, List.filter_nil, List.drop_zero]
        rw [if_pos (by simp; omega)]
      · obtain ⟨k, hk⟩ : ∃ k, f.lastIncludedIndex - (a.log p).length = k + 1 :=
          ⟨f.lastIncludedIndex - (a.log p).length - 1, by omega⟩
        rw [hk]
        simp only [List.filter_cons, List.filter_nil, List.drop_succ_cons, List.drop_nil]
        rw [if_neg (by simp; omega)]

theorem truncateLogFrom (h : DiskView c a p d) (hr : c.Reaches a) (hm : Moves c p a a')
    (hterm : a'.term p = a.term p) (hvote : a'.vote p = a.vote p) {k : Nat}
    (hlog : a'.log p = (a.log p).take k) :
    DiskView c a' p (d.apply (.truncateLogFrom (k + 1))) where
  term := by rw [hterm]; exact h.term
  vote := by rw [hvote]; exact h.vote
  files := h.files_moves hr hm
  log := by
    have hplaced := placed_log hr p
    have hd : (d.apply (.truncateLogFrom (k + 1))).log = d.log.filter (·.index < k + 1) := rfl
    rcases h.log with ⟨hnone, heq⟩ | ⟨f, hf, heq⟩
    · exact Or.inl ⟨hnone, by rw [hd, hlog, heq, hplaced.filter_lt]⟩
    · refine Or.inr ⟨f, hf, ?_⟩
      have hcomm : (d.log.filter (·.index < k + 1)).filter (fun e => f.lastIncludedIndex < e.index) =
          (d.log.filter (fun e => f.lastIncludedIndex < e.index)).filter (·.index < k + 1) := by
        rw [List.filter_filter, List.filter_filter]
        congr 1
        funext e
        exact Bool.and_comm _ _
      rw [hd, hlog, hcomm, heq]
      have hfull : (a.log p).take k = (a.log p).filter (·.index < k + 1) := hplaced.filter_lt.symm
      have hdrop := (hplaced.take k).filter_drop (Nat.zero_le f.lastIncludedIndex)
      have hdrop' := hplaced.filter_drop (Nat.zero_le f.lastIncludedIndex)
      rw [List.drop_zero] at hdrop hdrop'
      rw [← hdrop, ← hdrop', hfull, List.filter_filter, List.filter_filter]
      congr 1
      funext e
      exact Bool.and_comm _ _

/-- Rewriting `log.dat` under a snapshot. -/
theorem rewriteLog (h : DiskView c a p d) {es : List LogEntry} {f : File} (hf : d.latest = some f)
    (hes : es.filter (fun e => f.lastIncludedIndex < e.index) =
      (a.log p).drop f.lastIncludedIndex) : DiskView c a p (d.apply (.rewriteLog es)) where
  term := h.term
  vote := h.vote
  files := h.files
  log := Or.inr ⟨f, hf, hes⟩

theorem writeFile (h : DiskView c a p d) (hr : c.Reaches a) {f : File} (hf : FileView a p f) :
    DiskView c a p (d.apply (.writeFile f)) := by
  refine h.of_files hr rfl rfl ?_ ?_
  · intro g hg
    rcases List.mem_cons.1 hg with rfl | hg
    · exact hf
    · exact h.files g (List.mem_of_mem_filter hg)
  · intro g hg
    by_cases heq : g.lastIncludedIndex = f.lastIncludedIndex
    · exact ⟨f, List.mem_cons_self .., heq.le⟩
    · exact ⟨g, List.mem_cons_of_mem _ (List.mem_filter.2 ⟨hg, by simpa using heq⟩), le_refl _⟩

/-- A superseded snapshot may go. -/
theorem removeFile (h : DiskView c a p d) (hr : c.Reaches a) {i : Nat} {g : File}
    (hg : g ∈ d.snapshots) (hi : i < g.lastIncludedIndex) :
    DiskView c a p (d.apply (.removeFile i)) := by
  refine h.of_files hr rfl rfl (fun f hf => h.files f (List.mem_of_mem_filter hf)) ?_
  intro f hf
  by_cases heq : f.lastIncludedIndex = i
  · exact ⟨g, List.mem_filter.2 ⟨hg, by simp; omega⟩, by omega⟩
  · exact ⟨f, List.mem_filter.2 ⟨hf, by simpa using heq⟩, le_refl _⟩

/-- **Restart.**  A process started on its data directory goes on as a follower of
the abstract protocol, from its latest snapshot if it has one. -/
theorem boot (h : DiskView c a p d) (hr : c.Reaches a) :
    ∃ a', Moves c p a a' ∧ a'.commits = a.commits ∧ NodeView c a' p (c.newNode p d) ∧
      DiskView c a' p d := by
  have hdown : Moves c p a (a.stepDown p) := .single .stepDown
  have hr₁ := hr.steps hdown
  have h₁ : DiskView c (a.stepDown p) p d := ⟨h.term, h.vote, h.files_moves hr hdown, h.log⟩
  have hrole : (a.stepDown p).role p = .follower := by simp
  rcases h₁.log with ⟨hnone, hlog⟩ | ⟨f, hf, hlog⟩
  · refine ⟨a.stepDown p, hdown, rfl, ?_, h₁⟩
    have hplaced := placed_log hr₁ p
    have hnode : (c.newNode p d).log = (a.stepDown p).log p ∧ (c.newNode p d).logOffset = 0 ∧
        (c.newNode p d).commitIndex = 0 ∧ (c.newNode p d).lastApplied = 0 ∧
        (c.newNode p d).currentSnapshotPath = none := by
      unfold Config.newNode newNode
      rw [hnone, Option.filter_none]
      dsimp only
      cases hl : d.log with
      | nil => exact ⟨by rw [← hlog, hl], rfl, rfl, rfl, rfl⟩
      | cons e es =>
          have he : e.index = 1 := hplaced 0 e (by rw [← hlog, hl]; rfl)
          dsimp only
          rw [he]
          exact ⟨by rw [← hlog, hl], rfl, rfl, rfl, rfl⟩
    obtain ⟨hnlog, hoff, hcommit, happlied, hpath⟩ := hnode
    exact ⟨rfl, rfl, h₁.term.symm, h₁.vote, hrole, by rw [hnlog, hoff]; exact .full _,
      by rw [hpath, hoff]; rfl, Or.inl hoff, by rw [hcommit]; exact .zero,
      by rw [happlied, hcommit], fun hl => absurd hl (by simp [Config.newNode, newNode])⟩
  · obtain ⟨hA, e, hb, ht⟩ := h₁.files f (latest_mem hf).1
    obtain ⟨a', hm, hterm, hvote, hrole', -, -, hcom, hknown, he, hdrop⟩ := hb.adopt hr₁.inv
    have hview : DiskView c a' p d :=
      ⟨by rw [hterm]; exact h₁.term, by rw [hvote]; exact h₁.vote, h₁.files_moves hr₁ hm,
        Or.inr ⟨f, hf, by rw [hdrop]; exact hlog⟩⟩
    have hnode : (c.newNode p d).log =
          ⟨f.lastIncludedTerm, f.lastIncludedIndex, []⟩ :: (a'.log p).drop f.lastIncludedIndex ∧
        (c.newNode p d).logOffset = f.lastIncludedIndex - 1 ∧
        (c.newNode p d).commitIndex = f.lastIncludedIndex ∧
        (c.newNode p d).lastApplied = f.lastIncludedIndex ∧
        (c.newNode p d).currentSnapshotPath = some f.lastIncludedIndex := by
      unfold Config.newNode newNode
      rw [hf, Option.filter_some, if_pos (by simp; omega)]
      exact ⟨by rw [hdrop, ← hlog], rfl, rfl, rfl, rfl⟩
    obtain ⟨hnlog, hoff, hcommit, happlied, hpath⟩ := hnode
    refine ⟨a', hdown.trans hm, hcom, ⟨rfl, rfl, ?_, ?_, ?_, ?_, ?_, ?_, ?_, ?_, ?_⟩, hview⟩
    · exact hview.term.symm
    · exact hview.vote
    · rw [hrole', hrole]
      rfl
    · rw [hnlog, hoff]
      exact .anchor hA he ht
    · rw [hpath, hoff, if_neg (by omega)]
      congr 1
      omega
    · rw [hoff, hcommit]
      exact Or.inr (by omega)
    · rw [hcommit]
      exact hknown
    · rw [happlied, hcommit]
    · exact fun hl => absurd hl (by simp [Config.newNode, newNode])

end DiskView

end B5KvStore
