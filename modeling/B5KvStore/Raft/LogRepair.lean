import B5KvStore.Raft.Reordering
import B5KvStore.Raft.TermRuns

/-!
# Log repair

A leader and a follower exchange requests and replies, and nothing else happens.  After a
rejection the leader moves `nextIndex` by what the reply says about the follower's log and by
what its own log holds.  The follower looks for the first entry of a term from the end of its
log, so it finds it only when the term is that of its last entry.

* `exchange`, `Repairs` — one round, and rounds until one succeeds.
* `Coexist` — what the logs of two members have in common.
* `nextPrev` — where the next request starts.
* `Repairable` — from where the rounds end.
* `Facing.repairs_iff` — they end from there, and from nowhere else.
-/

namespace B5KvStore

open ReplicatedLog (lastTerm)

/-! ## Rounds -/

/-- One round: the request the leader builds for the peer, what the follower makes of it, and
what the leader makes of the reply.  The two nodes afterwards, and whether the reply reports
success. -/
def exchange (peer : String) (l f : Node) : Node × Node × Bool :=
  let out := l.buildAppendEntriesRequest peer
  let r := f.receive out.req
  match r.2 with
  | .ok reply =>
      ((l.lock.handleAppendEntriesReplyLocked peer out.prevIndex out.numEntries reply false).node,
        r.1.node, reply.success)
  | .error _ => (l, r.1.node, false)

/-- Finitely many rounds end with a success; each one before it moves `nextIndex` down, and
after it the follower's log is the leader's, as far as that goes. -/
inductive Repairs (peer : String) : Node → Node → Prop
  | done {l f : Node} (hok : (exchange peer l f).2.2 = true)
      (hlog : (exchange peer l f).2.1.log.take l.log.length = l.log) : Repairs peer l f
  | retry {l f : Node} (hrej : (exchange peer l f).2.2 = false)
      (hlt : (exchange peer l f).1.nextIndex.at peer < l.nextIndex.at peer)
      (hrest : Repairs peer (exchange peer l f).1 (exchange peer l f).2.1) : Repairs peer l f

/-- The two nodes after a number of rounds. -/
def rounds (peer : String) : Nat → Node → Node → Node × Node
  | 0, l, f => (l, f)
  | k + 1, l, f => rounds peer k (exchange peer l f).1 (exchange peer l f).2.1

/-- One of the rounds succeeds. -/
theorem Repairs.exists_round {peer : String} {l f : Node} (h : Repairs peer l f) :
    ∃ n, (exchange peer (rounds peer n l f).1 (rounds peer n l f).2).2.2 = true := by
  induction h with
  | done hok _ => exact ⟨0, hok⟩
  | retry _ _ _ ih =>
      obtain ⟨n, hn⟩ := ih
      exact ⟨n + 1, hn⟩

theorem Repairs.of_reject {peer : String} {l f : Node} (h : Repairs peer l f)
    (hrej : (exchange peer l f).2.2 = false) :
    (exchange peer l f).1.nextIndex.at peer < l.nextIndex.at peer ∧
      Repairs peer (exchange peer l f).1 (exchange peer l f).2.1 := by
  cases h with
  | done hok => exact absurd (hok.symm.trans hrej) (by decide)
  | retry _ hlt hrest => exact ⟨hlt, hrest⟩

/-! ## The two logs -/

/-- The logs of two members.  Entries of one term come from one leader, so up to the lower of
two such entries the logs agree; terms do not decrease and start at one. -/
structure Coexist (L F : List LogEntry) : Prop where
  shared : ∀ i j x y, F[i]? = some x → L[j]? = some y → x.term = y.term →
    F.take (min i j + 1) = L.take (min i j + 1)
  leaderSorted : TermsSorted L
  sorted : TermsSorted F
  pos : ∀ e ∈ F, 0 < e.term

/-- The rounds end when the request starts at the beginning, or where the follower's entry has
a term of the leader's log.  They also end when it starts beyond the follower's log or at an
entry of that log's last term, provided the leader knows the last term or the one before, or
there is only one. -/
def Repairable (L F : List LogEntry) (prev : Nat) : Prop :=
  prev = 0 ∨ (∃ e, F[prev - 1]? = some e ∧ HasTerm L e.term) ∨
  (F.length < prev ∨ ∃ e, F[prev - 1]? = some e ∧ e.term = lastTerm LogEntry.term F) ∧
    (HasTerm L (lastTerm LogEntry.term F) ∨ earlierTerms F = [] ∨
      HasTerm L (lastTerm LogEntry.term (earlierTerms F)))

/-- The previous index of the next request after one that started at `prev`; `none` when that
one succeeds. -/
def nextPrev (L F : List LogEntry) (prev : Nat) : Option Nat :=
  if prev = 0 then none
  else match F[prev - 1]? with
    | none => some F.length
    | some e =>
        if (L[prev - 1]?).map LogEntry.term = some e.term then none
        else match Node.lastIndexLoop L e.term L.length with
          | some i => some (i + 1)
          | none => some (Node.firstIndexLoop F e.term F.length)

variable {L F : List LogEntry} {prev : Nat} {e : LogEntry}

theorem Coexist.agree (h : Coexist L F) : AgreeOnTerms F L := by
  intro i x y hx hy hterm
  have htake := h.shared i i x y hx hy hterm
  rwa [min_self] at htake

/-- At the end of the follower's log. -/
theorem repairable_length : Repairable L F F.length ↔
    HasTerm L (lastTerm LogEntry.term F) ∨ earlierTerms F = [] ∨
      HasTerm L (lastTerm LogEntry.term (earlierTerms F)) := by
  rcases eq_or_ne F [] with rfl | hne
  · exact ⟨fun _ => Or.inr (Or.inl rfl), fun _ => Or.inl rfl⟩
  · obtain ⟨x, hx, hlast⟩ := ReplicatedLog.exists_last LogEntry.term hne
    constructor
    · rintro (hzero | ⟨e, he, hterm⟩ | ⟨-, h⟩)
      · exact absurd (List.length_eq_zero_iff.1 hzero) hne
      · obtain rfl : x = e := Option.some.inj (hx.symm.trans he)
        exact Or.inl (hlast ▸ hterm)
      · exact h
    · exact fun h => Or.inr (Or.inr ⟨Or.inr ⟨x, hx, hlast.symm⟩, h⟩)

/-- At the end of the earlier terms of the follower's log. -/
theorem repairable_length_earlierTerms : Repairable L F (earlierTerms F).length ↔
    earlierTerms F = [] ∨ HasTerm L (lastTerm LogEntry.term (earlierTerms F)) := by
  rcases eq_or_ne (earlierTerms F) [] with hnil | hne
  · exact ⟨fun _ => Or.inl hnil, fun _ => Or.inl (by rw [hnil]; rfl)⟩
  · obtain ⟨x, hx, hxt, hxlast⟩ := exists_last_earlierTerms hne
    have hlen := (earlierTerms_isPrefix F).length_le
    constructor
    · rintro (hzero | ⟨e, he, hterm⟩ | ⟨hlt | ⟨e, he, hlast⟩, -⟩)
      · exact Or.inl (List.length_eq_zero_iff.1 hzero)
      · obtain rfl : x = e := Option.some.inj (hx.symm.trans he)
        exact Or.inr (hxt ▸ hterm)
      · omega
      · obtain rfl : x = e := Option.some.inj (hx.symm.trans he)
        exact absurd hlast hxlast
    · rintro (hnil | hterm)
      · exact absurd hnil hne
      · exact Or.inr (Or.inl ⟨x, hx, hxt ▸ hterm⟩)

/-- The leader holds the conflicting term: the next request starts at its last entry of that
term, which the follower holds too. -/
theorem Coexist.repairable_of_found (h : Coexist L F) (hpos : 0 < prev)
    (he : F[prev - 1]? = some e) (hmiss : (L[prev - 1]?).map LogEntry.term ≠ some e.term) {i : Nat}
    (hi : Node.lastIndexLoop L e.term L.length = some i) :
    i + 1 < prev ∧ Repairable L F (i + 1) := by
  obtain ⟨⟨y, hy, hterm⟩, -⟩ := Node.lastIndexLoop_eq_some hi
  have htake := h.shared (prev - 1) i e y he hy hterm.symm
  have hlt : i < prev - 1 := by
    by_contra hge
    rw [min_eq_left (by omega)] at htake
    have hL := ReplicatedLog.getElem?_eq_of_take_eq htake (Nat.lt_succ_self _)
    rw [he] at hL
    exact hmiss (by rw [← hL]; rfl)
  rw [min_eq_right hlt.le] at htake
  have hF := ReplicatedLog.getElem?_eq_of_take_eq htake (Nat.lt_succ_self i)
  exact ⟨by omega, Or.inr (Or.inl ⟨y, hF.trans hy, y, List.mem_of_getElem? hy, rfl⟩)⟩

/-- The leader does not hold it: the next request starts below the follower's entries of that
term only if it is the last one. -/
theorem Coexist.repairable_of_missing (h : Coexist L F) (hpos : 0 < prev)
    (he : F[prev - 1]? = some e) (hno : ¬ HasTerm L e.term) :
    Repairable L F prev ↔ Node.firstIndexLoop F e.term F.length < prev ∧
      Repairable L F (Node.firstIndexLoop F e.term F.length) := by
  have hlen := (List.getElem?_eq_some_iff.1 he).1
  have hF : F ≠ [] := List.ne_nil_of_mem (List.mem_of_getElem? he)
  by_cases hlast : e.term = lastTerm LogEntry.term F
  · have hfirst : Node.firstIndexLoop F e.term F.length = (earlierTerms F).length := by
      rw [Node.firstIndexLoop_eq, hlast]
      rfl
    have hlt := (h.sorted.term_eq_lastTerm_iff he).1 hlast
    rw [hfirst, repairable_length_earlierTerms]
    constructor
    · rintro (hzero | ⟨x, hx, hterm⟩ | ⟨-, hterm | hrest⟩)
      · omega
      · obtain rfl : e = x := Option.some.inj (he.symm.trans hx)
        exact absurd hterm hno
      · exact absurd (hlast ▸ hterm) hno
      · exact ⟨by omega, hrest⟩
    · rintro ⟨-, hrest⟩
      exact Or.inr (Or.inr ⟨Or.inr ⟨e, he, hlast⟩, Or.inr hrest⟩)
  · rw [Node.firstIndexLoop_of_ne hF hlast]
    constructor
    · rintro (hzero | ⟨x, hx, hterm⟩ | ⟨hlt | ⟨x, hx, hterm⟩, -⟩)
      · omega
      · obtain rfl : e = x := Option.some.inj (he.symm.trans hx)
        exact absurd hterm hno
      · omega
      · obtain rfl : e = x := Option.some.inj (he.symm.trans hx)
        exact absurd hterm hlast
    · rintro ⟨hlt, -⟩
      omega

/-- Rounds end from where a request succeeds, or moves down to where they end. -/
theorem Coexist.repairable_iff (h : Coexist L F) :
    Repairable L F prev ↔ ∀ k, nextPrev L F prev = some k → k < prev ∧ Repairable L F k := by
  unfold nextPrev
  rcases Nat.eq_zero_or_pos prev with rfl | hpos
  · exact ⟨fun _ k hk => absurd hk (by simp), fun _ => Or.inl rfl⟩
  rw [if_neg (by omega)]
  cases he : F[prev - 1]? with
  | none =>
      -- the request starts beyond the follower's log: the next one starts at its last entry
      have hlt : F.length < prev := by
        have := List.getElem?_eq_none_iff.1 he
        omega
      simp only [Option.some.injEq, forall_eq', repairable_length, hlt, true_and]
      constructor
      · rintro (hzero | ⟨e, hx, -⟩ | ⟨-, hrest⟩)
        · omega
        · exact absurd (hx.symm.trans he) (by simp)
        · exact hrest
      · exact fun hrest => Or.inr (Or.inr ⟨Or.inl hlt, hrest⟩)
  | some e =>
      by_cases hmatch : (L[prev - 1]?).map LogEntry.term = some e.term
      · simp only [if_pos hmatch]
        obtain ⟨x, hx, hxe⟩ := Option.map_eq_some_iff.1 hmatch
        exact ⟨fun _ k hk => absurd hk (by simp),
          fun _ => Or.inr (Or.inl ⟨e, he, x, List.mem_of_getElem? hx, hxe⟩)⟩
      · simp only [if_neg hmatch]
        cases hloop : Node.lastIndexLoop L e.term L.length with
        | some i =>
            obtain ⟨⟨y, hy, hterm⟩, -⟩ := Node.lastIndexLoop_eq_some hloop
            simp only [Option.some.injEq, forall_eq']
            exact ⟨fun _ => h.repairable_of_found hpos he hmatch hloop,
              fun _ => Or.inr (Or.inl ⟨e, he, y, List.mem_of_getElem? hy, hterm⟩)⟩
        | none =>
            simp only [Option.some.injEq, forall_eq']
            refine h.repairable_of_missing hpos he ?_
            rintro ⟨y, hy, hterm⟩
            obtain ⟨j, hj⟩ := List.mem_iff_getElem?.1 hy
            exact Node.lastIndexLoop_eq_none h.leaderSorted (le_refl _) hloop
              (List.getElem?_eq_some_iff.1 hj).1 hj hterm

/-! ## One round -/

theorem IndexMap.at_insert (m : IndexMap) (p : String) (k : Nat) :
    IndexMap.at (m.insert p k) p = k := by
  unfold IndexMap.at
  rw [AList.lookup_insert]
  rfl

/-- A node that gets a request of its term or a later one follows its sender, and then checks
where the request starts. -/
theorem Node.receive_of_le {f : Node} {req : AppendEntriesRequest} (hT : f.currentTerm ≤ req.term) :
    ∃ s : Locked, s.node.log = f.log ∧ s.node.logOffset = f.logOffset ∧
      s.node.currentTerm = req.term ∧
      f.receive req = match s.node.checkPrev req with
        | some rejection => (s, .ok rejection)
        | none => ((s.mergeEntriesLocked req.prevLogIndex req.entries).followCommit
              req.leaderCommit,
            .ok { term := req.term, success := true }) := by
  obtain ⟨s₁, hlog, hoff, hterm, hobs⟩ : ∃ s₁ : Locked, s₁.node.log = f.log ∧
      s₁.node.logOffset = f.logOffset ∧ s₁.node.currentTerm = req.term ∧
      f.lock.observeRequest req.term noFaults.observe = (s₁, none) := by
    rcases hT.eq_or_lt with heq | hlt
    · exact ⟨f.lock, rfl, rfl, heq, Locked.observeRequest_of_le _ heq.ge _⟩
    · obtain ⟨w, es, hobs, -⟩ := f.lock.observeTermLocked_spec hlt
      exact ⟨_, rfl, rfl, rfl, (Locked.observeRequest_of_lt _ hlt _).trans hobs⟩
  obtain ⟨w, es, hrole, -⟩ := s₁.setRoleLocked_spec .follower
  refine ⟨(s₁.setRoleLocked .follower).modify fun n => { n with currentLeader := req.leaderId },
    ?_, ?_, ?_, ?_⟩
  · rw [hrole]
    exact hlog
  · rw [hrole]
    exact hoff
  · rw [hrole]
    exact hterm
  · unfold Node.receive Locked.appendEntries
    rw [hobs]
    dsimp only
    rw [Locked.acceptEntries_eq hterm.le, hterm]
    cases hcheck : Node.checkPrev _ req with
    | some rejection => rfl
    | none => rfl

/-- The consistency check, and what the leader makes of a rejection. -/
theorem Coexist.checkPrev {l n : Node} {req : AppendEntriesRequest} (h : Coexist l.log n.log)
    (hl : l.logOffset = 0) (hn : n.logOffset = 0)
    (hterm : 0 < req.prevLogIndex →
      req.prevLogTerm = ((l.log[req.prevLogIndex - 1]?).map LogEntry.term).getD 0) :
    (nextPrev l.log n.log req.prevLogIndex = none → n.checkPrev req = none) ∧
    ∀ k, nextPrev l.log n.log req.prevLogIndex = some k → ∃ rejection,
      n.checkPrev req = some rejection ∧ rejection.success = false ∧
        rejection.term = n.currentTerm ∧ Locked.backOff l rejection = k + 1 := by
  unfold nextPrev Node.checkPrev
  rw [hn]
  rcases Nat.eq_zero_or_pos req.prevLogIndex with hzero | hpos
  · rw [if_pos hzero, if_neg (by omega)]
    exact ⟨fun _ => rfl, fun k hk => absurd hk (by simp)⟩
  have hview : LogView n.log n.logOffset n.log := by rw [hn]; exact .full _
  rw [if_neg (by omega), if_pos hpos, Node.entryAtLocked_eq hview hpos (Or.inl hn)]
  cases he : n.log[req.prevLogIndex - 1]? with
  | none =>
      refine ⟨fun hk => absurd hk (by simp), fun k hk => ⟨_, rfl, rfl, rfl, ?_⟩⟩
      obtain rfl : n.log.length = k := Option.some.inj hk
      unfold Locked.backOff
      rw [Node.lastLogIndexLocked_eq hview]
      simp
  | some e =>
      have hepos := h.pos e (List.mem_of_getElem? he)
      dsimp only
      rw [hterm hpos]
      by_cases hmatch : (l.log[req.prevLogIndex - 1]?).map LogEntry.term = some e.term
      · rw [if_pos hmatch, hmatch, Option.getD_some, if_neg (by simp)]
        exact ⟨fun _ => rfl, fun k hk => absurd hk (by simp)⟩
      · have hne : e.term ≠ ((l.log[req.prevLogIndex - 1]?).map LogEntry.term).getD 0 := by
          intro heq
          cases hx : (l.log[req.prevLogIndex - 1]?).map LogEntry.term with
          | none =>
              rw [hx, Option.getD_none] at heq
              omega
          | some t =>
              rw [hx, Option.getD_some] at heq
              exact hmatch (by rw [hx, heq])
        rw [if_neg hmatch, if_pos hne]
        unfold Locked.backOff Node.lastIndexOfTermLocked Node.firstIndexOfTermLocked
        rw [hl, hn]
        cases hloop : Node.lastIndexLoop l.log e.term l.log.length with
        | some i =>
            refine ⟨fun hk => absurd hk (by simp), fun k hk => ⟨_, rfl, rfl, rfl, ?_⟩⟩
            obtain rfl : i + 1 = k := Option.some.inj hk
            dsimp only
            rw [if_pos (show e.term ≠ 0 from hepos.ne'), hloop]
            simp
        | none =>
            refine ⟨fun hk => absurd hk (by simp), fun k hk => ⟨_, rfl, rfl, rfl, ?_⟩⟩
            obtain rfl := Option.some.inj hk
            dsimp only
            rw [if_pos (show e.term ≠ 0 from hepos.ne'), hloop]
            simp

/-- A leader and a follower whose logs are whole.  The follower has not heard of a later term. -/
structure Facing (peer : String) (l f : Node) : Prop where
  leaderOffset : l.logOffset = 0
  offset : f.logOffset = 0
  logs : Coexist l.log f.log
  term : f.currentTerm ≤ l.currentTerm
  next : 0 < l.nextIndex.at peer

namespace Facing

variable {peer : String} {l f : Node}

/-- **One round.**  The request succeeds and the follower's log becomes the leader's, or the
logs stay and the next request starts at `nextPrev`. -/
theorem exchange_cases (h : Facing peer l f) :
    nextPrev l.log f.log (l.nextIndex.at peer - 1) = none ∧ (exchange peer l f).2.2 = true ∧
      (exchange peer l f).2.1.log.take l.log.length = l.log ∨
    ∃ k, nextPrev l.log f.log (l.nextIndex.at peer - 1) = some k ∧
      (exchange peer l f).2.2 = false ∧
      (exchange peer l f).1 = { l with nextIndex := l.nextIndex.insert peer (k + 1) } ∧
      (exchange peer l f).2.1.log = f.log ∧ (exchange peer l f).2.1.logOffset = 0 ∧
      (exchange peer l f).2.1.currentTerm = l.currentTerm := by
  have hview : LogView l.log l.logOffset l.log := by rw [h.leaderOffset]; exact .full _
  have hsent := Node.sentFrom_buildAppendEntriesRequest hview peer
  obtain ⟨prev, -, hnext, hreq⟩ := l.buildAppendEntriesRequest_eq peer
  have hprev : prev = l.nextIndex.at peer - 1 := by
    have := hnext (by rw [h.leaderOffset]; exact h.next)
    omega
  have hreqTerm : (l.buildAppendEntriesRequest peer).req.term = l.currentTerm := by rw [hreq]
  have hreqPrev : (l.buildAppendEntriesRequest peer).req.prevLogIndex =
      l.nextIndex.at peer - 1 := by rw [hreq, ← hprev]
  have hprevTerm : 0 < (l.buildAppendEntriesRequest peer).req.prevLogIndex →
      (l.buildAppendEntriesRequest peer).req.prevLogTerm =
        ((l.log[(l.buildAppendEntriesRequest peer).req.prevLogIndex - 1]?).map
          LogEntry.term).getD 0 := by
    rw [hreq]
    intro hpos
    dsimp only at hpos ⊢
    rw [if_pos hpos, Node.entryAtLocked_eq hview hpos (Or.inl h.leaderOffset)]
  unfold exchange
  dsimp only
  generalize (l.buildAppendEntriesRequest peer).prevIndex = sentPrev
  generalize (l.buildAppendEntriesRequest peer).numEntries = sentEntries
  generalize (l.buildAppendEntriesRequest peer).req = req at *
  obtain ⟨s, hlog, hoff, hterm, hrecv⟩ := f.receive_of_le (hreqTerm ▸ h.term)
  rw [← hlog, ← hreqPrev]
  have hlogs : Coexist l.log s.node.log := hlog ▸ h.logs
  have hoff' : s.node.logOffset = 0 := hoff.trans h.offset
  obtain ⟨hnone, hsome⟩ := hlogs.checkPrev h.leaderOffset hoff' hprevTerm
  cases hk : nextPrev l.log s.node.log req.prevLogIndex with
  | none =>
      have hcheck := hnone hk
      rw [hcheck] at hrecv
      rw [hrecv]
      refine Or.inl ⟨rfl, rfl, ?_⟩
      dsimp only
      rw [(Locked.keepsLog_followCommit _ _).log]
      rcases Locked.mergeEntriesLocked_uncompacted hoff' hlogs.agree hlogs.pos hsent hcheck with
        ⟨hpre, hmerge⟩ | ⟨-, ws, hmerge⟩
      · rw [hmerge]
        exact (List.prefix_iff_eq_take.1 hpre).symm
      · rw [hmerge]
        exact List.take_length
  | some k =>
      obtain ⟨rejection, hcheck, hrej, hrejTerm, hback⟩ := hsome k hk
      rw [hcheck] at hrecv
      rw [hrecv]
      refine Or.inr ⟨k, rfl, hrej, ?_, rfl, hoff', hterm.trans hreqTerm⟩
      dsimp only
      unfold Locked.handleAppendEntriesReplyLocked
      rw [if_neg (by rw [hrejTerm, hterm, hreqTerm]; exact lt_irrefl _), hrej, if_neg (by simp),
        ← hback]
      rfl

/-- After a rejection the two still face each other, and the logs are as before. -/
theorem rejected (h : Facing peer l f) {k : Nat}
    (hk : nextPrev l.log f.log (l.nextIndex.at peer - 1) = some k) :
    (exchange peer l f).2.2 = false ∧ Facing peer (exchange peer l f).1 (exchange peer l f).2.1 ∧
      (exchange peer l f).1.nextIndex.at peer = k + 1 ∧ (exchange peer l f).1.log = l.log ∧
      (exchange peer l f).2.1.log = f.log := by
  rcases h.exchange_cases with ⟨hnone, -⟩ | ⟨k', hk', hrej, hl, hlog, hoff, hterm⟩
  · rw [hk] at hnone
    exact absurd hnone (by simp)
  · obtain rfl : k = k' := Option.some.inj (hk.symm.trans hk')
    have hnext : (exchange peer l f).1.nextIndex.at peer = k + 1 := by
      rw [hl]
      exact IndexMap.at_insert l.nextIndex peer (k + 1)
    have hleader : (exchange peer l f).1.log = l.log := by rw [hl]
    refine ⟨hrej, ⟨?_, hoff, ?_, ?_, by rw [hnext]; exact Nat.succ_pos k⟩, hnext, hleader, hlog⟩
    · rw [hl]
      exact h.leaderOffset
    · rw [hlog, hleader]
      exact h.logs
    · rw [hterm, hl]

/-- **Log repair** ends from where the logs allow it, and from nowhere else. -/
theorem repairs_iff (h : Facing peer l f) :
    Repairs peer l f ↔ Repairable l.log f.log (l.nextIndex.at peer - 1) := by
  -- by induction on where the request starts: a rejection that helps moves it down
  obtain ⟨prev, hprev⟩ : ∃ prev, l.nextIndex.at peer - 1 = prev := ⟨_, rfl⟩
  induction prev using Nat.strong_induction_on generalizing l f with
  | _ prev ih =>
      have hpos := h.next
      rw [h.logs.repairable_iff]
      cases hk : nextPrev l.log f.log (l.nextIndex.at peer - 1) with
      | none =>
          rcases h.exchange_cases with ⟨-, hok, hlog⟩ | ⟨k, hk', -⟩
          · exact ⟨fun _ k hk => absurd hk (by simp), fun _ => .done hok hlog⟩
          · exact absurd (hk.symm.trans hk') (by simp)
      | some k =>
          obtain ⟨hrej, hface, hnext, hleader, hlog⟩ := h.rejected hk
          have hstart : (exchange peer l f).1.nextIndex.at peer - 1 = k := by
            rw [hnext]
            rfl
          simp only [Option.some.injEq, forall_eq']
          constructor
          · intro hrep
            obtain ⟨hlt, hrest⟩ := hrep.of_reject hrej
            have hend := (ih k (by omega) hface hstart).1 hrest
            rw [hstart, hleader, hlog] at hend
            exact ⟨by omega, hend⟩
          · rintro ⟨hlt, hend⟩
            refine .retry hrej (by omega) ((ih k (by omega) hface hstart).2 ?_)
            rw [hstart, hleader, hlog]
            exact hend

/-- Rounds do not end while the requests start where one rejection leads to another. -/
theorem rejected_forever {S : Set Nat} (n : Nat) (h : Facing peer l f)
    (hS : ∀ prev ∈ S, ∃ k ∈ S, nextPrev l.log f.log prev = some k)
    (hstart : l.nextIndex.at peer - 1 ∈ S) :
    (exchange peer (rounds peer n l f).1 (rounds peer n l f).2).2.2 = false := by
  induction n generalizing l f with
  | zero =>
      obtain ⟨k, -, hk⟩ := hS _ hstart
      exact (h.rejected hk).1
  | succ n ih =>
      obtain ⟨k, hkS, hk⟩ := hS _ hstart
      obtain ⟨-, hface, hnext, hleader, hlog⟩ := h.rejected hk
      refine ih hface ?_ ?_
      · rw [hleader, hlog]
        exact hS
      · rw [hnext]
        exact hkS

end Facing

/-- A follower of a later term rejects every request, and the leader's `nextIndex` stays. -/
theorem not_repairs_of_stale {peer : String} {l f : Node} (h : l.currentTerm < f.currentTerm) :
    ¬ Repairs peer l f := by
  intro hrep
  have hterm : (l.buildAppendEntriesRequest peer).req.term = l.currentTerm := rfl
  have hrecv : f.receive (l.buildAppendEntriesRequest peer).req =
      (f.lock, .ok { term := f.currentTerm, success := false }) := by
    unfold Node.receive Locked.appendEntries
    rw [Locked.observeRequest_of_le _ (show _ ≤ f.lock.node.currentTerm from hterm ▸ h.le)]
    dsimp only
    unfold Locked.acceptEntries
    rw [if_pos (show _ < f.lock.node.currentTerm from hterm ▸ h)]
    rfl
  have hnext : (exchange peer l f).1.nextIndex = l.nextIndex := by
    unfold exchange
    dsimp only
    rw [hrecv]
    dsimp only
    unfold Locked.handleAppendEntriesReplyLocked
    obtain ⟨w, es, hobs, -⟩ := l.lock.observeTermLocked_spec h
    rw [if_pos (show l.lock.node.currentTerm < f.currentTerm from h), hobs]
    rfl
  have hrej : (exchange peer l f).2.2 = false := by
    unfold exchange
    dsimp only
    rw [hrecv]
  have := (hrep.of_reject hrej).1
  rw [hnext] at this
  omega

end B5KvStore
