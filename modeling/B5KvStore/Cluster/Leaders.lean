import B5KvStore.Cluster.Sections

/-!
# Leaders

The leader's requests are cut out of the log recorded for its term, and when
`maybeAdvanceCommitIndexLocked` moves the commit index, a majority has acknowledged the
entry: the abstract leader commits it.

* `NodeView.requestView`, `NodeView.broadcastView` — the requests.
* `NodeView.isQuorum_matchCount` — the followers the leader counts.
* `Simulates.handleAppendEntriesReply` — the replies.
-/

namespace B5KvStore

open ReplicatedLog (Known CommittedBy CommittedAt Extends)
open QuorumSystem

variable {c : Config} {a a' a₀ : Model} {p : String} {d : Disk} {lo : Nat} {s s' : Locked}
  {n : Node}

/-! ## Requests -/

theorem NodeView.led (h : NodeView c a p n) (hr : c.Reaches a) (hrole : n.role = .leader) :
    a.led (a.term p) = some (p, a.log p) :=
  hr.inv.logs.leader_led p (by rw [h.role, hrole]; rfl)

theorem NodeView.requestView (h : NodeView c a p n) (hr : c.Reaches a) (hrole : n.role = .leader)
    (q : String) : RequestView a (n.buildAppendEntriesRequest q).req := by
  have hled := h.led hr hrole
  have hcom := h.known.committedBy
  rw [h.term] at hled hcom
  exact ⟨p, a.log p, (a.log p).length, hled, le_refl _,
    by rw [List.take_length]; exact n.sentFrom_buildAppendEntriesRequest h.log q, h.known.1, hcom⟩

/-- A new round of requests. -/
theorem NodeView.broadcastView (h : NodeView c a p n) (hr : c.Reaches a) (hp : p ∈ c.addrs)
    (hrole : n.role = .leader) (epoch : Nat) (read : Option Nat) :
    BroadcastView c a ⟨p, epoch, n.currentTerm, n.buildAppendEntriesRequestsLocked,
      fun _ => .sent, read⟩ where
  member := hp
  sent out hout := by
    obtain ⟨q, hq, rfl⟩ := List.mem_map.1 hout
    exact ⟨h.requestView hr hrole q, rfl, rfl, rfl, h.peers ▸ hq⟩
  unique out hout out' hout' heq := by
    obtain ⟨q, -, rfl⟩ := List.mem_map.1 hout
    obtain ⟨q', -, rfl⟩ := List.mem_map.1 hout'
    exact congrArg n.buildAppendEntriesRequest heq
  acked out _ reply hans := absurd hans (by simp)

/-! ## Committing -/

/-- Above the anchor, the log shows the entries of the full one. -/
theorem NodeView.entryAtLocked (h : NodeView c a p n) {i : Nat} (hi : n.anchorIndex < i) :
    n.entryAtLocked i = (a.log p)[i - 1]? := by
  refine n.entryAtLocked_eq h.log (by omega) ?_
  unfold Node.anchorIndex at hi
  split at hi
  · rename_i h0
    exact Or.inl h0
  · exact Or.inr hi

/-- Entries are found under the index they carry. -/
def Node.Indexed (n : Node) : Prop := ∀ i e, n.entryAtLocked i = some e → e.index = i

theorem NodeView.indexed (h : NodeView c a p n) (hr : c.Reaches a) : n.Indexed := by
  intro i e he
  have hoff : n.logOffset < i := by
    by_contra hle
    rw [n.entryAtLocked_eq_none (by omega)] at he
    exact absurd he (by simp)
  rcases h.log with ⟨h0, hlog⟩ | ⟨hpos, x, hx, hlog⟩
  · rw [n.entryAtLocked_eq h.log (by omega) (Or.inl h0)] at he
    rw [placed_log hr p _ e he]
    omega
  · by_cases hi : i = n.logOffset + 1
    · -- the anchor
      subst hi
      unfold Node.entryAtLocked at he
      rw [hlog, if_neg (by simp)] at he
      simp only [Nat.add_sub_cancel_left, Nat.sub_self, List.getElem?_cons_zero,
        Option.some.injEq] at he
      rw [← he]
    · rw [n.entryAtLocked_eq h.log (by omega) (Or.inr (by omega))] at he
      rw [placed_log hr p _ e he]
      omega

theorem NodeView.anchorIndex_le (h : NodeView c a p n) : n.anchorIndex ≤ n.commitIndex := by
  unfold Node.anchorIndex
  rw [h.path]
  rcases h.anchor with h0 | hle
  · rw [if_pos h0, if_pos h0]
    exact Nat.zero_le _
  · split
    · exact Nat.zero_le _
    · exact hle

/-- With the leader, the followers it counts for an index are a majority that has
acknowledged it. -/
theorem NodeView.isQuorum_matchCount (h : NodeView c a p n) (hp : p ∈ c.addrs)
    (hrole : n.role = .leader) {N : Nat} (hself : (p, n.currentTerm, N + 1) ∈ a.acks)
    (hcount : quorumSize (n.peers.length + 1) ≤ Locked.matchCount n (N + 1)) :
    c.quorums.IsQuorum {w | ∃ m, N < m ∧ (w, n.currentTerm, m) ∈ a.acks} := by
  obtain ⟨E, hE⟩ : ∃ E, E = n.matchIndex.entries.filter fun x => N + 1 ≤ x.2 := ⟨_, rfl⟩
  have hmem : ∀ x ∈ E, x.1 ∈ c.peersOf p ∧ ∃ m, N < m ∧ (x.1, n.currentTerm, m) ∈ a.acks := by
    intro x hx
    rw [hE, List.mem_filter] at hx
    have hge : N + 1 ≤ x.2 := of_decide_eq_true hx.2
    obtain ⟨hpeer, hack⟩ := h.matched hrole x.1 x.2 (AList.mem_lookup_iff.2 hx.1)
    exact ⟨hpeer, x.2, hge, hack.resolve_left (by omega)⟩
  have hnd : (E.map Sigma.fst).Nodup := by
    rw [hE]
    exact ((List.filter_sublist (l := n.matchIndex.entries)).map Sigma.fst).nodup
      n.matchIndex.nodupKeys
  refine isQuorum_of_list (l := p :: E.map Sigma.fst) ?_ ?_ ?_ ?_
  · refine List.nodup_cons.2 ⟨fun hin => ?_, hnd⟩
    obtain ⟨x, hx, rfl⟩ := List.mem_map.1 hin
    exact notMem_peersOf c _ (hmem x hx).1
  · intro w hw
    rcases List.mem_cons.1 hw with rfl | hw
    · exact hp
    · obtain ⟨x, hx, rfl⟩ := List.mem_map.1 hw
      exact List.mem_of_mem_erase (hmem x hx).1
  · rw [h.peers, length_peersOf hp] at hcount
    unfold Locked.matchCount quorumSize at hcount
    rw [← hE] at hcount
    rw [List.length_cons, List.length_map]
    omega
  · intro w hw
    rcases List.mem_cons.1 hw with rfl | hw
    · exact ⟨N + 1, Nat.lt_succ_self N, hself⟩
    · obtain ⟨x, hx, rfl⟩ := List.mem_map.1 hw
      exact (hmem x hx).2

namespace Simulates

/-- The leader commits an entry of its own term that a majority holds. -/
theorem commitTo (h : Simulates c a₀ p d lo s a) (hr : c.Reaches a₀) (hp : p ∈ c.addrs)
    (hrole : s.node.role = .leader) {N : Nat} (hlt : s.node.commitIndex < N + 1)
    (hentry : (s.node.entryAtLocked (N + 1)).map LogEntry.term = some s.node.currentTerm)
    (hcount : quorumSize (s.node.peers.length + 1) ≤ Locked.matchCount s.node (N + 1)) :
    ∃ a', SectionView c a₀ p d lo
      (((s.modify fun n => { n with commitIndex := N + 1 }).emit
        [.advancedCommit { s.node with commitIndex := N + 1 }]).applyCommittedLocked) a' := by
  have hra := h.reaches hr
  have hled := h.node.led hra hrole
  have hanchor := h.node.anchorIndex_le
  obtain ⟨e, he, hte⟩ := Option.map_eq_some_iff.1 hentry
  rw [h.node.entryAtLocked (by omega), Nat.add_sub_cancel] at he
  have hlen := (List.getElem?_eq_some_iff.1 he).1
  have hack : Moves c p a (a.ack p (N + 1)) := .single (.ack (N + 1) p (a.log p) hled hlen rfl)
  have hself : (p, s.node.currentTerm, N + 1) ∈ (a.ack p (N + 1)).acks := by
    rw [← h.node.term]
    exact Set.mem_insert _ _
  have hnode : NodeView c (a.ack p (N + 1)) p s.node :=
    h.node.of_sameLog hra hack ⟨rfl, rfl, rfl, rfl, rfl, rfl, rfl⟩ rfl h.node.term h.node.vote
      h.node.role fun hl q m hq => ⟨(h.node.matched hl q m hq).1,
        (h.node.matched hl q m hq).2.imp_right fun hin => (hack.extends hra.inv).acks hin⟩
  have hQ := hnode.isQuorum_matchCount hp hrole hself hcount
  rw [← h.node.term] at hQ
  have hcommit : Moves c p (a.ack p (N + 1)) ((a.ack p (N + 1)).commit p (N + 1)) :=
    .single (.commit N e (by rw [hnode.role, hrole]; rfl) he (hte.trans h.node.term.symm) hQ)
  refine ⟨(a.ack p (N + 1)).commit p (N + 1), h.applyCommittedLocked hr (hack.trans hcommit) rfl rfl
    rfl rfl hlt ⟨hlen, Or.inr ⟨a.term p, N + 1, p, a.log p, Set.mem_insert _ _, le_refl _, le_refl _,
      hled, rfl⟩⟩ ?_ rfl ?_⟩
  · intro x hx
    rw [List.mem_singleton] at hx
    subst hx
    refine ⟨?_, a.log p, (a.log p).length, ?_, hlen, le_refl _, ?_⟩
    · change (s.node.currentTerm, N + 1) ∈ _
      rw [← h.node.term]
      exact Set.mem_insert _ _
    · change a.led s.node.currentTerm = _
      rw [← h.node.term]
      exact hled
    · rw [List.take_length]
      exact h.node.log
  · rintro i x ⟨T, M, l, L, hin, hpos, hM, hled', hx⟩
    rcases Set.mem_insert_iff.1 hin with hnew | hold
    · rw [Prod.mk.injEq] at hnew
      obtain ⟨rfl, rfl⟩ := hnew
      obtain ⟨rfl, rfl⟩ : p = l ∧ a.log p = L := by
        have := hled.symm.trans hled'
        rwa [Option.some.injEq, Prod.mk.injEq] at this
      -- what the leader knew before, and what it shows now
      rcases Nat.lt_or_ge s.node.commitIndex i with hi | hi
      · refine Or.inr ⟨_, List.mem_singleton_self _, hM, ?_, ?_⟩
        · change s.node.anchorIndex < i
          omega
        · change s.node.entryAtLocked i = some x
          rw [h.node.entryAtLocked (by omega)]
          exact hx
      · exact Or.inl (h.node.known.committedAt hpos hi hx)
    · exact Or.inl ⟨T, M, l, L, hold, hpos, hM, hled', hx⟩

theorem advanceLoop (h : Simulates c a₀ p d lo s a) (hr : c.Reaches a₀) (hp : p ∈ c.addrs)
    (hrole : s.node.role = .leader) (N : Nat) :
    ∃ a', SectionView c a₀ p d lo (s.advanceLoop N) a' := by
  induction N with
  | zero => exact ⟨a, h.toSection hr⟩
  | succ N ih =>
      unfold Locked.advanceLoop
      split
      · rename_i hlt
        split
        · rename_i hcond
          exact h.commitTo hr hp hrole hlt hcond.1 hcond.2
        · exact ih
      · exact ⟨a, h.toSection hr⟩

/-! ## Replies -/

/-- The leader only changes what it believes about its followers. -/
theorem believe (h : Simulates c a₀ p d lo s a) (hr : c.Reaches a₀) (m m' : IndexMap)
    (hmatched : ∀ q x, m.lookup q = some x → s.node.matchIndex.lookup q = some x ∨
      q ∈ c.peersOf p ∧ (q, s.node.currentTerm, x) ∈ a.acks) :
    Simulates c a₀ p d lo (s.modify fun n => { n with matchIndex := m, nextIndex := m' }) a := by
  refine h.silent hr .refl rfl rfl rfl rfl rfl (List.append_nil _).symm .nil ?_ rfl
  refine h.node.of_sameLog (h.reaches hr) .refl ⟨rfl, rfl, rfl, rfl, rfl, rfl, rfl⟩ rfl h.node.term
    h.node.vote h.node.role ?_
  intro hl q x hq
  rcases hmatched q x hq with hq | ⟨hq, hin⟩
  · exact h.node.matched hl q x hq
  · exact ⟨hq, Or.inr hin⟩

/-- **Replies to `AppendEntries`.** -/
theorem handleAppendEntriesReply (h : Simulates c a₀ p d lo s a) (hr : c.Reaches a₀)
    (hp : p ∈ c.addrs) {T : Nat} {out : OutgoingAppendEntries} {reply : AppendEntriesReply}
    (hpeer : out.peer ∈ c.peersOf p)
    (hack : reply.success = true → (out.peer, T, out.prevIndex + out.numEntries) ∈ a.acks) :
    ∃ a', SectionView c a₀ p d lo (s.handleAppendEntriesReply T out reply false).1 a' := by
  unfold Locked.handleAppendEntriesReply
  split
  · exact ⟨a, h.toSection hr⟩
  · rename_i hlead
    rw [not_or, not_not, not_not] at hlead
    obtain ⟨hrole, hT⟩ := hlead
    unfold Locked.handleAppendEntriesReplyLocked
    dsimp only
    split
    · obtain ⟨a', h', -⟩ := h.observeTermLocked hr reply.term
      exact ⟨a', h'.toSection hr⟩
    · split
      · rename_i hs
        have h₁ : Simulates c a₀ p d lo
            (s.modify fun n => n.recordMatch out.peer (out.prevIndex + out.numEntries)) a := by
          refine h.believe hr
            (s.node.recordMatch out.peer (out.prevIndex + out.numEntries)).matchIndex
            (s.node.recordMatch out.peer (out.prevIndex + out.numEntries)).nextIndex ?_
          intro q x hq
          unfold Node.recordMatch at hq
          dsimp only at hq
          split at hq
          · by_cases hqp : q = out.peer
            · subst hqp
              rw [AList.lookup_insert, Option.some.injEq] at hq
              subst hq
              exact Or.inr ⟨hpeer, by rw [hT]; exact hack hs⟩
            · rw [AList.lookup_insert_ne hqp] at hq
              exact Or.inl hq
          · exact Or.inl hq
        exact h₁.advanceLoop hr hp hrole _
      · exact ⟨a, (h.believe hr s.node.matchIndex _ fun q x hq => Or.inl hq).toSection hr⟩

end Simulates

end B5KvStore
