import B5KvStore.Cluster.Sections

/-!
# Followers

`AppendEntries` as steps of the abstract follower: it steps down, takes over what the
request carries of its leader's log — the conflicting suffix is cut off first, and
entries reach the disk one by one — acknowledges it, and follows the leader's commit
index.

* `Simulates.mergeEntriesLocked` — afterwards the log agrees with the leader's as far
  as the request reaches.
* `Simulates.followCommit` — what is applied is committed.
* `Simulates.acceptEntries` — all of it.
-/

namespace B5KvStore

open ReplicatedLog (Known CommittedBy CommittedAt Extends take_eq_of_le le_length_of_take_eq)

variable {c : Config} {a a' a₀ : Model} {p l : String} {d : Disk} {lo m : Nat} {s s' : Locked}
  {F L : List LogEntry} {n : Node} {req : AppendEntriesRequest}

/-! ## Taking over entries -/

theorem Locked.appendLog_nil (s : Locked) : s.appendLog [] = s := by
  simp [Locked.appendLog, appendLogEntries, Locked.write, Locked.modify]

theorem Locked.appendLog_cons (s : Locked) (e : LogEntry) (es : List LogEntry) :
    s.appendLog (e :: es) = (s.appendLog [e]).appendLog es := by
  simp [Locked.appendLog, appendLogEntries, Locked.write, Locked.modify]

/-- What an anchor stands for is in the log of every later leader. -/
theorem NodeView.take_anchor (h : NodeView c a p n) (hr : c.Reaches a) {T : Nat}
    (hled : a.led T = some (l, L)) (hT : n.currentTerm ≤ T) :
    n.logOffset = 0 ∨ n.logOffset + 1 ≤ L.length ∧
      (a.log p).take (n.logOffset + 1) = L.take (n.logOffset + 1) := by
  refine h.anchor.imp_right fun hle => ?_
  rcases h.known.2 with h0 | ⟨T', N, l', L', hcom, hT', hN, hled', heq⟩
  · omega
  · rw [h.term] at hT'
    obtain ⟨hlen, htake⟩ := hr.inv.leader_holds hcom hled' (hT'.trans hT) hled hN
    exact ⟨hle.trans hlen, take_eq_of_le (heq.trans htake.symm) hle⟩

namespace Simulates

/-- The node follows whoever sent a request of its term. -/
theorem follow (h : Simulates c a₀ p d lo s a) (hr : c.Reaches a₀) (leader : String) :
    Simulates c a₀ p d lo
      ((s.setRoleLocked .follower).modify fun n => { n with currentLeader := leader })
      (a.stepDown p) := by
  obtain ⟨w, es, heq, hes, -⟩ := s.setRoleLocked_spec .follower
  have hm : Moves c p a (a.stepDown p) := .single .stepDown
  rw [heq]
  refine h.silent hr hm rfl rfl rfl rfl rfl rfl hes ?_ rfl
  exact h.node.of_sameLog (h.reaches hr) hm ⟨rfl, rfl, rfl, rfl, rfl, rfl, rfl⟩ rfl h.node.term
    h.node.vote (show (a.stepDown p).role p = .follower by simp)
    (NodeView.not_leader_of_role rfl)

/-- What a follower's log may become: a prefix of its leader's log. -/
theorem overwrite (h : Simulates c a₀ p d lo s a) (hr : c.Reaches a₀)
    (hrole : s.node.role = .follower) (hled : a.led (a.term p) = some (l, L)) {k : Nat}
    (hk : k ≤ L.length)
    (hkeep : ∀ j ≤ (a.log p).length, (a.log p).take j = L.take j → j ≤ k) {w : DiskWrite}
    (hw : s'.writes = s.writes ++ [w]) (he : s'.events = s.events)
    (hd : DiskView c (a.setLog p (L.take k)) p ((d.applyAll s.writes).apply w))
    (hsnap : ∀ d : Disk, (d.apply w).snapshots = d.snapshots) {log : List LogEntry}
    (hn : s'.node = { s.node with log := log }) (hlog : LogView (L.take k) s.node.logOffset log) :
    Simulates c a₀ p d lo s' (a.setLog p (L.take k)) := by
  have hm : Moves c p a (a.setLog p (L.take k)) :=
    .single (.overwrite k l L (by rw [h.node.role, hrole]; rfl) hled hk hkeep)
  refine h.write hm rfl hw hd hsnap (he.trans (List.append_nil _).symm) .nil ?_ (by rw [hn])
  rw [hn]
  exact ⟨h.node.id, h.node.peers, h.node.term, h.node.vote, h.node.role, by simpa using hlog,
    h.node.path, h.node.anchor, h.node.known.steps (h.reaches hr).inv hm, h.node.applied,
    NodeView.not_leader_of_role hrole⟩

/-- Entries of the leader's log are appended one by one. -/
theorem appendLog (h : Simulates c a₀ p d lo s a) (hr : c.Reaches a₀)
    (hrole : s.node.role = .follower) (hled : a.led (a.term p) = some (l, L)) {es : List LogEntry}
    (hpre : a.log p ++ es <+: L) :
    ∃ a', Simulates c a₀ p d lo (s.appendLog es) a' ∧ Moves c p a a' ∧
      a'.term = a.term ∧ a'.led = a.led ∧ a'.log p = a.log p ++ es := by
  induction es generalizing s a with
  | nil =>
      rw [Locked.appendLog_nil]
      exact ⟨a, h, .refl, rfl, rfl, (List.append_nil _).symm⟩
  | cons e es ih =>
      rw [Locked.appendLog_cons]
      have hpre₁ : a.log p ++ [e] <+: L :=
        List.IsPrefix.trans ⟨es, by rw [List.append_assoc]; rfl⟩ hpre
      have hlen := hpre₁.length_le
      rw [List.length_append, List.length_singleton] at hlen
      have htake : L.take ((a.log p).length + 1) = a.log p ++ [e] := by
        have := List.prefix_iff_eq_take.1 hpre₁
        rw [List.length_append, List.length_singleton] at this
        exact this.symm
      have hra := h.reaches hr
      have hm : Moves c p a (a.setLog p (L.take ((a.log p).length + 1))) :=
        .single (.overwrite _ l L (by rw [h.node.role, hrole]; rfl) hled hlen
          (fun j hj _ => by omega))
      have hlog : (a.setLog p (L.take ((a.log p).length + 1))).log p = a.log p ++ [e] := by
        simp [htake]
      have hget : L[(a.log p).length]? = some e := by
        obtain ⟨t, ht⟩ := hpre₁
        rw [← ht, List.append_assoc, List.getElem?_append_right (le_refl _)]
        simp
      have hindex : e.index = (a.log p).length + 1 :=
        placed_of_sound hra (hra.inv.logs.sound_led _ _ _ hled) _ e hget
      have h₁ : Simulates c a₀ p d lo (s.appendLog [e])
          (a.setLog p (L.take ((a.log p).length + 1))) :=
        h.overwrite hr hrole hled hlen (fun j hj _ => by omega) rfl rfl
        (h.disk.appendRecord hra hm rfl rfl hlog hindex) (fun _ => rfl) rfl
        (by rw [htake]; exact h.node.log.append [e])
      obtain ⟨a', h', hm', hterm, hled', hlog'⟩ := ih h₁ hrole (by exact hled)
        (by rw [hlog, List.append_assoc]; exact hpre)
      exact ⟨a', h', hm.trans hm', hterm, hled', by rw [hlog', hlog, List.append_assoc]; rfl⟩

/-- Appending the rest of the first `m` entries makes the log the leader's. -/
theorem appendRest (h : Simulates c a₀ p d lo s a) (hr : c.Reaches a₀)
    (hrole : s.node.role = .follower) (hled : a.led (a.term p) = some (l, L)) {j : Nat}
    (hj : j ≤ m) (hlog : a.log p = L.take j) :
    ∃ a', Simulates c a₀ p d lo (s.appendLog ((L.take m).drop j)) a' ∧ Moves c p a a' ∧
      a'.term = a.term ∧ a'.led = a.led ∧ a'.log p = L.take m := by
  have hjoin : a.log p ++ (L.take m).drop j = L.take m := by
    conv_rhs => rw [← List.take_append_drop j (L.take m)]
    rw [hlog, List.take_take, min_eq_left hj]
  obtain ⟨a', h', hm', hterm, hled', hlog'⟩ := h.appendLog hr hrole hled
    (by rw [hjoin]; exact List.take_prefix m L)
  exact ⟨a', h', hm', hterm, hled', hlog'.trans hjoin⟩

/-- The conflicting suffix is cut off. -/
theorem truncate (h : Simulates c a₀ p d lo s a) (hr : c.Reaches a₀)
    (hrole : s.node.role = .follower) (hled : a.led (a.term p) = some (l, L)) {idx : Nat}
    (hidx : 0 < idx) (hoff : s.node.logOffset = 0 ∨ s.node.logOffset + 1 < idx)
    (hL : idx ≤ L.length) (htake : (a.log p).take (idx - 1) = L.take (idx - 1))
    (hne : (a.log p).take idx ≠ L.take idx) :
    Simulates c a₀ p d lo ((s.write [.truncateLogFrom idx]).modify fun n =>
      { n with log := n.log.take (idx - n.logOffset - 1) }) (a.setLog p (L.take (idx - 1))) ∧
    Moves c p a (a.setLog p (L.take (idx - 1))) := by
  have hkeep : ∀ j ≤ (a.log p).length, (a.log p).take j = L.take j → j ≤ idx - 1 := by
    intro j _ hj
    by_contra hlt
    exact hne (take_eq_of_le hj (by omega))
  have hm : Moves c p a (a.setLog p (L.take (idx - 1))) :=
    .single (.overwrite _ l L (by rw [h.node.role, hrole]; rfl) hled (by omega) hkeep)
  have hd := h.disk.truncateLogFrom (h.reaches hr) hm rfl rfl
    (show (a.setLog p (L.take (idx - 1))).log p = (a.log p).take (idx - 1) by simp [htake])
  rw [Nat.sub_add_cancel hidx] at hd
  refine ⟨h.overwrite hr hrole hled (by omega) hkeep rfl rfl hd (fun _ => rfl) rfl ?_, hm⟩
  rw [← htake]
  exact h.node.log.truncate hoff

/-- Everything up to the anchor is in the leader's log. -/
theorem take_anchor (h : Simulates c a₀ p d lo s a) (hr : c.Reaches a₀)
    (hled : a.led (a.term p) = some (l, L)) :
    s.node.logOffset = 0 ∨ s.node.logOffset + 1 ≤ L.length ∧
      (a.log p).take (s.node.logOffset + 1) = L.take (s.node.logOffset + 1) :=
  h.node.take_anchor (h.reaches hr) hled h.node.term.ge

/-- Up to `prevLogIndex`, and inside the compacted part, the log agrees with the
leader's. -/
theorem take_below (h : Simulates c a₀ p d lo s a) (hr : c.Reaches a₀)
    (hled : a.led (a.term p) = some (l, L)) (hm : m ≤ L.length)
    (hsent : SentFrom (L.take m) req) (hcheck : s.node.checkPrev req = none) {j : Nat}
    (hj : j ≤ req.prevLogIndex ∨ j ≤ s.node.logOffset) :
    j ≤ L.length ∧ j ≤ (a.log p).length ∧ (a.log p).take j = L.take j := by
  have hra := h.reaches hr
  have hsound := hra.inv.logs.sound_log p
  have hFoff := h.node.log.offset_le
  have hoff : j ≤ s.node.logOffset →
      j ≤ L.length ∧ j ≤ (a.log p).length ∧ (a.log p).take j = L.take j := by
    intro hj
    rcases h.take_anchor hr hled with h0 | ⟨hlen, htake⟩
    · obtain rfl : j = 0 := by omega
      simp
    · exact ⟨by omega, by omega, take_eq_of_le htake (by omega)⟩
  rcases s.node.agree_of_checkPrev h.node.log
    (fun i x y hx hy ht => hsound.agree ((hra.inv.logs.sound_led _ _ _ hled).take m) hx hy ht)
    (fun i e he => term_pos_of_sound hra hsound he) hsent hcheck with hle | ⟨-, hF, hL, -, htake⟩
  · exact hoff (by omega)
  · rcases hj with hj | hj
    · rw [List.length_take] at hL
      rw [List.take_take, min_eq_left (by omega)] at htake
      exact ⟨by omega, by omega, take_eq_of_le htake hj⟩
    · exact hoff hj

/-- `mergeEntriesLocked`, as an accepted request calls it: afterwards the log agrees
with the leader's as far as the request reaches. -/
theorem mergeEntriesLocked (h : Simulates c a₀ p d lo s a) (hr : c.Reaches a₀)
    (hrole : s.node.role = .follower) (hled : a.led (a.term p) = some (l, L)) (hm : m ≤ L.length)
    (hsent : SentFrom (L.take m) req) (hcheck : s.node.checkPrev req = none) :
    ∃ a', Simulates c a₀ p d lo (s.mergeEntriesLocked req.prevLogIndex req.entries) a' ∧
      Moves c p a a' ∧ a'.term = a.term ∧ a'.led = a.led ∧
      m ≤ req.prevLogIndex + req.entries.length ∧
      req.prevLogIndex + req.entries.length ≤ L.length ∧
      (a'.log p).take (req.prevLogIndex + req.entries.length) =
        L.take (req.prevLogIndex + req.entries.length) := by
  have hra := h.reaches hr
  have hview := h.node.log
  have hsound := hra.inv.logs.sound_log p
  have hlenL : (L.take m).length = m := by rw [List.length_take]; omega
  have hagree : AgreeOnTerms (a.log p) (L.take m) := fun i x y hx hy ht =>
    hsound.agree ((hra.inv.logs.sound_led _ _ _ hled).take m) hx hy ht
  have hmatch : Matches (L.take m) s.node.logOffset (req.prevLogIndex + 1) req.entries := by
    refine hsent.matches ?_
    rcases s.node.agree_of_checkPrev hview hagree
      (fun i e he => term_pos_of_sound hra hsound he) hsent hcheck with hle | ⟨-, -, hL', hent, -⟩
    · exact Or.inr hle
    · exact Or.inl ⟨hL', hent⟩
  have hlenE := hmatch.length
  obtain ⟨idx, E, hskip, hle, hmE, hlen, hend, hmax⟩ :=
    skipCompacted_spec hmatch (Nat.succ_pos _)
  have hlenE' := hmE.length
  rw [hlenL] at hlenE hlenE'
  rw [Nat.add_sub_cancel] at hlen
  obtain ⟨hidxL, hidxF, hidx⟩ := h.take_below hr hled hm hsent hcheck (j := idx - 1) (by omega)
  unfold Locked.mergeEntriesLocked
  rw [hskip]
  dsimp only
  rw [← hlen]
  by_cases hE : E = []
  · -- everything was there already
    subst hE
    simp only [Locked.mergeLoop, if_true]
    simp only [List.length_nil, Nat.add_zero] at hlenE' ⊢
    exact ⟨a, h, .refl, rfl, rfl, by omega, hidxL, hidx⟩
  · have hoff := hend.resolve_left hE
    have hEpos := List.length_pos_iff.2 hE
    have hmeq : idx - 1 + E.length = m := by omega
    have htakeL : ∀ j ≤ m, (L.take m).take j = L.take j := fun j hj => by
      rw [List.take_take, min_eq_left hj]
    have hdrop : ∀ j < m, (L.take m).drop j ≠ [] := fun j hj => by
      rw [ne_eq, List.drop_eq_nil_iff, hlenL]
      omega
    have hres := Locked.mergeLoop_spec hview hagree
      ((h.take_anchor hr hled).imp_right fun ha => by rw [htakeL _ (by omega)]; exact ha.2)
      hmE (by omega) (Or.inr hoff) hidxF (by rw [htakeL _ (by omega)]; exact hidx)
    rw [hmeq]
    generalize s.mergeLoop idx E = r at hres ⊢
    cases hres with
    | covered hlenF htake =>
        rw [if_pos rfl]
        rw [hmeq, htakeL m (le_refl _)] at htake
        exact ⟨a, h, .refl, rfl, rfl, le_refl _, hm, htake⟩
    | extend hlt htake =>
        rw [hlenL] at hlt
        rw [if_neg (hdrop _ hlt)]
        obtain ⟨a', h', hm', hterm', hled', hlog'⟩ :=
          h.appendRest hr hrole hled hlt.le (htake.trans (htakeL _ hlt.le))
        exact ⟨a', h', hm', hterm', hled', le_refl _, hm, by rw [hlog', htakeL m (le_refl _)]⟩
    | conflict i hi hoff' hF hL' htake hne =>
        rw [hlenL] at hL'
        rw [htakeL _ (by omega)] at htake hne
        rw [if_neg (hdrop _ (by omega))]
        obtain ⟨h₁, hm₁⟩ := h.truncate hr hrole hled hi hoff' (by omega) htake hne
        obtain ⟨a', h', hm', hterm', hled', hlog'⟩ :=
          h₁.appendRest hr hrole hled (m := m) (j := i - 1) (by omega) (by simp)
        exact ⟨a', h', hm₁.trans hm', hterm', hled', le_refl _, hm,
          by rw [hlog', htakeL m (le_refl _)]⟩

/-! ## Following the commit index -/

/-- `followCommit`, up to a committed index the log agrees with the leader's at. -/
theorem followCommit (h : Simulates c a₀ p d lo s a) (hr : c.Reaches a₀)
    (hled : a.led (a.term p) = some (l, L)) {C : Nat} (hcom : CommittedBy a (a.term p) C)
    (hlen : C ≤ (a.log p).length)
    (hagree : (a.log p).take C = L.take C) : SectionView c a₀ p d lo (s.followCommit C) a := by
  unfold Locked.followCommit
  split
  · rename_i hlt
    have hknown := (h.reaches hr).inv.known_of_agree hled (le_refl _) hcom hlen hagree
    have hmin : min64 C s.node.lastLogIndexLocked = C := by
      rw [s.node.lastLogIndexLocked_eq h.node.log]
      unfold min64
      split <;> omega
    rw [show (s.modify fun n => { n with commitIndex := min64 C n.lastLogIndexLocked }) =
      (s.modify fun n => { n with commitIndex := C }).emit [] by
        simp only [Locked.modify, Locked.emit, hmin, List.append_nil]]
    exact h.applyCommittedLocked hr .refl rfl rfl rfl rfl hlt hknown (by simp) rfl
      (fun _ _ hi => Or.inl hi)
  · exact h.toSection hr

/-- **`AppendEntries`**, once the term of the request has been observed: what is
answered with success has been acknowledged. -/
theorem acceptEntries (h : Simulates c a₀ p d lo s a) (hr : c.Reaches a₀)
    (hreq : RequestView a req) (hT : req.term ≤ s.node.currentTerm) :
    ∃ a', SectionView c a₀ p d lo (s.acceptEntries req).1 a' ∧
      ((s.acceptEntries req).2.success = true →
        (p, req.term, req.prevLogIndex + req.entries.length) ∈ a'.acks) := by
  obtain ⟨l, L, m, hled, hm, hsent, hcm, hcom⟩ := hreq
  unfold Locked.acceptEntries
  split
  · exact ⟨a, h.toSection hr, fun hs => absurd hs (by simp)⟩
  · rename_i hge
    have hTeq : a.term p = req.term := by rw [h.node.term]; omega
    have h₁ := h.follow hr req.leaderId
    have hrole : ((s.setRoleLocked .follower).modify fun n =>
        { n with currentLeader := req.leaderId }).node.role = .follower := rfl
    generalize ((s.setRoleLocked .follower).modify fun n =>
      { n with currentLeader := req.leaderId }) = s₁ at h₁ hrole ⊢
    dsimp only
    split
    · rename_i rejection hrej
      refine ⟨_, h₁.toSection hr, fun hs => ?_⟩
      rw [s₁.node.success_of_checkPrev hrej] at hs
      exact absurd hs (by simp)
    · rename_i hcheck
      rw [Locked.ite_mergeEntriesLocked]
      have hled₁ : (a.stepDown p).led ((a.stepDown p).term p) = some (l, L) := by
        rw [← hTeq] at hled
        exact hled
      obtain ⟨a₂, h₂, hm₂, hterm₂, hled₂, hmM, hML, htake⟩ :=
        h₁.mergeEntriesLocked hr hrole hled₁ hm hsent hcheck
      have hrole₂ : (s₁.mergeEntriesLocked req.prevLogIndex req.entries).node.role = .follower := by
        obtain ⟨log, ws, heq⟩ := s₁.mergeEntriesLocked_frame req.prevLogIndex req.entries
        rw [heq]
        exact hrole
      rw [← hled₂, ← hterm₂] at hled₁
      have hterm : a₂.term p = req.term := (congrFun hterm₂ p).trans hTeq
      have hack : Moves c p a₂ (a₂.ack p (req.prevLogIndex + req.entries.length)) :=
        .single (.ack _ l L hled₁ hML htake)
      have h₃ : Simulates c a₀ p d lo (s₁.mergeEntriesLocked req.prevLogIndex req.entries)
          (a₂.ack p (req.prevLogIndex + req.entries.length)) :=
        h₂.silent hr hack rfl rfl rfl rfl rfl (List.append_nil _).symm .nil
        (h₂.node.of_sameLog (h₂.reaches hr) hack ⟨rfl, rfl, rfl, rfl, rfl, rfl, rfl⟩ rfl
          h₂.node.term h₂.node.vote h₂.node.role (NodeView.not_leader_of_role hrole₂)) rfl
      have hlen := le_length_of_take_eq htake hML
      refine ⟨_, h₃.followCommit hr hled₁ ?_ (by simpa using hcm.trans (hmM.trans hlen))
        (by simpa using take_eq_of_le htake (hcm.trans hmM)), ?_⟩
      · have hall : Moves c p a (a₂.ack p (req.prevLogIndex + req.entries.length)) :=
          (Relation.ReflTransGen.single .stepDown).trans (hm₂.trans hack)
        exact hcom.mono (hall.extends (h.reaches hr).inv) hterm.ge
      · intro _
        exact Or.inl (by rw [hterm])

theorem appendEntries (h : Simulates c a₀ p d lo s a) (hr : c.Reaches a₀)
    (hreq : RequestView a req) :
    ∃ a', SectionView c a₀ p d lo (s.appendEntries req noFaults).1 a' ∧
      ∀ r, (s.appendEntries req noFaults).2 = .ok r → r.success = true →
        (p, req.term, req.prevLogIndex + req.entries.length) ∈ a'.acks := by
  obtain ⟨a₁, h₁, hm₁, hnone, hT⟩ := h.observeRequest hr req.term
  unfold Locked.appendEntries
  rw [show s.observeRequest req.term noFaults.observe =
    ((s.observeRequest req.term false).1, none) from Prod.ext rfl hnone]
  obtain ⟨a₂, h₂, hack⟩ := h₁.acceptEntries hr (hreq.mono (hm₁.extends (h.reaches hr).inv))
    (by rw [hT]; exact le_max_right _ _)
  refine ⟨a₂, h₂, fun r hr' hs => hack ?_⟩
  dsimp only at hr'
  rw [Except.ok.injEq] at hr'
  rw [hr']
  exact hs

end Simulates

end B5KvStore
