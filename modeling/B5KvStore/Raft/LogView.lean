import B5KvStore.Lib.ReplicatedLog.Logs
import B5KvStore.Raft.Snapshots

/-!
# The log a node would hold without compaction

A compacted log starts with an anchor that stands for everything up to its
index.  `LogView F off log` says that `log`, with offset `off`, is what remains
of the full log `F`.  Everything a handler reads from the log or does to it is
described here in terms of `F`.

* `Placed` — entries carry their position as index.
* `LogView` — the compacted log and the full one; `LogView.entry`,
  `LogView.append`, `LogView.truncate`, `LogView.compact`.
* `SentFrom` — the entries of a request, cut out of a leader's log.
-/

namespace B5KvStore

open ReplicatedLog (lastTerm)

/-- Each entry's index is its position, counted from one. -/
def Placed (F : List LogEntry) : Prop := ∀ i e, F[i]? = some e → e.index = i + 1

variable {F G L : List LogEntry} {off idx : Nat} {log : List LogEntry} {e : LogEntry}

theorem Placed.take (h : Placed F) (k : Nat) : Placed (F.take k) := by
  intro i e hi
  rw [List.getElem?_take] at hi
  split at hi
  · exact h i e hi
  · exact absurd hi (by simp)

theorem Placed.index_take (h : Placed F) {k : Nat} (he : e ∈ F.take k) : e.index ≤ k := by
  obtain ⟨i, hi⟩ := List.mem_iff_getElem?.1 he
  have := h.take k i e hi
  have hlt := (List.getElem?_eq_some_iff.1 hi).1
  rw [List.length_take] at hlt
  omega

theorem Placed.index_drop (h : Placed F) {k : Nat} (he : e ∈ F.drop k) : k < e.index := by
  obtain ⟨i, hi⟩ := List.mem_iff_getElem?.1 he
  rw [List.getElem?_drop] at hi
  have := h _ e hi
  omega

/-- Entries above an index are what follows it. -/
theorem Placed.filter_drop (h : Placed F) {j k : Nat} (hjk : j ≤ k) :
    (F.drop j).filter (fun e => k < e.index) = F.drop k := by
  have hsplit : F.drop j = (F.take k).drop j ++ F.drop k := by
    conv_lhs => rw [← List.take_append_drop k F]
    rw [List.drop_append, List.length_take]
    rcases Nat.lt_or_ge F.length k with hlt | hge
    · have h1 : F.drop k = [] := List.drop_eq_nil_of_le (by omega)
      simp [h1]
    · rw [show j - min k F.length = 0 by omega, List.drop_zero]
  rw [hsplit, List.filter_append]
  have h1 : ((F.take k).drop j).filter (fun e => k < e.index) = [] := by
    rw [List.filter_eq_nil_iff]
    intro e he
    have := h.index_take (List.mem_of_mem_drop he)
    simpa using this
  have h2 : (F.drop k).filter (fun e => k < e.index) = F.drop k := by
    rw [List.filter_eq_self]
    intro e he
    simpa using h.index_drop he
  rw [h1, h2, List.nil_append]

/-- Entries below an index are what precedes it. -/
theorem Placed.filter_lt (h : Placed F) {k : Nat} :
    F.filter (fun e => e.index < k + 1) = F.take k := by
  conv_lhs => rw [← List.take_append_drop k F]
  rw [List.filter_append]
  have h1 : (F.take k).filter (fun e => e.index < k + 1) = F.take k := by
    rw [List.filter_eq_self]
    intro e he
    have := h.index_take he
    simp only [decide_eq_true_eq]
    omega
  have h2 : (F.drop k).filter (fun e => e.index < k + 1) = [] := by
    rw [List.filter_eq_nil_iff]
    intro e he
    have := h.index_drop he
    simp only [decide_eq_true_eq]
    omega
  rw [h1, h2, List.append_nil]

/-- `log` with offset `off` is what is left of `F`: all of it, or an anchor and
what follows. -/
def LogView (F : List LogEntry) (off : Nat) (log : List LogEntry) : Prop :=
  off = 0 ∧ log = F ∨
    0 < off ∧ ∃ e, F[off]? = some e ∧ log = ⟨e.term, off + 1, []⟩ :: F.drop (off + 1)

namespace LogView

theorem full (F : List LogEntry) : LogView F 0 F := Or.inl ⟨rfl, rfl⟩

theorem length (h : LogView F off log) : off + log.length = F.length := by
  rcases h with ⟨rfl, rfl⟩ | ⟨-, e, he, rfl⟩
  · omega
  · have := (List.getElem?_eq_some_iff.1 he).1
    rw [List.length_cons, List.length_drop]
    omega

theorem offset_le (h : LogView F off log) : off ≤ F.length := by
  have := h.length
  omega

theorem offset_lt (h : LogView F off log) (hoff : 0 < off) : off < F.length := by
  rcases h with ⟨rfl, -⟩ | ⟨-, e, he, -⟩
  · omega
  · exact (List.getElem?_eq_some_iff.1 he).1

/-- Above the anchor the view shows the entries of the full log. -/
theorem getElem?_pos (h : LogView F off log) {j : Nat} (hj : off = 0 ∨ 0 < j) :
    log[j]? = F[off + j]? := by
  rcases h with ⟨rfl, rfl⟩ | ⟨hoff, e, he, rfl⟩
  · simp
  · obtain ⟨i, rfl⟩ : ∃ i, j = i + 1 := ⟨j - 1, by omega⟩
    rw [List.getElem?_cons_succ, List.getElem?_drop]
    congr 1
    omega

/-- Everywhere it shows the terms of the full log. -/
theorem term_getElem? (h : LogView F off log) (j : Nat) :
    (log[j]?).map LogEntry.term = (F[off + j]?).map LogEntry.term := by
  by_cases hj : off = 0 ∨ 0 < j
  · rw [h.getElem?_pos hj]
  · rcases h with ⟨rfl, -⟩ | ⟨-, e, he, rfl⟩
    · exact absurd (Or.inl rfl) hj
    · have : j = 0 := by omega
      subst this
      simp [he]

theorem lastTerm_eq (h : LogView F off log) :
    (match log.getLast? with | none => 0 | some e => e.term) = lastTerm LogEntry.term F := by
  have hlen := h.length
  have hterm := h.term_getElem? (log.length - 1)
  have hlast : log.getLast?.map LogEntry.term = F.getLast?.map LogEntry.term := by
    rw [List.getLast?_eq_getElem?, List.getLast?_eq_getElem?]
    rcases Nat.eq_zero_or_pos log.length with h0 | hpos
    · -- an empty view is a view of the empty log
      have hF : F = [] := by
        rcases h with ⟨-, rfl⟩ | ⟨-, e, -, rfl⟩
        · exact List.length_eq_zero_iff.1 h0
        · simp at h0
      have hl : log = [] := List.length_eq_zero_iff.1 h0
      simp [hF, hl]
    · rw [hterm]
      congr 2
      omega
  unfold lastTerm
  rw [← hlast]
  cases log.getLast? <;> rfl

theorem append (h : LogView F off log) (es : List LogEntry) :
    LogView (F ++ es) off (log ++ es) := by
  rcases h with ⟨rfl, rfl⟩ | ⟨hoff, e, he, rfl⟩
  · exact Or.inl ⟨rfl, rfl⟩
  · have hlt := (List.getElem?_eq_some_iff.1 he).1
    refine Or.inr ⟨hoff, e, ?_, ?_⟩
    · rw [List.getElem?_append_left hlt]
      exact he
    · rw [List.cons_append, List.drop_append_of_le_length (by omega)]

/-- Cutting off everything from `idx` on, above the anchor. -/
theorem truncate (h : LogView F off log) (hidx : off = 0 ∨ off + 1 < idx) :
    LogView (F.take (idx - 1)) off (log.take (idx - off - 1)) := by
  rcases h with ⟨rfl, rfl⟩ | ⟨hoff, e, he, rfl⟩
  · exact Or.inl ⟨rfl, rfl⟩
  · refine Or.inr ⟨hoff, e, ?_, ?_⟩
    · rw [List.getElem?_take, if_pos (by omega)]
      exact he
    · obtain ⟨k, hk⟩ : ∃ k, idx - off - 1 = k + 1 := ⟨idx - off - 2, by omega⟩
      rw [hk, List.take_succ_cons, List.drop_take]
      congr 2
      omega

/-- Replacing everything up to `A` by an anchor. -/
theorem compact (h : LogView F off log) {A : Nat} {t : Nat} (hA : off + 1 < A)
    (he : F[A - 1]? = some e) (ht : e.term = t) :
    LogView F (A - 1) (⟨t, A, []⟩ :: log.drop (A - off)) := by
  have hA1 : A - 1 + 1 = A := by omega
  refine Or.inr ⟨by omega, e, he, ?_⟩
  rw [hA1, ht]
  congr 1
  rcases h with ⟨rfl, rfl⟩ | ⟨hoff, e', -, rfl⟩
  · rfl
  · obtain ⟨k, hk⟩ : ∃ k, A - off = k + 1 := ⟨A - off - 1, by omega⟩
    rw [hk, List.drop_succ_cons, List.drop_drop]
    congr 1
    omega

/-- The view of a log that ends at its anchor. -/
theorem anchor {A : Nat} {t : Nat} (hA : 2 ≤ A) (he : F[A - 1]? = some e) (ht : e.term = t) :
    LogView F (A - 1) (⟨t, A, []⟩ :: F.drop A) := by
  refine Or.inr ⟨by omega, e, he, ?_⟩
  rw [show A - 1 + 1 = A by omega, ht]

end LogView

/-! ## A node whose log is a view -/

namespace Node

variable {n : Node}

theorem lastLogIndexLocked_eq (h : LogView F n.logOffset n.log) :
    n.lastLogIndexLocked = F.length := h.length

theorem lastLogTermLocked_eq (h : LogView F n.logOffset n.log) :
    n.lastLogTermLocked = lastTerm LogEntry.term F := h.lastTerm_eq

/-- Looking an entry up, above the anchor. -/
theorem entryAtLocked_eq (h : LogView F n.logOffset n.log) (hidx : 0 < idx)
    (hoff : n.logOffset = 0 ∨ n.logOffset + 1 < idx) : n.entryAtLocked idx = F[idx - 1]? := by
  have hlen := h.length
  unfold entryAtLocked
  split
  · rename_i hout
    rw [List.getElem?_eq_none]
    omega
  · rw [h.getElem?_pos (by omega)]
    congr 1
    omega

/-- Looking a term up. -/
theorem term_entryAtLocked (h : LogView F n.logOffset n.log) (hidx : n.logOffset < idx) :
    (n.entryAtLocked idx).map LogEntry.term = (F[idx - 1]?).map LogEntry.term := by
  have hlen := h.length
  unfold entryAtLocked
  split
  · rename_i hout
    rw [List.getElem?_eq_none (l := F) (by omega)]
  · rw [h.term_getElem?]
    congr 2
    omega

theorem entryAtLocked_eq_none (hidx : idx ≤ n.logOffset) : n.entryAtLocked idx = none := by
  unfold entryAtLocked
  rw [if_pos (Or.inl hidx)]

theorem entryAtLocked_eq_none_iff (h : LogView F n.logOffset n.log) (hidx : n.logOffset < idx) :
    n.entryAtLocked idx = none ↔ F.length < idx := by
  have ht := congrArg Option.isNone (term_entryAtLocked h hidx)
  simp only [Option.isNone_map] at ht
  constructor
  · intro hn
    rw [hn] at ht
    have := List.getElem?_eq_none_iff.1 (Option.isNone_iff_eq_none.1 ht.symm)
    omega
  · intro hlt
    rw [List.getElem?_eq_none (l := F) (by omega)] at ht
    exact Option.isNone_iff_eq_none.1 ht

/-- If `f` succeeds throughout with the values `m`, it filters to `m`. -/
theorem filterMap_eq_of_map_eq {α β : Type} {f : α → Option β} {l : List α} {m : List β}
    (h : l.map f = m.map some) : l.filterMap f = m := by
  induction l generalizing m with
  | nil =>
      rw [List.map_nil, eq_comm, List.map_eq_nil_iff] at h
      rw [h, List.filterMap_nil]
  | cons a l ih =>
      cases m with
      | nil => exact absurd h (by simp)
      | cons b m =>
          rw [List.map_cons, List.map_cons, List.cons.injEq] at h
          rw [List.filterMap_cons_some h.1, ih h.2]

/-- The entries from `next` to the end are the rest of the log. -/
theorem filterMap_entryAtLocked (n : Node) {next : Nat} (hnext : n.logOffset < next) :
    (List.range' next (n.lastLogIndexLocked + 1 - next)).filterMap n.entryAtLocked =
      n.log.drop (next - n.logOffset - 1) := by
  have hmap : (List.range' next (n.lastLogIndexLocked + 1 - next)).map n.entryAtLocked =
      (n.log.drop (next - n.logOffset - 1)).map some := by
    apply List.ext_getElem?
    intro i
    rw [List.getElem?_map, List.getElem?_map, List.getElem?_drop]
    unfold lastLogIndexLocked
    rcases Nat.lt_or_ge i (n.logOffset + n.log.length + 1 - next) with hi | hi
    · rw [List.getElem?_range' hi]
      have hget : n.log[next - n.logOffset - 1 + i]? = n.entryAtLocked (next + 1 * i) := by
        unfold entryAtLocked
        rw [if_neg (by omega)]
        congr 1
        omega
      obtain ⟨x, hx⟩ : ∃ x, n.log[next - n.logOffset - 1 + i]? = some x :=
        ⟨_, List.getElem?_eq_getElem (by omega)⟩
      rw [hx, Option.map_some, ← hget, hx]
      rfl
    · rw [List.getElem?_eq_none (by simpa using hi), List.getElem?_eq_none (by omega)]
      rfl
  exact filterMap_eq_of_map_eq hmap

end Node

/-! ## Requests -/

/-- The request carries everything the log `F` of its sender holds from
`prevLogIndex` on.  It may start past the end of the log, and it may start with
the anchor of a compacted log; then no term is given for the previous entry. -/
def SentFrom (F : List LogEntry) (req : AppendEntriesRequest) : Prop :=
  (req.prevLogIndex ≤ F.length ∧ req.entries = F.drop req.prevLogIndex ∧
    (req.prevLogIndex = 0 ∨
      (F[req.prevLogIndex - 1]?).map LogEntry.term = some req.prevLogTerm)) ∨
  (F.length < req.prevLogIndex ∧ req.entries = [] ∧ req.prevLogTerm = 0) ∨
  (0 < req.prevLogIndex ∧ req.prevLogTerm = 0 ∧ ∃ e, F[req.prevLogIndex]? = some e ∧
    req.entries = ⟨e.term, req.prevLogIndex + 1, []⟩ :: F.drop (req.prevLogIndex + 1))

/-- The request for a peer starts above the offset, whatever `nextIndex` says. -/
theorem Node.buildAppendEntriesRequest_eq (n : Node) (p : String) :
    ∃ prev, n.logOffset ≤ prev ∧ (n.logOffset < n.nextIndex.at p → prev + 1 = n.nextIndex.at p) ∧
      (n.buildAppendEntriesRequest p).req = ⟨n.currentTerm, n.address, prev,
        if 0 < prev then ((n.entryAtLocked prev).map LogEntry.term).getD 0 else 0,
        n.log.drop (prev - n.logOffset), n.commitIndex⟩ := by
  refine ⟨(if n.nextIndex.at p ≤ n.logOffset then n.logOffset + 1 else n.nextIndex.at p) - 1,
    by split <;> omega, fun hlt => ?_, ?_⟩
  · rw [if_neg (by omega)]
    omega
  · unfold buildAppendEntriesRequest
    dsimp only
    rw [filterMap_entryAtLocked n (by split <;> omega)]
    congr 2
    · split
      · rename_i e he
        rw [he]
        rfl
      · rename_i he
        rw [he]
        rfl
    · split <;> omega

/-- **The leader's requests** carry the rest of its log. -/
theorem Node.sentFrom_buildAppendEntriesRequest {n : Node} (h : LogView F n.logOffset n.log)
    (p : String) : SentFrom F (n.buildAppendEntriesRequest p).req := by
  have hlast : n.lastLogIndexLocked = F.length := n.lastLogIndexLocked_eq h
  obtain ⟨prev, hprev, -, hreq⟩ := n.buildAppendEntriesRequest_eq p
  rw [hreq]
  rcases Nat.lt_or_ge n.logOffset prev with hlt | hge
  · -- above the offset the view is exact
    have hdrop : n.log.drop (prev - n.logOffset) = F.drop prev := by
      apply List.ext_getElem?
      intro i
      rw [List.getElem?_drop, List.getElem?_drop, h.getElem?_pos (Or.inr (by omega))]
      congr 1
      omega
    have hterm := term_entryAtLocked h hlt
    rcases Nat.lt_or_ge F.length prev with hbeyond | hin
    · refine Or.inr (Or.inl ⟨hbeyond, ?_, ?_⟩)
      · dsimp only
        rw [hdrop, List.drop_eq_nil_of_le hbeyond.le]
      · have hnone := (entryAtLocked_eq_none_iff h hlt).2 hbeyond
        simp [hnone]
    · refine Or.inl ⟨hin, hdrop, Or.inr ?_⟩
      obtain ⟨e, he⟩ : ∃ e, F[prev - 1]? = some e := ⟨_, List.getElem?_eq_getElem (by omega)⟩
      rw [he] at hterm
      obtain ⟨e', he', ht⟩ := Option.map_eq_some_iff.1 hterm
      dsimp only
      rw [he, he', if_pos (by omega)]
      simp [ht]
  · have hprev' : prev = n.logOffset := by omega
    subst hprev'
    have hnone := n.entryAtLocked_eq_none (le_refl n.logOffset)
    rcases h with ⟨h0, hlog⟩ | ⟨hoff, e, he, hlog⟩
    · refine Or.inl ⟨by simp [h0], ?_, Or.inl h0⟩
      simp [h0, hlog]
    · refine Or.inr (Or.inr ⟨hoff, by simp [hnone], e, he, ?_⟩)
      simp [hlog]

/-- From index `idx` on, `E` is what `L` holds: the same terms, and above the
offset `off` the same entries. -/
def Matches (L : List LogEntry) (off idx : Nat) (E : List LogEntry) : Prop :=
  ∀ j, (E[j]?).map LogEntry.term = (L[idx - 1 + j]?).map LogEntry.term ∧
    (off = 0 ∨ off + 1 ≤ idx - 1 + j → E[j]? = L[idx - 1 + j]?)

theorem SentFrom.matches {req : AppendEntriesRequest} (h : SentFrom F req)
    (hoff : (req.prevLogIndex ≤ F.length ∧ req.entries = F.drop req.prevLogIndex) ∨
      req.prevLogIndex ≤ off) : Matches F off (req.prevLogIndex + 1) req.entries := by
  have hreal : req.entries = F.drop req.prevLogIndex →
      Matches F off (req.prevLogIndex + 1) req.entries := by
    intro heq j
    rw [heq, List.getElem?_drop]
    exact ⟨rfl, fun _ => rfl⟩
  rcases h with ⟨-, heq, -⟩ | ⟨hlt, heq, -⟩ | ⟨hpos, -, e, he, heq⟩
  · exact hreal heq
  · exact hreal (by rw [heq, List.drop_eq_nil_of_le hlt.le])
  · rcases hoff with ⟨-, heq'⟩ | hoff
    · exact hreal heq'
    · intro j
      rw [heq]
      cases j with
      | zero => simp [he]; omega
      | succ j =>
          rw [List.getElem?_cons_succ, List.getElem?_drop]
          have : req.prevLogIndex + 1 - 1 + (j + 1) = req.prevLogIndex + 1 + j := by omega
          rw [this]
          exact ⟨rfl, fun _ => rfl⟩

theorem Matches.tail {E : List LogEntry} (h : Matches L off idx (e :: E)) (hidx : 0 < idx) :
    Matches L off (idx + 1) E := by
  intro j
  have := h (j + 1)
  rw [List.getElem?_cons_succ, show idx - 1 + (j + 1) = idx + 1 - 1 + j by omega] at this
  exact this

theorem Matches.eq_drop {E : List LogEntry} (h : Matches L off idx E)
    (hoff : off = 0 ∨ off + 1 ≤ idx - 1) : E = L.drop (idx - 1) := by
  apply List.ext_getElem?
  intro j
  rw [List.getElem?_drop]
  exact (h j).2 (by omega)

theorem Matches.length {E : List LogEntry} (h : Matches L off idx E) :
    E.length = L.length - (idx - 1) := by
  have hiff : ∀ j, E[j]? = none ↔ L[idx - 1 + j]? = none := by
    intro j
    rw [← Option.map_eq_none_iff (f := LogEntry.term), (h j).1, Option.map_eq_none_iff]
  simp only [List.getElem?_eq_none_iff] at hiff
  have h1 := (hiff E.length).1 (le_refl _)
  have h2 := (hiff (L.length - (idx - 1))).2 (by omega)
  omega

/-! ## The consistency check -/

/-- Two logs that share the term at a position agree up to it. -/
def AgreeOnTerms (F L : List LogEntry) : Prop :=
  ∀ i x y, F[i]? = some x → L[i]? = some y → x.term = y.term → F.take (i + 1) = L.take (i + 1)

/-- A request that passes the check starts inside the compacted part, or where both
logs agree. -/
theorem Node.agree_of_checkPrev {n : Node} {req : AppendEntriesRequest}
    (hview : LogView F n.logOffset n.log) (hagree : AgreeOnTerms F L)
    (hpos : ∀ (i : Nat) (e : LogEntry), F[i]? = some e → 0 < e.term) (hsent : SentFrom L req)
    (hcheck : n.checkPrev req = none) :
    req.prevLogIndex ≤ n.logOffset ∨ n.logOffset < req.prevLogIndex ∧
      req.prevLogIndex ≤ F.length ∧ req.prevLogIndex ≤ L.length ∧
      req.entries = L.drop req.prevLogIndex ∧ F.take req.prevLogIndex = L.take req.prevLogIndex := by
  rcases Nat.lt_or_ge n.logOffset req.prevLogIndex with hoff | hoff
  · refine Or.inr ⟨hoff, ?_⟩
    unfold Node.checkPrev at hcheck
    rw [if_pos hoff] at hcheck
    have hterm := n.term_entryAtLocked hview hoff
    split at hcheck
    · exact absurd hcheck (by simp)
    · rename_i entry hentry
      rw [hentry] at hterm
      obtain ⟨x, hx, hxt⟩ := Option.map_eq_some_iff.1 hterm.symm
      have hlt := (List.getElem?_eq_some_iff.1 hx).1
      have hprev : entry.term = req.prevLogTerm := by
        by_contra hne
        rw [if_pos hne] at hcheck
        exact absurd hcheck (by simp)
      have hxpos := hpos _ x hx
      -- only a request that starts with a real entry gives a term
      rcases hsent with ⟨hle, hent, hzero | hL⟩ | ⟨-, -, h0⟩ | ⟨-, h0, -⟩
      · omega
      · obtain ⟨y, hy, hyt⟩ := Option.map_eq_some_iff.1 hL
        have htake := hagree _ x y hx hy (by rw [hxt, hyt, hprev])
        rw [Nat.sub_add_cancel (by omega)] at htake
        exact ⟨by omega, hle, hent, htake⟩
      · omega
      · omega
  · exact Or.inl hoff

/-- A rejection does not report success. -/
theorem Node.success_of_checkPrev {n : Node} {req : AppendEntriesRequest}
    {rejection : AppendEntriesReply}
    (h : n.checkPrev req = some rejection) : rejection.success = false := by
  unfold Node.checkPrev at h
  split at h
  · split at h
    · rw [← Option.some.inj h]
    · split at h
      · rw [← Option.some.inj h]
      · exact absurd h (by simp)
  · exact absurd h (by simp)

/-! ## Merging -/

/-- `skipCompacted` moves on to the first index above the offset, or past the
last entry. -/
theorem skipCompacted_spec {E : List LogEntry} (h : Matches L off idx E) (hidx : 0 < idx) :
    ∃ idx' E', skipCompacted off idx E = (idx', E') ∧ idx ≤ idx' ∧ Matches L off idx' E' ∧
      idx' - 1 + E'.length = idx - 1 + E.length ∧ (E' = [] ∨ off < idx') ∧
      (idx' ≤ idx ∨ idx' ≤ off + 1) := by
  induction E generalizing idx with
  | nil => exact ⟨idx, [], rfl, le_refl _, h, rfl, Or.inl rfl, Or.inl (le_refl _)⟩
  | cons e E ih =>
      unfold skipCompacted
      split
      · rename_i hle
        obtain ⟨idx', E', heq, hle', hm, hlen, hend, hmax⟩ := ih (h.tail hidx) (by omega)
        refine ⟨idx', E', heq, by omega, hm, ?_, hend, by omega⟩
        rw [hlen, List.length_cons]
        omega
      · rename_i hgt
        exact ⟨idx, e :: E, rfl, le_refl _, h, rfl, Or.inr (by omega), Or.inl (le_refl _)⟩

/-- How the walk of `mergeLoop` over a request from a leader with log `L` ends, on
a node whose full log is `F`. -/
inductive MergeResult (F L : List LogEntry) (off M : Nat) (s : Locked) :
    Locked × List LogEntry → Prop
  /-- Everything the request carries was there. -/
  | covered (hlen : M ≤ F.length) (h : F.take M = L.take M) : MergeResult F L off M s (s, [])
  /-- The log ended first. -/
  | extend (hlt : F.length < L.length) (h : F = L.take F.length) :
      MergeResult F L off M s (s, L.drop F.length)
  /-- There was a conflict at `idx`. -/
  | conflict (idx : Nat) (hidx : 0 < idx) (hoff : off = 0 ∨ off + 1 < idx) (hF : idx ≤ F.length)
      (hL : idx ≤ L.length) (h : F.take (idx - 1) = L.take (idx - 1))
      (hne : F.take idx ≠ L.take idx) :
      MergeResult F L off M s ((s.write [.truncateLogFrom idx]).modify fun n =>
        { n with log := n.log.take (idx - n.logOffset - 1) }, L.drop (idx - 1))

theorem Locked.mergeLoop_spec {s : Locked} {E : List LogEntry}
    (hview : LogView F s.node.logOffset s.node.log) (hagree : AgreeOnTerms F L)
    (hanchor : s.node.logOffset = 0 ∨ F.take (s.node.logOffset + 1) = L.take (s.node.logOffset + 1))
    (hm : Matches L s.node.logOffset idx E) (hpos : 0 < idx)
    (hidx : E = [] ∨ s.node.logOffset < idx)
    (hF : idx - 1 ≤ F.length) (hpre : F.take (idx - 1) = L.take (idx - 1)) :
    MergeResult F L s.node.logOffset (idx - 1 + E.length) s (s.mergeLoop idx E) := by
  induction E generalizing idx with
  | nil => exact .covered (by simpa using hF) (by simpa using hpre)
  | cons e E ih =>
      have hoff : s.node.logOffset < idx := by simpa using hidx
      have hterm := Node.term_entryAtLocked hview hoff
      have he : (L[idx - 1]?).map LogEntry.term = some e.term := by
        have := (hm 0).1
        simpa using this.symm
      obtain ⟨y, hy, hyt⟩ := Option.map_eq_some_iff.1 he
      have hyL := (List.getElem?_eq_some_iff.1 hy).1
      unfold mergeLoop
      split
      · -- the log ends here
        rename_i hnone
        have hlen := (Node.entryAtLocked_eq_none_iff hview hoff).1 hnone
        have hlenF : F.length = idx - 1 := by omega
        have hE : e :: E = L.drop F.length := by
          rw [hlenF]
          refine hm.eq_drop ?_
          rcases Nat.eq_zero_or_pos s.node.logOffset with h0 | h0
          · exact Or.inl h0
          · have := hview.offset_lt h0
            omega
        rw [hE]
        refine .extend (by omega) ?_
        rw [← hlenF, List.take_length] at hpre
        exact hpre
      · rename_i existing hex
        rw [hex] at hterm
        obtain ⟨x, hx, hxt⟩ := Option.map_eq_some_iff.1 hterm.symm
        have hxF := (List.getElem?_eq_some_iff.1 hx).1
        have hidx1 : idx - 1 + 1 = idx := by omega
        split
        · rename_i hne
          -- the anchor itself is never in conflict
          have hne' : F.take idx ≠ L.take idx := by
            intro heq
            have hxy : F[idx - 1]? = L[idx - 1]? :=
              ReplicatedLog.getElem?_eq_of_take_eq heq (by omega)
            rw [hx, hy, Option.some.injEq] at hxy
            exact hne (by rw [← hxt, ← hyt, hxy])
          have hoff' : s.node.logOffset = 0 ∨ s.node.logOffset + 1 < idx := by
            rcases hanchor with h0 | ha
            · exact Or.inl h0
            · rcases Nat.lt_or_ge (s.node.logOffset + 1) idx with hlt | hge
              · exact Or.inr hlt
              · rw [show s.node.logOffset + 1 = idx by omega] at ha
                exact absurd ha hne'
          rw [hm.eq_drop (by omega)]
          exact .conflict idx hpos hoff' (by omega) (by omega) hpre hne'
        · rename_i heq
          rw [not_not] at heq
          have htake := hagree (idx - 1) x y hx hy (by rw [hxt, hyt, heq])
          rw [hidx1] at htake
          have := ih (hm.tail hpos) (by omega) (Or.inr (by omega)) (by omega) (by
            rw [Nat.add_sub_cancel]; exact htake)
          rw [List.length_cons, show idx - 1 + (E.length + 1) = idx + 1 - 1 + E.length by omega]
          exact this

theorem Locked.mergeEntriesLocked_nil (s : Locked) (k : Nat) : s.mergeEntriesLocked k [] = s := rfl

theorem Locked.ite_mergeEntriesLocked (s : Locked) (k : Nat) (es : List LogEntry) :
    (if es = [] then s else s.mergeEntriesLocked k es) = s.mergeEntriesLocked k es := by
  split
  · rename_i hes
    rw [hes, Locked.mergeEntriesLocked_nil]
  · rfl

end B5KvStore
