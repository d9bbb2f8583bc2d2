import B5KvStore.Raft.Recovery
import Mathlib.Data.List.DropRight
import Mathlib.Order.Bounds.Basic

/-!
# The entries of a term

Along a log terms do not decrease, so the entries of a term stand together.  Both lookups go
through the log from its end.  `lastIndexOfTermLocked` passes over the entries of later terms;
`firstIndexOfTermLocked` does not, and stops at once unless the term is that of the last entry.

* `earlierTerms` — the log without the entries of its last term.
* `Node.firstIndexLoop_eq`, `Node.lastIndexLoop_eq_some`, `Node.lastIndexLoop_eq_none` — the two
  loops.
* `term_lookups_iff` — when both lookups are right.
-/

namespace B5KvStore

open ReplicatedLog (lastTerm)

/-- The log holds an entry of term `t`. -/
def HasTerm (L : List LogEntry) (t : Nat) : Prop := ∃ e ∈ L, e.term = t

/-- The log without the entries of its last term. -/
def earlierTerms (F : List LogEntry) : List LogEntry :=
  F.rdropWhile fun e => e.term = lastTerm LogEntry.term F

/-- Terms do not decrease along the log. -/
def TermsSorted (L : List LogEntry) : Prop := L.Pairwise fun e e' => e.term ≤ e'.term

variable {L F : List LogEntry} {t : Nat} {e : LogEntry}

theorem HasTerm.ne_nil (h : HasTerm L t) : L ≠ [] := by
  obtain ⟨e, he, -⟩ := h
  exact List.ne_nil_of_mem he

theorem TermsSorted.le (h : TermsSorted L) {i j : Nat} {x y : LogEntry} (hx : L[i]? = some x)
    (hy : L[j]? = some y) (hij : i ≤ j) : x.term ≤ y.term := by
  obtain ⟨hi, rfl⟩ := List.getElem?_eq_some_iff.1 hx
  obtain ⟨hj, rfl⟩ := List.getElem?_eq_some_iff.1 hy
  rcases hij.eq_or_lt with rfl | hlt
  · exact le_refl _
  · exact List.pairwise_iff_getElem.1 h i j hi hj hlt

/-! ## The scan for the first entry -/

namespace Node

theorem firstIndexLoop_append (G : List LogEntry) {k : Nat} (hk : k ≤ F.length) :
    firstIndexLoop (F ++ G) t k = firstIndexLoop F t k := by
  induction k with
  | zero => rfl
  | succ k ih =>
      unfold firstIndexLoop
      rw [List.getElem?_append_left (by omega), ih (by omega)]

/-- The scan drops the entries of the term from the end of the log. -/
theorem firstIndexLoop_eq (F : List LogEntry) (t : Nat) :
    firstIndexLoop F t F.length = (F.rdropWhile fun e => e.term = t).length := by
  induction F using List.reverseRecOn with
  | nil => rfl
  | append_singleton F e ih =>
      rw [List.length_append, List.length_singleton, List.rdropWhile_concat]
      unfold firstIndexLoop
      rw [List.getElem?_append_right (le_refl _), Nat.sub_self, List.getElem?_cons_zero,
        Option.map_some, firstIndexLoop_append [e] (le_refl _), ih]
      by_cases he : e.term = t
      · rw [if_pos (by rw [he]), if_pos (by simpa using he)]
      · rw [if_neg (by simpa using he), if_neg (by simpa using he), List.length_append,
          List.length_singleton]

/-- It drops nothing when the last entry has another term. -/
theorem firstIndexLoop_of_ne (h : F ≠ []) (ht : t ≠ lastTerm LogEntry.term F) :
    firstIndexLoop F t F.length = F.length := by
  obtain ⟨e, he, hterm⟩ := ReplicatedLog.exists_last LogEntry.term h
  obtain ⟨k, hk⟩ : ∃ k, F.length = k + 1 := ⟨F.length - 1, by
    have := List.length_pos_iff.2 h
    omega⟩
  rw [hk] at he ⊢
  unfold firstIndexLoop
  rw [Nat.add_sub_cancel] at he
  rw [he, Option.map_some, if_neg (by rw [← hterm]; simpa using Ne.symm ht)]

end Node

theorem earlierTerms_isPrefix (F : List LogEntry) : earlierTerms F <+: F :=
  List.rdropWhile_prefix _ _

/-- The last of the earlier entries is not of the last term. -/
theorem exists_last_earlierTerms (hne : earlierTerms F ≠ []) :
    ∃ e, F[(earlierTerms F).length - 1]? = some e ∧
      e.term = lastTerm LogEntry.term (earlierTerms F) ∧ e.term ≠ lastTerm LogEntry.term F := by
  obtain ⟨e, he, hterm⟩ := ReplicatedLog.exists_last LogEntry.term hne
  have hlen : 0 < (earlierTerms F).length := List.length_pos_iff.2 hne
  refine ⟨e, ?_, hterm.symm, fun heq => ?_⟩
  · rw [← he]
    exact ReplicatedLog.getElem?_eq_of_take_eq
      (ReplicatedLog.take_eq_of_isPrefix (earlierTerms_isPrefix F) (le_refl _)) (by omega)
  · have hlast : (earlierTerms F).getLast hne = e := by
      rw [← Option.some.injEq, ← List.getLast?_eq_some_getLast hne, List.getLast?_eq_getElem?, he]
    refine List.rdropWhile_last_not _ _ hne ?_
    show decide (((earlierTerms F).getLast hne).term = _) = true
    rw [hlast]
    exact decide_eq_true heq

/-- The entries of the last term are those after the earlier ones. -/
theorem TermsSorted.term_eq_lastTerm_iff (h : TermsSorted F) {i : Nat} (he : F[i]? = some e) :
    e.term = lastTerm LogEntry.term F ↔ (earlierTerms F).length ≤ i := by
  have hi := (List.getElem?_eq_some_iff.1 he).1
  constructor
  · intro hterm
    by_contra hlt
    have hne : earlierTerms F ≠ [] := List.length_pos_iff.1 (by omega)
    obtain ⟨x, hx, -, hxlast⟩ := exists_last_earlierTerms hne
    obtain ⟨y, hy, hylast⟩ := ReplicatedLog.exists_last LogEntry.term
      (List.ne_nil_of_mem (List.mem_of_getElem? he))
    have hlen := (List.getElem?_eq_some_iff.1 hx).1
    have h1 := h.le he hx (by omega)
    have h2 := h.le hx hy (by omega)
    omega
  · intro hle
    have hsplit : earlierTerms F ++ F.rtakeWhile (fun e => e.term = lastTerm LogEntry.term F) = F :=
      List.rdropWhile_append_rtakeWhile
    rw [← hsplit, List.getElem?_append_right hle] at he
    simpa using List.mem_rtakeWhile_imp (List.mem_of_getElem? he)

/-! ## The scan for the last entry -/

namespace Node

theorem lastIndexLoop_eq_some {k i : Nat} (h : lastIndexLoop L t k = some i) :
    (∃ e, L[i]? = some e ∧ e.term = t) ∧
      ∀ j e, i < j → j < k → L[j]? = some e → e.term ≠ t := by
  induction k with
  | zero => exact absurd h (by simp [lastIndexLoop])
  | succ k ih =>
      unfold lastIndexLoop at h
      cases hx : L[k]? with
      | none => simp [hx] at h
      | some x =>
          simp only [hx] at h
          by_cases ht : x.term = t
          · rw [if_pos ht, Option.some.injEq] at h
            subst h
            exact ⟨⟨x, hx, ht⟩, fun j e hj hk => absurd hk (by omega)⟩
          · rw [if_neg ht] at h
            by_cases hlt : x.term < t
            · exact absurd h (by rw [if_pos hlt]; simp)
            · rw [if_neg hlt] at h
              obtain ⟨hfound, hlater⟩ := ih h
              refine ⟨hfound, fun j e hj hk he => ?_⟩
              rcases Nat.lt_succ_iff_lt_or_eq.1 hk with hlt' | rfl
              · exact hlater j e hj hlt' he
              · rw [hx] at he
                exact Option.some.inj he ▸ ht

/-- The scan may stop at an entry of a lower term, as those before it are not higher. -/
theorem lastIndexLoop_eq_none (hsorted : TermsSorted L) {k : Nat} (hk : k ≤ L.length)
    (h : lastIndexLoop L t k = none) {i : Nat} (hi : i < k) (he : L[i]? = some e) :
    e.term ≠ t := by
  induction k with
  | zero => omega
  | succ k ih =>
      unfold lastIndexLoop at h
      obtain ⟨x, hx⟩ : ∃ x, L[k]? = some x := ⟨_, List.getElem?_eq_getElem (by omega)⟩
      simp only [hx] at h
      have hne : x.term ≠ t := by
        intro hxt
        rw [if_pos hxt] at h
        exact absurd h (by simp)
      rw [if_neg hne] at h
      by_cases hxt : x.term < t
      · have := hsorted.le he hx (by omega)
        omega
      · rw [if_neg hxt] at h
        rcases Nat.lt_succ_iff_lt_or_eq.1 hi with hlt | rfl
        · exact ih (by omega) h hlt
        · rw [hx] at he
          exact Option.some.inj he ▸ hne

/-! ## The lookups -/

variable {n : Node}

/-- The indices of the entries of term `t`. -/
def termIndices (n : Node) (t : Nat) : Set Nat := {i | ∃ e ∈ n.log, e.index = i ∧ e.term = t}

/-- Both lookups are right for a term that occurs, and the second one reports a term that does
not. -/
def LookupsRight (n : Node) (t : Nat) : Prop :=
  (HasTerm n.log t → IsLeast (n.termIndices t) (n.firstIndexOfTermLocked t) ∧
    IsGreatest (n.termIndices t) (n.lastIndexOfTermLocked t)) ∧
  (¬ HasTerm n.log t → n.lastIndexOfTermLocked t = 0)

theorem Positional.mem_termIndices (h : n.Positional) {i : Nat} :
    i ∈ n.termIndices t ↔ ∃ k e, n.log[k]? = some e ∧ i = n.logOffset + k + 1 ∧ e.term = t := by
  constructor
  · rintro ⟨e, he, rfl, hterm⟩
    obtain ⟨k, hk⟩ := List.mem_iff_getElem?.1 he
    exact ⟨k, e, hk, h k e hk, hterm⟩
  · rintro ⟨k, e, hk, rfl, hterm⟩
    exact ⟨e, List.mem_of_getElem? hk, h k e hk, hterm⟩

/-- The second lookup is always right. -/
theorem lastIndexOfTermLocked_spec (hpos : n.Positional) (hsorted : TermsSorted n.log) (t : Nat) :
    (HasTerm n.log t → IsGreatest (n.termIndices t) (n.lastIndexOfTermLocked t)) ∧
      (¬ HasTerm n.log t → n.lastIndexOfTermLocked t = 0) := by
  unfold lastIndexOfTermLocked
  cases hloop : lastIndexLoop n.log t n.log.length with
  | none =>
      refine ⟨fun ⟨e, he, hterm⟩ => ?_, fun _ => rfl⟩
      obtain ⟨k, hk⟩ := List.mem_iff_getElem?.1 he
      exact absurd hterm (lastIndexLoop_eq_none hsorted (le_refl _) hloop
        (List.getElem?_eq_some_iff.1 hk).1 hk)
  | some i =>
      obtain ⟨⟨e, he, hterm⟩, hlater⟩ := lastIndexLoop_eq_some hloop
      refine ⟨fun _ => ⟨hpos.mem_termIndices.2 ⟨i, e, he, rfl, hterm⟩, fun j hj => ?_⟩,
        fun hnot => absurd ⟨e, List.mem_of_getElem? he, hterm⟩ hnot⟩
      obtain ⟨k, x, hx, rfl, hxt⟩ := hpos.mem_termIndices.1 hj
      by_contra hlt
      dsimp only at hlt
      exact hlater k x (by omega) (List.getElem?_eq_some_iff.1 hx).1 hx hxt

/-- The first lookup is right for the last term. -/
theorem firstIndexOfTermLocked_of_last (hpos : n.Positional) (hsorted : TermsSorted n.log)
    (hne : n.log ≠ []) (ht : t = lastTerm LogEntry.term n.log) :
    IsLeast (n.termIndices t) (n.firstIndexOfTermLocked t) := by
  subst ht
  have hfirst : n.firstIndexOfTermLocked (lastTerm LogEntry.term n.log) =
      n.logOffset + (earlierTerms n.log).length + 1 := by
    unfold firstIndexOfTermLocked
    rw [firstIndexLoop_eq]
    rfl
  rw [hfirst]
  obtain ⟨x, hx, hxlast⟩ := ReplicatedLog.exists_last LogEntry.term hne
  have hlast := (hsorted.term_eq_lastTerm_iff hx).1 hxlast.symm
  have hlen : 0 < n.log.length := List.length_pos_iff.2 hne
  obtain ⟨e, he⟩ : ∃ e, n.log[(earlierTerms n.log).length]? = some e :=
    ⟨_, List.getElem?_eq_getElem (by omega)⟩
  refine ⟨hpos.mem_termIndices.2 ⟨_, e, he, rfl, (hsorted.term_eq_lastTerm_iff he).2 (le_refl _)⟩,
    fun j hj => ?_⟩
  obtain ⟨k, y, hy, rfl, hyt⟩ := hpos.mem_termIndices.1 hj
  have := (hsorted.term_eq_lastTerm_iff hy).1 hyt
  omega

/-- For an earlier term it is one past the end of the log. -/
theorem firstIndexOfTermLocked_of_earlier (hne : n.log ≠ [])
    (ht : t ≠ lastTerm LogEntry.term n.log) :
    n.firstIndexOfTermLocked t = n.lastLogIndexLocked + 1 := by
  unfold firstIndexOfTermLocked lastLogIndexLocked
  rw [firstIndexLoop_of_ne hne ht]

end Node

/-- **The lookups** are right for the last term of the log and for terms it does not hold, and
for no other term. -/
theorem term_lookups_iff (n : Node) (t : Nat) (hpos : n.Positional) (hsorted : TermsSorted n.log) :
    n.LookupsRight t ↔ (HasTerm n.log t → t = lastTerm LogEntry.term n.log) := by
  obtain ⟨hlast, hnone⟩ := n.lastIndexOfTermLocked_spec hpos hsorted t
  constructor
  · rintro ⟨hright, -⟩ hterm
    by_contra hne
    have hmem := (hright hterm).1.1
    rw [Node.firstIndexOfTermLocked_of_earlier hterm.ne_nil hne] at hmem
    obtain ⟨k, x, hx, hk, -⟩ := hpos.mem_termIndices.1 hmem
    have := (List.getElem?_eq_some_iff.1 hx).1
    unfold Node.lastLogIndexLocked at hk
    omega
  · intro h
    exact ⟨fun hterm => ⟨Node.firstIndexOfTermLocked_of_last hpos hsorted hterm.ne_nil (h hterm),
      hlast hterm⟩, hnone⟩

/-- A node with entries of the terms `1` and `2`, whose first entry has been compacted. -/
def twoTerms : Node :=
  { newNode "a" "a" ["b", "c"] 3 Disk.empty with
    log := [⟨1, 2, []⟩, ⟨1, 3, []⟩, ⟨2, 4, []⟩]
    logOffset := 1 }

theorem positional_twoTerms : twoTerms.Positional := by
  intro k e he
  rcases k with - | - | - | k
  · exact Option.some.inj he ▸ rfl
  · exact Option.some.inj he ▸ rfl
  · exact Option.some.inj he ▸ rfl
  · exact absurd he (by simp [twoTerms])

theorem sorted_twoTerms : TermsSorted twoTerms.log := by
  unfold TermsSorted twoTerms
  decide

/-- Both lookups of the last term. -/
theorem term_lookups_twoTerms : twoTerms.LookupsRight 2 ∧
    twoTerms.firstIndexOfTermLocked 2 = 4 ∧ twoTerms.lastIndexOfTermLocked 2 = 4 :=
  ⟨(term_lookups_iff twoTerms 2 positional_twoTerms sorted_twoTerms).2 fun _ => rfl, rfl, rfl⟩

/-- The first entry of term `1` has index `2`; the lookup gives `5`, where there is no entry. -/
theorem term_lookups_miss : twoTerms.Positional ∧ TermsSorted twoTerms.log ∧
    HasTerm twoTerms.log 1 ∧ twoTerms.firstIndexOfTermLocked 1 = 5 ∧ ¬ twoTerms.LookupsRight 1 := by
  have hterm : HasTerm twoTerms.log 1 := ⟨⟨1, 2, []⟩, by decide, rfl⟩
  refine ⟨positional_twoTerms, sorted_twoTerms, hterm, rfl, fun h => ?_⟩
  obtain ⟨k, e, hk, hidx, -⟩ := positional_twoTerms.mem_termIndices.1 (h.1 hterm).1.1
  have hlt := (List.getElem?_eq_some_iff.1 hk).1
  have hlen : twoTerms.log.length = 3 := rfl
  have hfirst : 5 = 1 + k + 1 := hidx
  omega

end B5KvStore
