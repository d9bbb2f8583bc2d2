import Mathlib.Data.List.Nodup
import Mathlib.Data.List.Range
import Mathlib.Data.Nat.Notation

/-!
# Linearizability

Calls overlap in time, and each of them may still be under way.  A history is linearizable
if all the calls that have returned, and some of those that have not, can be put in one
sequence that a sequential object could have gone through: with the results that were
returned, and with no call before one that had returned when it was made.

* `Call`, `Call.Precedes` — calls and their order in real time.
* `Legal` — a sequence of calls is one of the sequential object.
* `Linearizable` — the definition.
* `Schedule`, `Schedule.linearizable` — a criterion: the updates in some order, and for every
  read the number of updates it has seen.
-/

namespace Linearizability

variable {σ ι ρ : Type*}

/-- How a call has ended, as far as its caller can tell. -/
inductive Outcome (ρ : Type*) where
  /-- There is no answer: it may have taken effect, now or later, or not. -/
  | pending
  /-- It was turned down and has no effect. -/
  | failed
  | returned (time : ℕ) (result : ρ)

/-- One call of an operation of the object. -/
structure Call (ι ρ : Type*) where
  op : ι
  invoked : ℕ
  outcome : Outcome ρ

/-- The first call had returned when the second one was made. -/
def Call.Precedes (x y : Call ι ρ) : Prop :=
  ∃ t r, x.outcome = .returned t r ∧ t < y.invoked

/-- The state a sequence of calls leads to. -/
def after (spec : σ → ι → σ × ρ) (s : σ) (xs : List (Call ι ρ)) : σ :=
  xs.foldl (fun s x => (spec s x.op).1) s

/-- Whatever has been returned is what the object returns when the calls are made one after the
other. -/
def Legal (spec : σ → ι → σ × ρ) : σ → List (Call ι ρ) → Prop
  | _, [] => True
  | s, x :: xs => (∀ t r, x.outcome = .returned t r → r = (spec s x.op).2) ∧
      Legal spec (spec s x.op).1 xs

/-- One after the other, the calls at these positions explain the history. -/
structure Linearization (spec : σ → ι → σ × ρ) (s₀ : σ) (calls : List (Call ι ρ))
    (order : List ℕ) : Prop where
  nodup : order.Nodup
  made : ∀ i ∈ order, ∃ x, calls[i]? = some x ∧ x.outcome ≠ .failed
  complete : ∀ i x t r, calls[i]? = some x → x.outcome = .returned t r → i ∈ order
  realTime : order.Pairwise fun i j => ∀ x y, calls[i]? = some x → calls[j]? = some y →
    ¬ y.Precedes x
  legal : Legal spec s₀ (order.filterMap fun i => calls[i]?)

/-- **Linearizability** of a history, for an object with this behaviour and initial state. -/
def Linearizable (spec : σ → ι → σ × ρ) (s₀ : σ) (calls : List (Call ι ρ)) : Prop :=
  ∃ order, Linearization spec s₀ calls order

section

variable {spec : σ → ι → σ × ρ} {s : σ} {xs ys : List (Call ι ρ)}

theorem after_append : after spec s (xs ++ ys) = after spec (after spec s xs) ys :=
  List.foldl_append ..

theorem legal_append :
    Legal spec s (xs ++ ys) ↔ Legal spec s xs ∧ Legal spec (after spec s xs) ys := by
  induction xs generalizing s with
  | nil => simp [Legal, after]
  | cons x xs ih =>
      rw [List.cons_append, Legal, Legal, ih, and_assoc]
      rfl

/-- Calls that do not change the state. -/
theorem after_of_reads (h : ∀ x ∈ xs, ∀ s, (spec s x.op).1 = s) : after spec s xs = s := by
  induction xs generalizing s with
  | nil => rfl
  | cons x xs ih =>
      rw [after, List.foldl_cons, h x (List.mem_cons_self ..)]
      exact ih fun y hy => h y (List.mem_cons_of_mem x hy)

theorem legal_of_reads (h : ∀ x ∈ xs, ∀ s, (spec s x.op).1 = s)
    (hres : ∀ x ∈ xs, ∀ t r, x.outcome = .returned t r → r = (spec s x.op).2) :
    Legal spec s xs := by
  induction xs with
  | nil => trivial
  | cons x xs ih =>
      refine ⟨hres x (List.mem_cons_self ..), ?_⟩
      rw [h x (List.mem_cons_self ..)]
      exact ih (fun y hy => h y (List.mem_cons_of_mem x hy))
        fun y hy => hres y (List.mem_cons_of_mem x hy)

end

/-! ## Updates and reads -/

/-- The call at position `i` had returned when the one at position `j` was made. -/
def PrecedesAt (calls : List (Call ι ρ)) (i j : ℕ) : Prop :=
  ∃ x y, calls[i]? = some x ∧ calls[j]? = some y ∧ x.Precedes y

/-- The state after the first `p` updates. -/
def stateAfter (spec : σ → ι → σ × ρ) (s₀ : σ) (calls : List (Call ι ρ)) (updates : List ℕ)
    (p : ℕ) : σ :=
  after spec s₀ ((updates.take p).filterMap fun i => calls[i]?)

theorem stateAfter_succ {spec : σ → ι → σ × ρ} {s₀ : σ} {calls : List (Call ι ρ)}
    {updates : List ℕ} {p i : ℕ} {x : Call ι ρ} (hp : updates[p]? = some i)
    (hi : calls[i]? = some x) : stateAfter spec s₀ calls updates (p + 1) =
      (spec (stateAfter spec s₀ calls updates p) x.op).1 := by
  unfold stateAfter
  rw [List.take_add_one, hp, List.filterMap_append, after_append]
  simp [after, hi]

/-- The updates of a history in the order in which they take effect, and for every read that has
returned the number of updates it has seen.  Calls are listed in the order in which they were
made. -/
structure Schedule (spec : σ → ι → σ × ρ) (s₀ : σ) (calls : List (Call ι ρ)) (updates : List ℕ)
    (point : ℕ → Option ℕ) : Prop where
  nodup : updates.Nodup
  made : ∀ i ∈ updates, ∃ x, calls[i]? = some x ∧ x.outcome ≠ .failed
  reads : ∀ i p, point i = some p → p ≤ updates.length ∧ i ∉ updates ∧
    ∃ x, calls[i]? = some x ∧ x.outcome ≠ .failed ∧ ∀ s, (spec s x.op).1 = s
  complete : ∀ i x t r, calls[i]? = some x → x.outcome = .returned t r →
    i ∈ updates ∨ ∃ p, point i = some p
  invoked : ∀ (i j : ℕ) (x y : Call ι ρ), i < j → calls[i]? = some x → calls[j]? = some y →
    x.invoked ≤ y.invoked
  returned : ∀ x ∈ calls, ∀ t r, x.outcome = .returned t r → x.invoked ≤ t
  updated : ∀ p i x t r, updates[p]? = some i → calls[i]? = some x → x.outcome = .returned t r →
    r = (spec (stateAfter spec s₀ calls updates p) x.op).2
  read : ∀ p i x t r, point i = some p → calls[i]? = some x → x.outcome = .returned t r →
    r = (spec (stateAfter spec s₀ calls updates p) x.op).2
  update_update : updates.Pairwise fun i j => ¬ PrecedesAt calls j i
  update_read : ∀ p q i j, point i = some p → updates[q]? = some j →
    (q < p → ¬ PrecedesAt calls i j) ∧ (p ≤ q → ¬ PrecedesAt calls j i)
  read_read : ∀ p q i j, point i = some p → point j = some q → PrecedesAt calls i j → p ≤ q

namespace Schedule

variable {spec : σ → ι → σ × ρ} {s₀ : σ} {calls : List (Call ι ρ)} {updates : List ℕ}
  {point : ℕ → Option ℕ}

/-- The reads that have seen `p` updates, in the order in which they were made. -/
def readsAt (calls : List (Call ι ρ)) (point : ℕ → Option ℕ) (p : ℕ) : List ℕ :=
  (List.range calls.length).filter fun i => point i = some p

/-- The reads that have seen `p` updates, and the next update. -/
def segment (calls : List (Call ι ρ)) (updates : List ℕ) (point : ℕ → Option ℕ) (p : ℕ) :
    List ℕ :=
  readsAt calls point p ++ updates[p]?.toList

/-- All segments one after the other. -/
def order (calls : List (Call ι ρ)) (updates : List ℕ) (point : ℕ → Option ℕ) : List ℕ :=
  (List.range (updates.length + 1)).flatMap (segment calls updates point)

variable (h : Schedule spec s₀ calls updates point)

include h

theorem mem_readsAt {p i : ℕ} : i ∈ readsAt calls point p ↔ point i = some p := by
  rw [readsAt, List.mem_filter, List.mem_range, decide_eq_true_eq, and_iff_right_iff_imp]
  intro hi
  obtain ⟨-, -, x, hx, -⟩ := h.reads i p hi
  exact (List.getElem?_eq_some_iff.1 hx).1

theorem mem_segment {p i : ℕ} :
    i ∈ segment calls updates point p ↔ point i = some p ∨ updates[p]? = some i := by
  rw [segment, List.mem_append, h.mem_readsAt, Option.mem_toList]

theorem mem_order {i : ℕ} :
    i ∈ order calls updates point ↔ i ∈ updates ∨ ∃ p, point i = some p := by
  rw [order, List.mem_flatMap]
  constructor
  · rintro ⟨p, -, hi⟩
    rcases h.mem_segment.1 hi with hi | hi
    · exact Or.inr ⟨p, hi⟩
    · exact Or.inl (List.mem_of_getElem? hi)
  · rintro (hi | ⟨p, hi⟩)
    · obtain ⟨p, hp⟩ := List.mem_iff_getElem?.1 hi
      have hlt := (List.getElem?_eq_some_iff.1 hp).1
      exact ⟨p, List.mem_range.2 (by omega), h.mem_segment.2 (Or.inr hp)⟩
    · exact ⟨p, List.mem_range.2 (Nat.lt_succ_of_le (h.reads i p hi).1),
        h.mem_segment.2 (Or.inl hi)⟩

/-- No call is in two segments. -/
theorem segment_unique {p q i : ℕ} (hp : i ∈ segment calls updates point p)
    (hq : i ∈ segment calls updates point q) : p = q := by
  rcases h.mem_segment.1 hp with hp | hp
  · rcases h.mem_segment.1 hq with hq | hq
    · exact Option.some.inj (hp.symm.trans hq)
    · exact absurd (List.mem_of_getElem? hq) (h.reads i p hp).2.1
  · rcases h.mem_segment.1 hq with hq | hq
    · exact absurd (List.mem_of_getElem? hp) (h.reads i q hq).2.1
    · exact (List.getElem?_inj (List.getElem?_eq_some_iff.1 hp).1 h.nodup).1 (hp.trans hq.symm)

theorem nodup_segment (p : ℕ) : (segment calls updates point p).Nodup := by
  rw [segment, List.nodup_append]
  refine ⟨List.nodup_range.filter _, ?_, ?_⟩
  · cases updates[p]? with
    | none => exact List.nodup_nil
    | some i => exact List.nodup_singleton i
  · rintro i hi j hj rfl
    rw [Option.mem_toList] at hj
    exact (h.reads i p (h.mem_readsAt.1 hi)).2.1 (List.mem_of_getElem? hj)

theorem nodup_order : (order calls updates point).Nodup := by
  rw [order, List.nodup_flatMap]
  refine ⟨fun p _ => h.nodup_segment p, List.nodup_range.imp ?_⟩
  intro p q hpq i hi hj
  exact hpq (h.segment_unique hi hj)

/-- Inside a segment. -/
theorem realTime_segment (p : ℕ) :
    (segment calls updates point p).Pairwise fun i j => ¬ PrecedesAt calls j i := by
  rw [segment, List.pairwise_append]
  refine ⟨?_, ?_, ?_⟩
  · -- reads of one segment are in the order in which they were made
    refine (List.pairwise_lt_range.filter _).imp ?_
    rintro i j hlt ⟨x, y, hx, hy, t, r, hret, ht⟩
    have hle := h.invoked i j y x hlt hy hx
    have hle' := h.returned x (List.mem_of_getElem? hx) t r hret
    omega
  · cases updates[p]? with
    | none => exact List.Pairwise.nil
    | some i => exact List.pairwise_singleton _ i
  · intro i hi j hj
    rw [Option.mem_toList] at hj
    exact (h.update_read p p i j (h.mem_readsAt.1 hi) hj).2 (le_refl p)

/-- Between segments. -/
theorem realTime_segments {p q i j : ℕ} (hpq : p < q)
    (hi : i ∈ segment calls updates point p) (hj : j ∈ segment calls updates point q) :
    ¬ PrecedesAt calls j i := by
  rcases h.mem_segment.1 hi with hi | hi
  · rcases h.mem_segment.1 hj with hj | hj
    · intro hji
      have := h.read_read q p j i hj hi hji
      omega
    · exact (h.update_read p q i j hi hj).2 hpq.le
  · rcases h.mem_segment.1 hj with hj | hj
    · exact (h.update_read q p j i hj hi).1 hpq
    · obtain ⟨hp, rfl⟩ := List.getElem?_eq_some_iff.1 hi
      obtain ⟨hq, rfl⟩ := List.getElem?_eq_some_iff.1 hj
      exact List.pairwise_iff_getElem.1 h.update_update p q hp hq hpq

theorem realTime_order :
    (order calls updates point).Pairwise fun i j => ¬ PrecedesAt calls j i := by
  rw [order, List.pairwise_flatMap]
  refine ⟨fun p _ => h.realTime_segment p, List.pairwise_lt_range.imp ?_⟩
  intro p q hpq i hi j hj
  exact h.realTime_segments hpq hi hj

/-- One segment is legal, and leads to the state after one more update. -/
theorem legal_segment (p : ℕ) :
    Legal spec (stateAfter spec s₀ calls updates p)
      ((segment calls updates point p).filterMap fun i => calls[i]?) ∧
    after spec (stateAfter spec s₀ calls updates p)
      ((segment calls updates point p).filterMap fun i => calls[i]?) =
      stateAfter spec s₀ calls updates (p + 1) := by
  have hreads : ∀ x ∈ (readsAt calls point p).filterMap (fun i => calls[i]?),
      ∃ i, point i = some p ∧ calls[i]? = some x := by
    intro x hx
    obtain ⟨i, hi, hix⟩ := List.mem_filterMap.1 hx
    exact ⟨i, h.mem_readsAt.1 hi, hix⟩
  have hquiet : ∀ x ∈ (readsAt calls point p).filterMap (fun i => calls[i]?),
      ∀ s, (spec s x.op).1 = s := by
    intro x hx
    obtain ⟨i, hi, hix⟩ := hreads x hx
    obtain ⟨-, -, y, hy, -, hspec⟩ := h.reads i p hi
    exact Option.some.inj (hix.symm.trans hy) ▸ hspec
  rw [segment, List.filterMap_append, legal_append, after_append, after_of_reads hquiet]
  refine ⟨⟨legal_of_reads hquiet fun x hx t r hr => ?_, ?_⟩, ?_⟩
  · obtain ⟨i, hi, hix⟩ := hreads x hx
    exact h.read p i x t r hi hix hr
  · cases hp : updates[p]? with
    | none => trivial
    | some i =>
        obtain ⟨x, hx, -⟩ := h.made i (List.mem_of_getElem? hp)
        simp only [Option.toList_some, List.filterMap_cons, List.filterMap_nil, hx]
        exact ⟨fun t r hr => h.updated p i x t r hp hx hr, trivial⟩
  · rw [stateAfter, stateAfter, List.take_add_one, List.filterMap_append, after_append]

theorem legal_order : Legal spec s₀ ((order calls updates point).filterMap fun i => calls[i]?) := by
  suffices hall : ∀ n, Legal spec s₀ (((List.range n).flatMap
      (segment calls updates point)).filterMap fun i => calls[i]?) ∧
      after spec s₀ (((List.range n).flatMap (segment calls updates point)).filterMap
        fun i => calls[i]?) = stateAfter spec s₀ calls updates n from (hall _).1
  intro n
  induction n with
  | zero => exact ⟨trivial, rfl⟩
  | succ n ih =>
      rw [List.range_succ, List.flatMap_append, List.flatMap_singleton, List.filterMap_append,
        legal_append, after_append, ih.2]
      exact ⟨⟨ih.1, (h.legal_segment n).1⟩, (h.legal_segment n).2⟩

/-- **A schedule** gives a linearization. -/
theorem linearizable : Linearizable spec s₀ calls := by
  refine ⟨order calls updates point, h.nodup_order, fun i hi => ?_, ?_, ?_, h.legal_order⟩
  · rcases h.mem_order.1 hi with hi | ⟨p, hi⟩
    · exact h.made i hi
    · obtain ⟨-, -, x, hx, hok, -⟩ := h.reads i p hi
      exact ⟨x, hx, hok⟩
  · exact fun i x t r hx hr => h.mem_order.2 (h.complete i x t r hx hr)
  · exact h.realTime_order.imp fun hno x y hx hy hyx => hno ⟨y, x, hy, hx, hyx⟩

end Schedule

end Linearizability
