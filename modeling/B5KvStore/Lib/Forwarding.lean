import B5KvStore.Lib.Linearizability
import Mathlib.Tactic.Choose

/-!
# Calls on behalf of others

Clients do not always call an object themselves.  Somebody in between calls it for them, perhaps
several times for one client, and answers with what one of these calls has returned.  The clients
cannot tell the difference, provided that no two calls for one client take effect: reads may be
repeated at will, updates may not.

* `Forwards` — the calls of the clients, and the calls that are made for them.
* `Forwards.linearizable` — if these are linearizable, so are those.
-/

namespace Linearizability

variable {σ ι ρ : Type*}

/-- The calls `inner` of the object are made for the clients that have made the calls `outer`; the
one at position `j` for the client at position `owner j`. -/
structure Forwards (spec : σ → ι → σ × ρ) (outer inner : List (Call ι ρ)) (owner : ℕ → ℕ) :
    Prop where
  made : ∀ j y, inner[j]? = some y → y.outcome ≠ .failed →
    ∃ x, outer[owner j]? = some x ∧ x.op = y.op ∧ x.invoked ≤ y.invoked ∧ x.outcome ≠ .failed
  /-- Clients are answered with what was returned to them. -/
  answered : ∀ i x t r, outer[i]? = some x → x.outcome = .returned t r →
    ∃ j y t', inner[j]? = some y ∧ owner j = i ∧ y.outcome = .returned t' r ∧ t' ≤ t
  /-- Only calls that do not change the state are made twice for one client. -/
  once : ∀ j j' y y', inner[j]? = some y → inner[j']? = some y' → owner j = owner j' →
    y.outcome ≠ .failed → y'.outcome ≠ .failed → j = j' ∨ ∀ s, (spec s y.op).1 = s

namespace Forwards

variable {spec : σ → ι → σ × ρ} {outer inner : List (Call ι ρ)} {owner : ℕ → ℕ}

/-- For every client that was answered, the call whose result it was given. -/
theorem exists_answer (h : Forwards spec outer inner owner) : ∃ answer : ℕ → ℕ,
    ∀ i x t r, outer[i]? = some x → x.outcome = .returned t r →
      owner (answer i) = i ∧ ∃ y t', inner[answer i]? = some y ∧ y.outcome = .returned t' r ∧
        t' ≤ t := by
  have hex : ∀ i, ∃ j, ∀ x t r, outer[i]? = some x → x.outcome = .returned t r →
      owner j = i ∧ ∃ y t', inner[j]? = some y ∧ y.outcome = .returned t' r ∧ t' ≤ t := by
    intro i
    by_cases hi : ∃ x t r, outer[i]? = some x ∧ x.outcome = .returned t r
    · obtain ⟨x, t, r, hx, hr⟩ := hi
      obtain ⟨j, y, t', hy, howner, hy', ht⟩ := h.answered i x t r hx hr
      refine ⟨j, fun x' s q hx' hq => ⟨howner, y, t', hy, ?_⟩⟩
      obtain rfl := Option.some.inj (hx.symm.trans hx')
      obtain ⟨rfl, rfl⟩ := Outcome.returned.inj (hr.symm.trans hq)
      exact ⟨hy', ht⟩
    · exact ⟨0, fun x t r hx hr => absurd ⟨x, t, r, hx, hr⟩ hi⟩
  choose answer hanswer using hex
  exact ⟨answer, hanswer⟩

/-- The calls that count for their client: all updates, and of the reads the one whose result the
client was given. -/
def Counts (spec : σ → ι → σ × ρ) (inner : List (Call ι ρ)) (owner answer : ℕ → ℕ) (j : ℕ) :
    Prop :=
  answer (owner j) = j ∨ ∀ y, inner[j]? = some y → ¬ ∀ s, (spec s y.op).1 = s

section

variable {answer : ℕ → ℕ} (h : Forwards spec outer inner owner)
  (hanswer : ∀ i x t r, outer[i]? = some x → x.outcome = .returned t r →
    owner (answer i) = i ∧ ∃ y t', inner[answer i]? = some y ∧ y.outcome = .returned t' r ∧ t' ≤ t)

include h

/-- One call counts for a client. -/
theorem Counts.unique {j j' : ℕ} {y y' : Call ι ρ} (hj : Counts spec inner owner answer j)
    (hj' : Counts spec inner owner answer j') (hy : inner[j]? = some y) (hy' : inner[j']? = some y')
    (hok : y.outcome ≠ .failed) (hok' : y'.outcome ≠ .failed) (howner : owner j = owner j') :
    j = j' := by
  rcases h.once j j' y y' hy hy' howner hok hok' with heq | hread
  · exact heq
  · -- both are reads, so both are the one whose result was given
    have hread' : ∀ s, (spec s y'.op).1 = s := by
      obtain ⟨x, hx, hop, -⟩ := h.made j y hy hok
      obtain ⟨x', hx', hop', -⟩ := h.made j' y' hy' hok'
      obtain rfl := Option.some.inj (hx.symm.trans (howner ▸ hx'))
      rw [← hop', hop]
      exact hread
    have hans := hj.resolve_right fun hno => hno y hy hread
    have hans' := hj'.resolve_right fun hno => hno y' hy' hread'
    rw [← hans, howner, hans']

include hanswer

/-- What a client was given, the call that counts for it has returned. -/
theorem Counts.returned {j t : ℕ} {r : ρ} {x y : Call ι ρ}
    (hj : Counts spec inner owner answer j) (hy : inner[j]? = some y) (hok : y.outcome ≠ .failed)
    (hx : outer[owner j]? = some x) (hr : x.outcome = .returned t r) :
    ∃ t', y.outcome = .returned t' r ∧ t' ≤ t := by
  obtain ⟨howner, y', t', hy', hr', ht⟩ := hanswer (owner j) x t r hx hr
  have hans : Counts spec inner owner answer (answer (owner j)) := Or.inl (by rw [howner])
  have heq : j = answer (owner j) := hj.unique h hans hy hy' hok (by rw [hr']; nofun) howner.symm
  rw [← heq] at hy'
  obtain rfl := Option.some.inj (hy.symm.trans hy')
  exact ⟨t', hr', ht⟩

/-- The calls that count, with what their clients were given, are legal. -/
theorem legal_counts [DecidablePred (Counts spec inner owner answer)] {order : List ℕ} {s : σ}
    (hmade : ∀ j ∈ order, ∃ y, inner[j]? = some y ∧ y.outcome ≠ .failed)
    (hlegal : Legal spec s (order.filterMap fun j => inner[j]?)) :
    Legal spec s (((order.filter (Counts spec inner owner answer ·)).map owner).filterMap
      fun i => outer[i]?) := by
  induction order generalizing s with
  | nil => trivial
  | cons j order ih =>
      obtain ⟨y, hy, hok⟩ := hmade j (List.mem_cons_self ..)
      have hmade' : ∀ i ∈ order, ∃ y, inner[i]? = some y ∧ y.outcome ≠ .failed := fun i hi =>
        hmade i (List.mem_cons_of_mem j hi)
      rw [List.filterMap_cons_some hy] at hlegal
      obtain ⟨hres, hrest⟩ := hlegal
      by_cases hj : Counts spec inner owner answer j
      · obtain ⟨x, hx, hop, -⟩ := h.made j y hy hok
        rw [List.filter_cons_of_pos (by simpa using hj), List.map_cons,
          List.filterMap_cons_some hx]
        refine ⟨fun t r hr => ?_, ?_⟩
        · obtain ⟨t', hr', -⟩ := hj.returned h hanswer hy hok hx hr
          rw [hop]
          exact hres t' r hr'
        · rw [hop]
          exact ih hmade' hrest
      · rw [List.filter_cons_of_neg (by simpa using hj)]
        have hread : ∀ s, (spec s y.op).1 = s := by
          by_contra hno
          refine hj (Or.inr fun y' hy' => ?_)
          rwa [← Option.some.inj (hy.symm.trans hy')]
        rw [hread] at hrest
        exact ih hmade' hrest

end

/-- **Calls on behalf of others** are as good as one's own. -/
theorem linearizable (h : Forwards spec outer inner owner) {s₀ : σ}
    (hinner : Linearizable spec s₀ inner) : Linearizable spec s₀ outer := by
  classical
  obtain ⟨order, hlin⟩ := hinner
  obtain ⟨answer, hanswer⟩ := h.exists_answer
  have hmem : ∀ {j}, j ∈ order.filter (Counts spec inner owner answer ·) ↔
      j ∈ order ∧ Counts spec inner owner answer j := fun {j} => by
    rw [List.mem_filter, decide_eq_true_eq]
  refine ⟨(order.filter (Counts spec inner owner answer ·)).map owner, ?_, ?_, ?_, ?_,
    legal_counts h hanswer hlin.made hlin.legal⟩
  · refine (hlin.nodup.filter _).map_on fun j hj j' hj' howner => ?_
    obtain ⟨hj, hcounts⟩ := hmem.1 hj
    obtain ⟨hj', hcounts'⟩ := hmem.1 hj'
    obtain ⟨y, hy, hok⟩ := hlin.made j hj
    obtain ⟨y', hy', hok'⟩ := hlin.made j' hj'
    exact hcounts.unique h hcounts' hy hy' hok hok' howner
  · intro i hi
    obtain ⟨j, hj, rfl⟩ := List.mem_map.1 hi
    obtain ⟨y, hy, hok⟩ := hlin.made j (hmem.1 hj).1
    obtain ⟨x, hx, -, -, hok'⟩ := h.made j y hy hok
    exact ⟨x, hx, hok'⟩
  · intro i x t r hx hr
    obtain ⟨howner, y, t', hy, hr', -⟩ := hanswer i x t r hx hr
    refine List.mem_map.2 ⟨answer i, hmem.2 ⟨hlin.complete _ y t' r hy hr', ?_⟩, howner⟩
    exact Or.inl (by rw [howner])
  · rw [List.pairwise_map]
    refine (hlin.realTime.filter _).imp_of_mem fun {j j'} hj hj' hno x x' hx hx' hpre => ?_
    obtain ⟨hj, -⟩ := hmem.1 hj
    obtain ⟨hj', hcounts'⟩ := hmem.1 hj'
    obtain ⟨y, hy, hok⟩ := hlin.made j hj
    obtain ⟨y', hy', hok'⟩ := hlin.made j' hj'
    obtain ⟨z, hz, -, hle, -⟩ := h.made j y hy hok
    obtain rfl := Option.some.inj (hx.symm.trans hz)
    -- a call is made after its client's call and returns before it
    obtain ⟨t, r, hr, hlt⟩ := hpre
    obtain ⟨t', hr', ht⟩ := hcounts'.returned h hanswer hy' hok' hx' hr
    exact hno y y' hy hy' ⟨t', r, hr', by omega⟩

end Forwards

end Linearizability
