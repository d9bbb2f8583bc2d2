import Mathlib.Data.List.Basic

/-!
# Data sent in chunks

A sender cuts data into pieces of a bounded size and marks the last one; a receiver puts the
pieces together again.  `Cuts` describes a correct sequence of chunks, so that the two loops
can be verified apart: the sender's produces such a sequence, the receiver's reads one.

* `Cuts` — the chunks of some data, full ones first.
* `Cuts.bounds`, `Cuts.flatMap_data`, `Cuts.isLast_iff` — what the chunks look like.
* `Cuts.take_isPrefix` — the chunks before the last one hold a part of the data only.
-/

/-- One message of a chunked transfer. -/
structure Chunk (α : Type*) where
  data : List α
  isLast : Bool

/-- The chunks of `data`: every chunk but the last is full, and only the last is marked. -/
inductive Cuts {α : Type*} (size : Nat) : List α → List (Chunk α) → Prop where
  | last {data : List α} (hne : data ≠ []) (hle : data.length ≤ size) :
      Cuts size data [⟨data, true⟩]
  | more {part rest : List α} {chunks : List (Chunk α)} (hlen : part.length = size)
      (h : Cuts size rest chunks) : Cuts size (part ++ rest) (⟨part, false⟩ :: chunks)

namespace Cuts

variable {α : Type*} {size : Nat} {data : List α} {chunks : List (Chunk α)}

theorem chunks_ne_nil (h : Cuts size data chunks) : chunks ≠ [] := by
  cases h with
  | last => exact List.cons_ne_nil _ _
  | more => exact List.cons_ne_nil _ _

/-- Data that does not fit into one chunk takes several. -/
theorem one_lt_length (h : Cuts size data chunks) (hlt : size < data.length) :
    1 < chunks.length := by
  cases h with
  | last hne hle => omega
  | more hlen h =>
      have hpos := List.length_pos_of_ne_nil h.chunks_ne_nil
      rw [List.length_cons]
      omega

/-- No chunk is empty or too long. -/
theorem bounds (hsize : 0 < size) (h : Cuts size data chunks) :
    ∀ c ∈ chunks, c.data ≠ [] ∧ c.data.length ≤ size := by
  induction h with
  | last hne hle =>
      intro c hc
      rw [List.mem_singleton.1 hc]
      exact ⟨hne, hle⟩
  | more hlen h ih =>
      intro c hc
      rcases List.mem_cons.1 hc with rfl | hc
      · exact ⟨List.ne_nil_of_length_pos (hlen ▸ hsize), Nat.le_of_eq hlen⟩
      · exact ih c hc

theorem flatMap_data (h : Cuts size data chunks) : chunks.flatMap Chunk.data = data := by
  induction h with
  | last hne hle => simp
  | more hlen h ih => rw [List.flatMap_cons, ih]

/-- The mark is on the last chunk only. -/
theorem isLast_iff (h : Cuts size data chunks) {k : Nat} {c : Chunk α}
    (hk : chunks[k]? = some c) : c.isLast = true ↔ k + 1 = chunks.length := by
  induction h generalizing k with
  | last hne hle =>
      cases k with
      | zero =>
          rw [← Option.some.inj hk]
          exact ⟨fun _ => rfl, fun _ => rfl⟩
      | succ k => exact absurd hk (by simp)
  | more hlen h ih =>
      have hpos := List.length_pos_of_ne_nil h.chunks_ne_nil
      cases k with
      | zero =>
          rw [← Option.some.inj hk]
          refine ⟨fun hc => absurd hc (by simp), fun hlen => ?_⟩
          rw [List.length_cons] at hlen
          omega
      | succ k =>
          rw [List.getElem?_cons_succ] at hk
          rw [ih hk, List.length_cons]
          omega

/-- No chunk before the last one is marked. -/
theorem take_unmarked (h : Cuts size data chunks) {k : Nat} (hk : k < chunks.length) :
    ∀ c ∈ chunks.take k, c.isLast = false := by
  intro c hc
  obtain ⟨i, hi⟩ := List.mem_iff_getElem?.1 hc
  have hlt : i < k := by
    have hlen := (List.getElem?_eq_some_iff.1 hi).1
    rw [List.length_take] at hlen
    omega
  rw [List.getElem?_take_of_lt hlt] at hi
  rw [Bool.eq_false_iff, ne_eq, h.isLast_iff hi]
  omega

/-- The chunks before the last one hold a part of the data only. -/
theorem take_isPrefix (hsize : 0 < size) (h : Cuts size data chunks) {k : Nat}
    (hk : k < chunks.length) :
    (chunks.take k).flatMap Chunk.data <+: data ∧ (chunks.take k).flatMap Chunk.data ≠ data := by
  have hsplit : (chunks.take k).flatMap Chunk.data ++ (chunks.drop k).flatMap Chunk.data =
      data := by
    rw [← List.flatMap_append, List.take_append_drop, h.flatMap_data]
  refine ⟨⟨_, hsplit⟩, fun heq => ?_⟩
  -- otherwise the chunks that are left out would all be empty
  have hnil : (chunks.drop k).flatMap Chunk.data = [] := by
    rw [heq] at hsplit
    exact List.append_right_eq_self.1 hsplit
  obtain ⟨c, hc⟩ := List.exists_mem_of_ne_nil _ (List.drop_eq_nil_iff.not.2 (Nat.not_le.2 hk))
  exact (h.bounds hsize c (List.mem_of_mem_drop hc)).1 (List.flatMap_eq_nil_iff.1 hnil c hc)

end Cuts
