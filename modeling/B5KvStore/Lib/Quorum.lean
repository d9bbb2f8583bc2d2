import Mathlib.Data.Finset.Card
import Mathlib.Data.Set.Basic

/-!
# Quorum systems

A quorum system says which sets of participants are large enough to decide.
The only thing a protocol ever needs from it is that two deciding sets share a
participant, so that is the whole definition; the majorities of a finite
membership are the instance every crash-tolerant protocol uses.
-/

namespace QuorumSystem

/-- A family of deciding sets, any two of which share a participant. -/
structure Quorums (ν : Type*) where
  /-- Which sets are large enough to decide. -/
  IsQuorum : Set ν → Prop
  /-- Any two deciding sets meet. -/
  inter : ∀ {Q Q' : Set ν}, IsQuorum Q → IsQuorum Q' → ∃ v, v ∈ Q ∧ v ∈ Q'
  /-- Whatever contains a deciding set decides. -/
  mono : ∀ {Q Q' : Set ν}, Q ⊆ Q' → IsQuorum Q → IsQuorum Q'

variable {ν : Type*} [DecidableEq ν]

/-- The majorities of a finite membership: a set decides when it holds more
than half of the members. -/
def majority (members : Finset ν) : Quorums ν where
  IsQuorum Q := ∃ W ⊆ members, members.card < 2 * W.card ∧ ∀ w ∈ W, w ∈ Q
  inter := by
    rintro Q Q' ⟨W, hW, hcard, hQ⟩ ⟨W', hW', hcard', hQ'⟩
    have hlt : members.card < W.card + W'.card := by omega
    obtain ⟨v, hv⟩ := Finset.inter_nonempty_of_card_lt_card_add_card hW hW' hlt
    rw [Finset.mem_inter] at hv
    exact ⟨v, hQ v hv.1, hQ' v hv.2⟩
  mono := by
    rintro Q Q' hsub ⟨W, hW, hcard, hQ⟩
    exact ⟨W, hW, hcard, fun w hw => hsub (hQ w hw)⟩

/-- A duplicate-free list of members longer than half of the membership is a
deciding set. -/
theorem isQuorum_of_list {members l : List ν} (hnd : l.Nodup) (hsub : ∀ w ∈ l, w ∈ members)
    (hlen : members.length < 2 * l.length) {Q : Set ν} (hQ : ∀ w ∈ l, w ∈ Q) :
    (majority members.toFinset).IsQuorum Q := by
  refine ⟨l.toFinset, ?_, ?_, fun w hw => hQ w (List.mem_toFinset.1 hw)⟩
  · intro w hw
    exact List.mem_toFinset.2 (hsub w (List.mem_toFinset.1 hw))
  · rw [List.toFinset_card_of_nodup hnd]
    have hle : members.toFinset.card ≤ members.length := List.toFinset_card_le members
    omega

end QuorumSystem
