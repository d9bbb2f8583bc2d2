import B5KvStore.Lib.GoText
import B5KvStore.Lib.Quorum
import B5KvStore.Cluster.Basic

/-!
# The membership of a cluster, as each node reads it

Every consensus node is started with the same `PEERS` list and finds itself in it by its port.
`peerAddresses` leaves out every entry with that port, `ownAddress` returns the first one: the
two agree with the membership of the cluster only if no other entry has the port.

* `peerAddresses`, `ownAddress` — the functions of the node's `main`.
* `SplitsOff` — what they have to do: split the list into one member and the others.
* `peer_lists_iff` — when two nodes have split the list, and count the same quorums.
* `Config.peersOf_ownAddress` — then `PEERS` describes the clusters of this development.
-/

namespace B5KvStore

open GoText

/-! ## Reading the list -/

/-- Whether an entry has the port. -/
def hasPort (ownPort addr : List Char) : Bool :=
  match splitHostPort addr with
  | .ok hp => hp.2 == ownPort
  | .error _ => false

/-- The loop of `peerAddresses`. -/
def peerLoop (ownPort : List Char) : List (List Char) → List (List Char)
  | [] => []
  | raw :: raws =>
      let addr := trimSpace raw
      if addr = [] then peerLoop ownPort raws
      else if hasPort ownPort addr then peerLoop ownPort raws
      else addr :: peerLoop ownPort raws

/-- `peerAddresses`. -/
def peerAddresses (peersEnv ownPort : List Char) : List (List Char) :=
  peerLoop ownPort (peersEnv.splitOn ',')

/-- The loop of `ownAddress`. -/
def ownLoop (ownPort : List Char) : List (List Char) → List Char
  | [] => []
  | raw :: raws =>
      let addr := trimSpace raw
      if addr = [] then ownLoop ownPort raws
      else if hasPort ownPort addr then addr
      else ownLoop ownPort raws

/-- `ownAddress`. -/
def ownAddress (peersEnv ownPort : List Char) : List Char :=
  ownLoop ownPort (peersEnv.splitOn ',')

/-- The trimmed entries of the list that are not empty. -/
def peerEntries (peersEnv : List Char) : List (List Char) :=
  ((peersEnv.splitOn ',').map trimSpace).filter (· ≠ [])

theorem peerLoop_eq (ownPort : List Char) (raws : List (List Char)) :
    peerLoop ownPort raws =
      ((raws.map trimSpace).filter (· ≠ [])).filter (fun addr => !hasPort ownPort addr) := by
  induction raws with
  | nil => rfl
  | cons raw raws ih =>
      rw [peerLoop, List.map_cons]
      by_cases hempty : trimSpace raw = []
      · rw [if_pos hempty, List.filter_cons_of_neg (by simp [hempty]), ih]
      · rw [if_neg hempty, List.filter_cons_of_pos (by simp [hempty])]
        by_cases hport : hasPort ownPort (trimSpace raw) = true
        · rw [if_pos hport, List.filter_cons_of_neg (by simp [hport]), ih]
        · rw [if_neg hport, List.filter_cons_of_pos (by simp [hport]), ih]

theorem ownLoop_eq (ownPort : List Char) (raws : List (List Char)) :
    ownLoop ownPort raws =
      (((raws.map trimSpace).filter (· ≠ [])).find? (hasPort ownPort)).getD [] := by
  induction raws with
  | nil => rfl
  | cons raw raws ih =>
      rw [ownLoop, List.map_cons]
      by_cases hempty : trimSpace raw = []
      · rw [if_pos hempty, List.filter_cons_of_neg (by simp [hempty]), ih]
      · rw [if_neg hempty, List.filter_cons_of_pos (by simp [hempty])]
        by_cases hport : hasPort ownPort (trimSpace raw) = true
        · rw [if_pos hport, List.find?_cons_of_pos hport, Option.getD_some]
        · rw [if_neg hport, List.find?_cons_of_neg hport, ih]

theorem peerAddresses_eq (peersEnv ownPort : List Char) : peerAddresses peersEnv ownPort =
    (peerEntries peersEnv).filter (fun addr => !hasPort ownPort addr) :=
  peerLoop_eq ownPort _

theorem ownAddress_eq (peersEnv ownPort : List Char) : ownAddress peersEnv ownPort =
    ((peerEntries peersEnv).find? (hasPort ownPort)).getD [] :=
  ownLoop_eq ownPort _

/-! ## One member and the others -/

/-- The node with this port is one entry of the list, and its peers are, in order, all the
others. -/
structure SplitsOff (peersEnv ownPort : List Char) : Prop where
  own_mem : ownAddress peersEnv ownPort ∈ peerEntries peersEnv
  peers_eq : peerAddresses peersEnv ownPort =
    (peerEntries peersEnv).filter (· ≠ ownAddress peersEnv ownPort)
  size : (peerAddresses peersEnv ownPort).length + 1 = (peerEntries peersEnv).length

/-- Exactly one entry has the port. -/
def OneEntry (peersEnv ownPort : List Char) : Prop :=
  ((peerEntries peersEnv).filter (hasPort ownPort)).length = 1

instance OneEntry.instDecidable (peersEnv ownPort : List Char) :
    Decidable (OneEntry peersEnv ownPort) :=
  inferInstanceAs (Decidable (_ = _))

theorem length_peerAddresses (peersEnv ownPort : List Char) :
    (peerAddresses peersEnv ownPort).length +
      ((peerEntries peersEnv).filter (hasPort ownPort)).length = (peerEntries peersEnv).length := by
  rw [peerAddresses_eq, Nat.add_comm]
  exact (List.length_eq_length_filter_add (hasPort ownPort)).symm

theorem splitsOff_iff (peersEnv ownPort : List Char) :
    SplitsOff peersEnv ownPort ↔ OneEntry peersEnv ownPort := by
  have hlen := length_peerAddresses peersEnv ownPort
  constructor
  · intro h
    have hsize := h.size
    unfold OneEntry
    omega
  · intro hone
    unfold OneEntry at hone
    obtain ⟨a, ha⟩ := List.length_eq_one_iff.1 hone
    have hall : ∀ b ∈ peerEntries peersEnv, hasPort ownPort b = true ↔ b = a := by
      intro b hb
      have hmem : b ∈ (peerEntries peersEnv).filter (hasPort ownPort) ↔ b = a := by
        rw [ha, List.mem_singleton]
      rw [← hmem, List.mem_filter]
      exact ⟨fun hp => ⟨hb, hp⟩, fun h => h.2⟩
    obtain ⟨hain, hport⟩ := List.mem_filter.1 (ha ▸ List.mem_singleton_self a)
    have hown : ownAddress peersEnv ownPort = a := by
      rw [ownAddress_eq]
      cases hfind : (peerEntries peersEnv).find? (hasPort ownPort) with
      | none => exact absurd hport (List.find?_eq_none.1 hfind a hain)
      | some b => exact (hall b (List.mem_of_find?_eq_some hfind)).1 (List.find?_some hfind)
    refine ⟨hown ▸ hain, ?_, by omega⟩
    rw [peerAddresses_eq, hown]
    refine List.filter_congr fun b hb => ?_
    by_cases hba : b = a
    · simp [hba, hport]
    · have hno : hasPort ownPort b = false := Bool.eq_false_iff.2 fun hp => hba ((hall b hb).1 hp)
      simp [hba, hno]

/-! ## Quorums -/

/-- Any two groups of so many members have a member in common. -/
def QuorumsMeet (members : List (List Char)) (count count' : Nat) : Prop :=
  ∀ Q Q' : List (List Char), Q.Nodup → Q'.Nodup → (∀ a ∈ Q, a ∈ members) →
    (∀ a ∈ Q', a ∈ members) → count ≤ Q.length → count' ≤ Q'.length → ∃ a ∈ Q, a ∈ Q'

theorem quorumsMeet_quorumSize (members : List (List Char)) :
    QuorumsMeet members (quorumSize members.length) (quorumSize members.length) := by
  intro Q Q' hnd hnd' hsub hsub' hlen hlen'
  unfold quorumSize at hlen hlen'
  have hQ : (QuorumSystem.majority members.toFinset).IsQuorum {a | a ∈ Q} :=
    QuorumSystem.isQuorum_of_list hnd hsub (by omega) fun _ h => h
  have hQ' : (QuorumSystem.majority members.toFinset).IsQuorum {a | a ∈ Q'} :=
    QuorumSystem.isQuorum_of_list hnd' hsub' (by omega) fun _ h => h
  obtain ⟨a, ha, ha'⟩ := (QuorumSystem.majority members.toFinset).inter hQ hQ'
  exact ⟨a, ha, ha'⟩

/-- **The membership, read by two nodes.**  Each of them splits the list into itself and its
peers, and they count quorums of the same size, any two of which meet, exactly if each of the
two ports belongs to one entry only. -/
theorem peer_lists_iff (peersEnv ownPort otherPort : List Char) :
    (SplitsOff peersEnv ownPort ∧ SplitsOff peersEnv otherPort ∧
      quorumSize ((peerAddresses peersEnv ownPort).length + 1) =
        quorumSize ((peerAddresses peersEnv otherPort).length + 1) ∧
      QuorumsMeet (peerEntries peersEnv)
        (quorumSize ((peerAddresses peersEnv ownPort).length + 1))
        (quorumSize ((peerAddresses peersEnv otherPort).length + 1))) ↔
    OneEntry peersEnv ownPort ∧ OneEntry peersEnv otherPort := by
  rw [← splitsOff_iff, ← splitsOff_iff]
  constructor
  · rintro ⟨hown, hother, -⟩
    exact ⟨hown, hother⟩
  · rintro ⟨hown, hother⟩
    refine ⟨hown, hother, ?_, ?_⟩
    · rw [hown.size, hother.size]
    · rw [hown.size, hother.size]
      exact quorumsMeet_quorumSize _

/-- Three nodes on the same port of three hosts: each has no peers and is a quorum alone. -/
theorem peer_lists_one_port :
    peerEntries "h1:5000,h2:5000,h3:5000".toList =
      ["h1:5000".toList, "h2:5000".toList, "h3:5000".toList] ∧
    ownAddress "h1:5000,h2:5000,h3:5000".toList "5000".toList = "h1:5000".toList ∧
    peerAddresses "h1:5000,h2:5000,h3:5000".toList "5000".toList = [] ∧
    ¬ SplitsOff "h1:5000,h2:5000,h3:5000".toList "5000".toList := by
  rw [splitsOff_iff]
  decide +kernel

/-! ## The cluster -/

/-- A node that has split off its entry has the peers that the member has in the cluster. -/
theorem Config.peersOf_ownAddress (c : Config) {peersEnv ownPort : List Char}
    (haddrs : c.addrs = (peerEntries peersEnv).map String.ofList)
    (h : SplitsOff peersEnv ownPort) :
    c.peersOf (String.ofList (ownAddress peersEnv ownPort)) =
      (peerAddresses peersEnv ownPort).map String.ofList := by
  have hnodup : (peerEntries peersEnv).Nodup := (haddrs ▸ c.nodup).of_map _
  have hinj : Function.Injective String.ofList := fun _ _ heq => String.ofList_injective heq
  unfold Config.peersOf
  rw [haddrs, h.peers_eq, ← List.map_erase hinj, hnodup.erase_eq_filter]
  congr 1
  refine List.filter_congr fun b _ => ?_
  rw [bne, beq_eq_decide, decide_not]

end B5KvStore
