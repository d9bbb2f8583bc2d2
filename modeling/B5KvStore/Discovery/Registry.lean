import B5KvStore.Proxy.Basic

/-!
# The registry of Discovery

Discovery polls every peer at once and builds a new view from the answers as they come in.
The order of the answers is up to the network.  Here is the registry with everything a view
tells about a node; the proxy only looks at the addresses, and its model of a poll is the
registry's with the rest left out.

* `Registry.pollOnce` — one round, over the answers in the order of their arrival.
* `PollState.Leads` — the leader that the loop has found among the answers it has seen.
* `polled_view` — the view, in terms of the peers and their answers only.
* `pollOnce_addresses` — the proxy's model of a poll.
-/

namespace B5KvStore

namespace Discovery

/-- `pb.GetStatusReply`, without the address, which is not used. -/
structure StatusReply where
  role : Role
  term : Nat
  nodeId : String
  deriving DecidableEq, Repr

/-- `pb.NodeInfo`. -/
structure NodeInfo where
  nodeId : String
  address : String
  role : Role
  term : Nat
  deriving DecidableEq, Repr

/-- `pb.ClusterView`. -/
structure View where
  leaderAddress : String
  followers : List NodeInfo
  allNodes : List NodeInfo
  deriving DecidableEq, Repr

/-- `Registry`. -/
structure Registry where
  peers : List String
  view : View
  reachable : String → Option Bool

/-- What one peer has answered; `none` for an error or no answer in time. -/
structure PeerResult where
  addr : String
  reply : Option StatusReply
  deriving DecidableEq, Repr

/-- `NewRegistry`. -/
def newRegistry (peers : List String) : Registry := ⟨peers, ⟨"", [], []⟩, fun _ => none⟩

/-- The address is the one that was dialed. -/
def PeerResult.info? (res : PeerResult) : Option NodeInfo :=
  res.reply.map fun reply => ⟨reply.nodeId, res.addr, reply.role, reply.term⟩

/-- The variables of the loop of `PollOnce`. -/
structure PollState where
  view : View
  newReachable : String → Option Bool
  leaderTerm : Nat
  haveLeader : Bool

namespace PollState

def start : PollState := ⟨⟨"", [], []⟩, fun _ => none, 0, false⟩

/-- What the loop does with the information on a node that has answered. -/
def addNode (st : PollState) (info : NodeInfo) : PollState :=
  let view := { st.view with allNodes := st.view.allNodes ++ [info] }
  match info.role with
  | .leader =>
      -- a stale leader may still answer; the highest term is preferred
      if !st.haveLeader || decide (st.leaderTerm ≤ info.term) then
        { st with
          view := { view with leaderAddress := info.address }
          leaderTerm := info.term
          haveLeader := true }
      else { st with view := view }
  | .follower => { st with view := { view with followers := view.followers ++ [info] } }
  | .candidate => { st with view := view }

/-- One round of the loop. -/
def next (st : PollState) (res : PeerResult) : PollState :=
  let heard :=
    { st with newReachable := Function.update st.newReachable res.addr (some res.reply.isSome) }
  match res.info? with
  | none => heard
  | some info => heard.addNode info

end PollState

/-- `PollOnce`, on the results in the order in which they arrive. -/
def Registry.pollOnce (r : Registry) (results : List PeerResult) : Registry :=
  let st := results.foldl PollState.next PollState.start
  { r with view := st.view, reachable := st.newReachable }

/-! ## One round -/

namespace PollState

theorem addNode_newReachable (st : PollState) (info : NodeInfo) :
    (st.addNode info).newReachable = st.newReachable := by
  unfold addNode
  cases info.role with
  | leader =>
      dsimp only
      by_cases h : (!st.haveLeader || decide (st.leaderTerm ≤ info.term)) = true
      · rw [if_pos h]
      · rw [if_neg h]
  | follower => rfl
  | candidate => rfl

theorem addNode_allNodes (st : PollState) (info : NodeInfo) :
    (st.addNode info).view.allNodes = st.view.allNodes ++ [info] := by
  unfold addNode
  cases info.role with
  | leader =>
      dsimp only
      by_cases h : (!st.haveLeader || decide (st.leaderTerm ≤ info.term)) = true
      · rw [if_pos h]
      · rw [if_neg h]
  | follower => rfl
  | candidate => rfl

theorem addNode_followers (st : PollState) (info : NodeInfo) :
    (st.addNode info).view.followers =
      st.view.followers ++ [info].filter (·.role = .follower) := by
  unfold addNode
  cases hrole : info.role with
  | leader =>
      dsimp only
      rw [List.filter_cons_of_neg (by simp [hrole]), List.filter_nil, List.append_nil]
      by_cases h : (!st.haveLeader || decide (st.leaderTerm ≤ info.term)) = true
      · rw [if_pos h]
      · rw [if_neg h]
  | follower => rw [List.filter_cons_of_pos (by simp [hrole]), List.filter_nil]
  | candidate =>
      rw [List.filter_cons_of_neg (by simp [hrole]), List.filter_nil, List.append_nil]

/-- A node that does not lead leaves the leader alone. -/
theorem addNode_of_ne (st : PollState) {info : NodeInfo} (h : info.role ≠ .leader) :
    (st.addNode info).view.leaderAddress = st.view.leaderAddress ∧
      (st.addNode info).leaderTerm = st.leaderTerm ∧
      (st.addNode info).haveLeader = st.haveLeader := by
  unfold addNode
  cases hrole : info.role with
  | leader => exact absurd hrole h
  | follower => exact ⟨rfl, rfl, rfl⟩
  | candidate => exact ⟨rfl, rfl, rfl⟩

/-- After a node that leads there is a leader: this one, or one of a higher term. -/
theorem addNode_of_leader (st : PollState) {info : NodeInfo} (h : info.role = .leader) :
    (st.addNode info).haveLeader = true ∧
      (((st.haveLeader = false ∨ st.leaderTerm ≤ info.term) ∧
          (st.addNode info).view.leaderAddress = info.address ∧
          (st.addNode info).leaderTerm = info.term) ∨
        (st.haveLeader = true ∧ info.term < st.leaderTerm ∧
          (st.addNode info).view.leaderAddress = st.view.leaderAddress ∧
          (st.addNode info).leaderTerm = st.leaderTerm)) := by
  unfold addNode
  rw [h]
  dsimp only
  by_cases hc : (!st.haveLeader || decide (st.leaderTerm ≤ info.term)) = true
  · rw [if_pos hc]
    refine ⟨rfl, Or.inl ⟨?_, rfl, rfl⟩⟩
    simpa using hc
  · rw [if_neg hc]
    have hc : st.haveLeader = true ∧ info.term < st.leaderTerm := by simpa using hc
    exact ⟨hc.1, Or.inr ⟨hc.1, hc.2, rfl, rfl⟩⟩

theorem next_newReachable (st : PollState) (res : PeerResult) :
    (st.next res).newReachable =
      Function.update st.newReachable res.addr (some res.reply.isSome) := by
  unfold next
  cases res.info? with
  | none => rfl
  | some info => exact addNode_newReachable _ info

theorem next_allNodes (st : PollState) (res : PeerResult) :
    (st.next res).view.allNodes = st.view.allNodes ++ res.info?.toList := by
  unfold next
  cases res.info? with
  | none => exact (List.append_nil _).symm
  | some info => exact addNode_allNodes _ info

theorem next_followers (st : PollState) (res : PeerResult) :
    (st.next res).view.followers =
      st.view.followers ++ res.info?.toList.filter (·.role = .follower) := by
  unfold next
  cases res.info? with
  | none => exact (List.append_nil _).symm
  | some info => exact addNode_followers _ info

/-- The leader that the loop has found among the nodes `infos`: one of the highest term, or
none. -/
structure Leads (st : PollState) (infos : List NodeInfo) : Prop where
  found : st.haveLeader = true →
    (∃ info ∈ infos, info.role = .leader ∧ info.address = st.view.leaderAddress ∧
      info.term = st.leaderTerm) ∧
    ∀ info ∈ infos, info.role = .leader → info.term ≤ st.leaderTerm
  missing : st.haveLeader = false →
    st.view.leaderAddress = "" ∧ ∀ info ∈ infos, info.role ≠ .leader

theorem Leads.start : PollState.start.Leads [] :=
  ⟨fun h => absurd h (by simp [PollState.start]),
    fun _ => ⟨rfl, fun _ h => absurd h List.not_mem_nil⟩⟩

theorem Leads.addNode {st : PollState} {infos : List NodeInfo} (h : st.Leads infos)
    (info : NodeInfo) : (st.addNode info).Leads (infos ++ [info]) := by
  have hsplit : ∀ {x}, x ∈ infos ++ [info] → x ∈ infos ∨ x = info := fun hx => by simpa using hx
  have hlast : info ∈ infos ++ [info] := List.mem_append_right _ (List.mem_singleton_self info)
  by_cases hrole : info.role = .leader
  · obtain ⟨hhave, ⟨hwas, haddr, hterm⟩ | ⟨hwas, hlt, haddr, hterm⟩⟩ :=
      addNode_of_leader st hrole
    · refine ⟨fun _ => ⟨⟨info, hlast, hrole, haddr.symm, hterm.symm⟩, fun x hx hxl => ?_⟩,
        fun hno => absurd (hhave.symm.trans hno) (by simp)⟩
      rw [hterm]
      rcases hsplit hx with hx | rfl
      · -- an earlier leader was not of a higher term
        cases hst : st.haveLeader with
        | true =>
            have hle := hwas.resolve_left (by simp [hst])
            exact Nat.le_trans ((h.found hst).2 x hx hxl) hle
        | false => exact absurd hxl ((h.missing hst).2 x hx)
      · exact le_refl _
    · obtain ⟨⟨y, hy, hyl, hyaddr, hyterm⟩, hmax⟩ := h.found hwas
      refine ⟨fun _ => ⟨⟨y, List.mem_append_left _ hy, hyl, hyaddr.trans haddr.symm,
        hyterm.trans hterm.symm⟩, fun x hx hxl => ?_⟩,
        fun hno => absurd (hhave.symm.trans hno) (by simp)⟩
      rw [hterm]
      rcases hsplit hx with hx | rfl
      · exact hmax x hx hxl
      · exact Nat.le_of_lt hlt
  · obtain ⟨haddr, hterm, hhave⟩ := addNode_of_ne st hrole
    refine ⟨fun hyes => ?_, fun hno => ?_⟩
    · obtain ⟨⟨y, hy, hyl, hyaddr, hyterm⟩, hmax⟩ := h.found (hhave ▸ hyes)
      refine ⟨⟨y, List.mem_append_left _ hy, hyl, hyaddr.trans haddr.symm,
        hyterm.trans hterm.symm⟩, fun x hx hxl => ?_⟩
      rw [hterm]
      rcases hsplit hx with hx | rfl
      · exact hmax x hx hxl
      · exact absurd hxl hrole
    · obtain ⟨hempty, hnone⟩ := h.missing (hhave ▸ hno)
      refine ⟨haddr.trans hempty, fun x hx => ?_⟩
      rcases hsplit hx with hx | rfl
      · exact hnone x hx
      · exact hrole

theorem Leads.next {st : PollState} {infos : List NodeInfo} (h : st.Leads infos)
    (res : PeerResult) : (st.next res).Leads (infos ++ res.info?.toList) := by
  have hheard : PollState.Leads { st with
      newReachable := Function.update st.newReachable res.addr (some res.reply.isSome) } infos :=
    ⟨h.found, h.missing⟩
  unfold PollState.next
  cases res.info? with
  | none => exact (List.append_nil infos).symm ▸ hheard
  | some info => exact hheard.addNode info

/-! ## The loop -/

theorem foldl_allNodes (results : List PeerResult) (st : PollState) :
    (results.foldl PollState.next st).view.allNodes =
      st.view.allNodes ++ results.filterMap PeerResult.info? := by
  induction results generalizing st with
  | nil => exact (List.append_nil _).symm
  | cons res results ih =>
      rw [List.foldl_cons, ih, next_allNodes, List.append_assoc]
      cases hinfo : res.info? with
      | none => rw [List.filterMap_cons_none hinfo, Option.toList_none, List.nil_append]
      | some info => rw [List.filterMap_cons_some hinfo, Option.toList_some, List.singleton_append]

theorem foldl_followers (results : List PeerResult) (st : PollState) :
    (results.foldl PollState.next st).view.followers =
      st.view.followers ++
        (results.filterMap PeerResult.info?).filter (·.role = .follower) := by
  induction results generalizing st with
  | nil => exact (List.append_nil _).symm
  | cons res results ih =>
      rw [List.foldl_cons, ih, next_followers, List.append_assoc, ← List.filter_append]
      cases hinfo : res.info? with
      | none => rw [List.filterMap_cons_none hinfo, Option.toList_none, List.nil_append]
      | some info => rw [List.filterMap_cons_some hinfo, Option.toList_some, List.singleton_append]

theorem Leads.foldl {st : PollState} {infos : List NodeInfo} (h : st.Leads infos)
    (results : List PeerResult) : (results.foldl PollState.next st).Leads
      (infos ++ results.filterMap PeerResult.info?) := by
  induction results generalizing st infos with
  | nil => exact (List.append_nil infos).symm ▸ h
  | cons res results ih =>
      have hrest := ih (h.next res)
      rw [List.append_assoc] at hrest
      cases hinfo : res.info? with
      | none =>
          rw [hinfo, Option.toList_none, List.nil_append] at hrest
          rwa [List.foldl_cons, List.filterMap_cons_none hinfo]
      | some info =>
          rw [hinfo, Option.toList_some, List.singleton_append] at hrest
          rwa [List.foldl_cons, List.filterMap_cons_some hinfo]

/-- A peer is entered as reachable or not by its own answer. -/
theorem foldl_newReachable {answers : String → Option StatusReply} {results : List PeerResult}
    (hans : ∀ res ∈ results, res.reply = answers res.addr) (st : PollState) (addr : String) :
    (results.foldl PollState.next st).newReachable addr =
      if addr ∈ results.map PeerResult.addr then some (answers addr).isSome
      else st.newReachable addr := by
  induction results generalizing st with
  | nil => rfl
  | cons res results ih =>
      rw [List.foldl_cons, ih fun x hx => hans x (List.mem_cons_of_mem _ hx), next_newReachable,
        List.map_cons]
      by_cases hlater : addr ∈ results.map PeerResult.addr
      · rw [if_pos hlater, if_pos (List.mem_cons_of_mem _ hlater)]
      · rw [if_neg hlater]
        by_cases heq : addr = res.addr
        · rw [if_pos (heq ▸ List.mem_cons_self ..), heq, Function.update_self,
            hans res (List.mem_cons_self ..)]
        · rw [if_neg (fun hmem => (List.mem_cons.1 hmem).elim heq hlater),
            Function.update_of_ne heq]

end PollState

/-! ## The view of a round -/

/-- What is known of a peer, if it has answered. -/
def infoOf (answers : String → Option StatusReply) (addr : String) : Option NodeInfo :=
  PeerResult.info? ⟨addr, answers addr⟩

/-- The peer reports that it leads, in this term. -/
def Claims (answers : String → Option StatusReply) (addr : String) (term : Nat) : Prop :=
  ∃ reply, answers addr = some reply ∧ reply.role = .leader ∧ reply.term = term

theorem claims_iff {answers : String → Option StatusReply} {peers : List String} {addr : String}
    {term : Nat} : (addr ∈ peers ∧ Claims answers addr term) ↔
      ∃ info ∈ peers.filterMap (infoOf answers),
        info.role = .leader ∧ info.address = addr ∧ info.term = term := by
  unfold Claims infoOf PeerResult.info?
  constructor
  · rintro ⟨hpeer, reply, hreply, hrole, hterm⟩
    refine ⟨⟨reply.nodeId, addr, reply.role, reply.term⟩, List.mem_filterMap.2 ⟨addr, hpeer, ?_⟩,
      hrole, rfl, hterm⟩
    rw [hreply]
    rfl
  · rintro ⟨info, hinfo, hrole, haddr, hterm⟩
    obtain ⟨p, hp, hpinfo⟩ := List.mem_filterMap.1 hinfo
    obtain ⟨reply, hreply, rfl⟩ := Option.map_eq_some_iff.1 hpinfo
    exact ⟨haddr ▸ hp, reply, haddr ▸ hreply, hrole, hterm⟩

/-- **The view of a round** is the same for every order of arrival, and for every view before
it.  If no two peers claim to lead in the same term, the leader is the one that claims the
highest term; the nodes are those that have answered, and the followers those that have
answered as followers. -/
theorem polled_view (r : Registry) (answers : String → Option StatusReply)
    (results : List PeerResult) (hpeers : r.peers.Nodup)
    (hresults : results.Perm (r.peers.map fun addr => ⟨addr, answers addr⟩))
    (hone : ∀ a ∈ r.peers, ∀ b ∈ r.peers, ∀ term,
      Claims answers a term → Claims answers b term → a = b) :
    let polled := r.pollOnce results
    (∀ a ∈ r.peers, ∀ term, Claims answers a term →
      (∀ b ∈ r.peers, ∀ term', Claims answers b term' → term' ≤ term) →
      polled.view.leaderAddress = a) ∧
    ((∀ a ∈ r.peers, ∀ term, ¬ Claims answers a term) → polled.view.leaderAddress = "") ∧
    polled.view.allNodes.Perm (r.peers.filterMap (infoOf answers)) ∧
    polled.view.followers.Perm
      ((r.peers.filterMap (infoOf answers)).filter (·.role = .follower)) ∧
    polled.view.allNodes.Nodup ∧
    polled.peers = r.peers ∧
    ∀ addr, polled.reachable addr =
      if addr ∈ r.peers then some (answers addr).isSome else none := by
  have hinfos : (results.filterMap PeerResult.info?).Perm (r.peers.filterMap (infoOf answers)) := by
    refine (hresults.filterMap _).trans (List.Perm.of_eq ?_)
    rw [List.filterMap_map]
    rfl
  have hnodup : (r.peers.filterMap (infoOf answers)).Nodup := by
    refine hpeers.filterMap fun a b info ha hb => ?_
    obtain ⟨x, -, rfl⟩ := Option.map_eq_some_iff.1 ha
    obtain ⟨y, -, heq⟩ := Option.map_eq_some_iff.1 hb
    exact (congrArg NodeInfo.address heq).symm
  have hleads := PollState.Leads.start.foldl results
  rw [List.nil_append] at hleads
  have hall := PollState.foldl_allNodes results PollState.start
  have hmem : ∀ info, info ∈ results.filterMap PeerResult.info? ↔
      info ∈ r.peers.filterMap (infoOf answers) := fun info => hinfos.mem_iff
  refine ⟨fun a ha term hclaim hmax => ?_, fun hnone => ?_, ?_, ?_, ?_, rfl, fun addr => ?_⟩
  · -- the leader found has the highest term, and no other peer claims it
    obtain ⟨info, hinfo, hrole, haddr, hterm⟩ := claims_iff.1 ⟨ha, hclaim⟩
    cases hhave : (results.foldl PollState.next PollState.start).haveLeader with
    | false => exact absurd hrole ((hleads.missing hhave).2 info ((hmem info).2 hinfo))
    | true =>
        obtain ⟨⟨y, hy, hyl, hyaddr, hyterm⟩, hhigh⟩ := hleads.found hhave
        have hle := hhigh info ((hmem info).2 hinfo) hrole
        obtain ⟨hyp, hyclaim⟩ := claims_iff.2 ⟨y, (hmem y).1 hy, hyl, hyaddr, hyterm⟩
        have hge := hmax _ hyp _ hyclaim
        have hsame : term = (results.foldl PollState.next PollState.start).leaderTerm := by omega
        exact hone _ hyp a ha term (hsame ▸ hyclaim) hclaim
  · cases hhave : (results.foldl PollState.next PollState.start).haveLeader with
    | false => exact (hleads.missing hhave).1
    | true =>
        obtain ⟨⟨y, hy, hyl, hyaddr, hyterm⟩, -⟩ := hleads.found hhave
        obtain ⟨hyp, hyclaim⟩ := claims_iff.2 ⟨y, (hmem y).1 hy, hyl, hyaddr, hyterm⟩
        exact absurd hyclaim (hnone _ hyp _)
  · exact (List.Perm.of_eq hall).trans hinfos
  · exact (List.Perm.of_eq (PollState.foldl_followers results PollState.start)).trans
      (hinfos.filter _)
  · exact ((List.Perm.of_eq hall).trans hinfos).nodup_iff.2 hnodup
  · have hans : ∀ res ∈ results, res.reply = answers res.addr := by
      intro res hres
      obtain ⟨p, -, rfl⟩ := List.mem_map.1 (hresults.mem_iff.1 hres)
      rfl
    have haddrs : addr ∈ results.map PeerResult.addr ↔ addr ∈ r.peers := by
      rw [(hresults.map _).mem_iff, List.map_map]
      simp
    have hreach := PollState.foldl_newReachable hans PollState.start addr
    rw [if_congr haddrs rfl rfl] at hreach
    exact hreach

/-- Two claims to lead, in the terms 1 and 3, a candidate and a peer without an answer. -/
def staleAnswers (addr : String) : Option StatusReply :=
  if addr = "a" then some ⟨.leader, 1, "n1"⟩
  else if addr = "b" then some ⟨.candidate, 2, "n2"⟩
  else if addr = "c" then some ⟨.leader, 3, "n3"⟩
  else none

theorem claims_staleAnswers {addr : String} {term : Nat} (h : Claims staleAnswers addr term) :
    (addr = "a" ∧ term = 1) ∨ (addr = "c" ∧ term = 3) := by
  obtain ⟨reply, hreply, hrole, hterm⟩ := h
  unfold staleAnswers at hreply
  by_cases ha : addr = "a"
  · rw [if_pos ha] at hreply
    exact Or.inl ⟨ha, hterm.symm.trans (congrArg StatusReply.term (Option.some.inj hreply)).symm⟩
  · rw [if_neg ha] at hreply
    by_cases hb : addr = "b"
    · rw [if_pos hb] at hreply
      rw [← Option.some.inj hreply] at hrole
      exact absurd hrole (by simp)
    · rw [if_neg hb] at hreply
      by_cases hc : addr = "c"
      · rw [if_pos hc] at hreply
        exact Or.inr ⟨hc,
          hterm.symm.trans (congrArg StatusReply.term (Option.some.inj hreply)).symm⟩
      · rw [if_neg hc] at hreply
        exact absurd hreply (by simp)

/-- The claim of the later term is believed although it comes in first. -/
theorem polled_view_staleAnswers :
    ((newRegistry ["a", "b", "c", "d"]).pollOnce
      (["c", "a", "d", "b"].map fun addr => ⟨addr, staleAnswers addr⟩)).view.leaderAddress =
      "c" := by
  refine (polled_view (newRegistry ["a", "b", "c", "d"]) staleAnswers _ (by decide)
    (List.Perm.map _ (by decide)) ?_).1 "c" (by decide) 3
    ⟨⟨.leader, 3, "n3"⟩, by decide, rfl, rfl⟩ ?_
  · intro a _ b _ term ha hb
    rcases claims_staleAnswers ha with ⟨rfl, hta⟩ | ⟨rfl, hta⟩
    · rcases claims_staleAnswers hb with ⟨rfl, -⟩ | ⟨-, htb⟩
      · rfl
      · omega
    · rcases claims_staleAnswers hb with ⟨-, htb⟩ | ⟨rfl, -⟩
      · omega
      · rfl
  · intro b _ term' hb
    rcases claims_staleAnswers hb with ⟨-, h⟩ | ⟨-, h⟩
    · omega
    · omega

/-! ## What the proxy sees of it -/

/-- The view with the addresses only. -/
def View.addresses (v : View) : Pb.ClusterView :=
  ⟨v.leaderAddress, v.followers.map NodeInfo.address, v.allNodes.map NodeInfo.address⟩

/-- The answer with the role and the term only. -/
def PeerResult.poll (res : PeerResult) : PollResult :=
  ⟨res.addr, res.reply.map fun reply => (reply.role, reply.term)⟩

/-- The term of the leader found so far, if there is one. -/
def PollState.leaderTerm? (st : PollState) : Option Nat :=
  if st.haveLeader then some st.leaderTerm else none

/-- The addresses after a node has been added. -/
theorem PollState.addresses_addNode (st : PollState) (info : NodeInfo) :
    (st.addNode info).view.addresses =
      ⟨(st.addNode info).view.leaderAddress,
        st.view.followers.map NodeInfo.address ++
          ([info].filter (·.role = .follower)).map NodeInfo.address,
        st.view.allNodes.map NodeInfo.address ++ [info.address]⟩ := by
  unfold View.addresses
  rw [addNode_followers, addNode_allNodes, List.map_append, List.map_append]
  rfl

theorem PollState.leaderTerm?_of_eq {st st' : PollState} (hterm : st'.leaderTerm = st.leaderTerm)
    (hhave : st'.haveLeader = st.haveLeader) : st'.leaderTerm? = st.leaderTerm? := by
  unfold leaderTerm?
  rw [hterm, hhave]

/-- Both loops make the same of the information on a node. -/
theorem PollState.pollLoop_addNode (st : PollState) (info : NodeInfo) (results : List PollResult) :
    pollLoop (st.addNode info).view.addresses (st.addNode info).leaderTerm? results =
      pollLoop st.view.addresses st.leaderTerm?
        (⟨info.address, some (info.role, info.term)⟩ :: results) := by
  rw [addresses_addNode]
  cases hrole : info.role with
  | follower =>
      obtain ⟨haddr, hterm, hhave⟩ := st.addNode_of_ne (by rw [hrole]; decide)
      rw [haddr, leaderTerm?_of_eq hterm hhave, List.filter_cons_of_pos (by simp [hrole])]
      rfl
  | candidate =>
      obtain ⟨haddr, hterm, hhave⟩ := st.addNode_of_ne (by rw [hrole]; decide)
      rw [haddr, leaderTerm?_of_eq hterm hhave, List.filter_cons_of_neg (by simp [hrole]),
        List.filter_nil, List.map_nil, List.append_nil]
      rfl
  | leader =>
      rw [List.filter_cons_of_neg (by simp [hrole]), List.filter_nil, List.map_nil, List.append_nil]
      conv_rhs => rw [pollLoop]
      obtain ⟨hhave, ⟨hwas, haddr, hterm⟩ | ⟨hwas, hlt, haddr, hterm⟩⟩ :=
        addNode_of_leader st hrole
      · have hbelow : ∀ t ∈ st.leaderTerm?, t ≤ info.term := by
          unfold leaderTerm?
          rcases hwas with hno | hle
          · simp [hno]
          · cases st.haveLeader with
            | false => simp
            | true => simpa using hle
        have hsome : (st.addNode info).leaderTerm? = some info.term := by
          unfold leaderTerm?
          rw [if_pos hhave, hterm]
        dsimp only
        rw [if_pos hbelow, haddr, hsome]
        rfl
      · have habove : ¬ ∀ t ∈ st.leaderTerm?, t ≤ info.term := by
          intro hall
          have hle := hall st.leaderTerm (by unfold leaderTerm?; rw [if_pos hwas]; rfl)
          omega
        dsimp only
        rw [if_neg habove, haddr, leaderTerm?_of_eq hterm (hhave.trans hwas.symm)]
        rfl

theorem PollState.addresses_foldl (results : List PeerResult) (st : PollState) :
    (results.foldl PollState.next st).view.addresses =
      pollLoop st.view.addresses st.leaderTerm? (results.map PeerResult.poll) := by
  induction results generalizing st with
  | nil => rfl
  | cons res results ih =>
      obtain ⟨addr, reply⟩ := res
      rw [List.foldl_cons, ih, List.map_cons]
      cases reply with
      | none => rfl
      | some reply => exact pollLoop_addNode _ ⟨reply.nodeId, addr, reply.role, reply.term⟩ _

/-- **The proxy's poll** is the registry's, with the addresses only. -/
theorem pollOnce_addresses (r : Registry) (results : List PeerResult) :
    (r.pollOnce results).view.addresses = B5KvStore.pollOnce (results.map PeerResult.poll) :=
  PollState.addresses_foldl results PollState.start

end Discovery

end B5KvStore
