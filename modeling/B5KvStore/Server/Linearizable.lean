import B5KvStore.Lib.Linearizability
import B5KvStore.Server.Invariant

/-!
# The key-value service is linearizable

Writes take effect in the order of their indices in the log, and a read after as many of them as
the node had applied when it read its map.  What has to be shown is that this order is one the
clients could have seen: a read covers whatever was committed when it started, and a write is not
committed before it was made.

* `kvSpec` — the sequential object: a map and the number of writes so far.
* `Servers.Inv.schedule` — the order of the calls.
* `kv_linearizable` — every run in which leaders that answer reads have caught up.
-/

namespace B5KvStore

open ReplicatedLog (CommittedAt)
open Linearizability (Call Linearizable Schedule)

/-! ## The sequential object -/

/-- What a call returns: the index of a write, or the value a read has found. -/
inductive KVResult where
  | wrote (index : Nat)
  | value (v : Option String)
  deriving DecidableEq, Repr

/-- One map, and the number of writes so far.  A write returns its own number. -/
def kvSpec : KVMap × Nat → ClientCall → (KVMap × Nat) × KVResult
  | (kv, n), .write op key value => ((kv.apply (op.command key value), n + 1), .wrote (n + 1))
  | (kv, n), .get key => ((kv, n), .value (kv key))

/-- What there is to know of a call that did not report success.  If no entry was appended for
it, it has no effect; one whose leader was deposed while it waited may still have one. -/
def KVCall.unanswered (x : KVCall) : Linearizability.Outcome KVResult :=
  if x.entry = none then .failed else .pending

/-- How a call has ended. -/
def KVCall.result (x : KVCall) : Linearizability.Outcome KVResult :=
  match x.stage with
  | .returned time (.write r) =>
      if r.success then .returned time (.wrote r.commitIndex) else x.unanswered
  | .returned time (.get r) =>
      if r.ok then .returned time (.value (if r.found then some r.value else none))
      else x.unanswered
  | .returned _ (.error _) => x.unanswered
  | _ => .pending

/-- The call as its caller sees it. -/
def KVCall.call (x : KVCall) : Call ClientCall KVResult := ⟨x.request, x.invoked, x.result⟩

section

variable {c : Config} {marshal : Marshal} {a : Model} {s : Servers} {x : KVCall} {n t : Nat}
  {e : LogEntry}

/-- A call that has an entry is not turned down. -/
theorem KVCall.result_ne_failed (he : x.entry = some e) : x.result ≠ .failed := by
  have hun : x.unanswered ≠ .failed := by
    unfold KVCall.unanswered
    rw [he]
    exact fun h => nomatch h
  unfold KVCall.result
  split
  · split
    · exact fun h => nomatch h
    · exact hun
  · split
    · exact fun h => nomatch h
    · exact hun
  · exact hun
  · exact fun h => nomatch h

/-- What a call that has reported success stands for: a write whose entry is committed, or a read
of the state after `x.seen` commands. -/
inductive KVCall.Reported (c : Config) (a : Model) (cl : Cluster) (x : KVCall) (t : Nat) :
    KVResult → Prop
  | wrote (e : LogEntry) (index : Nat) (hentry : x.entry = some e) (hcom : CommittedAt a index e)
      (hmark : x.mark? = some (t, index)) : Reported c a cl x t (.wrote index)
  | value (key : String) (kv : KVMap) (hget : x.request = .get key)
      (hstate : StateAt c a x.seen kv) (hcov : cl.CoversCommitted x.startedAt x.seen)
      (hmark : x.mark? = some (t, x.seen)) : Reported c a cl x t (.value (kv key))

theorem KVCall.View.reported {cl : Cluster} (h : x.View c marshal a cl n) {r : KVResult}
    (hres : x.result = .returned t r) : x.Reported c a cl t r := by
  have hun : x.unanswered ≠ .returned t r := by
    unfold KVCall.unanswered
    split <;> exact fun h => nomatch h
  have hst := h.stands
  unfold KVCall.Stands at hst
  unfold KVCall.result at hres
  split at hres
  · rename_i time reply hstage
    rw [hstage] at hst
    split at hres
    · rename_i hok
      injection hres with htime hr
      subst htime hr
      obtain ⟨e, he, hcom⟩ := hst.2.2 hok
      exact .wrote e _ he hcom (by simp [KVCall.mark?, hstage, hok])
    · exact absurd hres hun
  · rename_i time reply hstage
    rw [hstage] at hst
    split at hres
    · rename_i hok
      injection hres with htime hr
      subst htime hr
      obtain ⟨key, kv, hget, hstate, hfound, hvalue, hcov⟩ := hst.2.2 hok
      have hv : (if reply.found then some reply.value else none) = kv key := by
        rw [hfound, hvalue]
        cases kv key <;> rfl
      rw [hv]
      exact .value key kv hget hstate hcov (by simp [KVCall.mark?, hstage, hok])
    · exact absurd hres hun
  · exact absurd hres hun
  · exact nomatch hres

/-- The marked calls are those that have reported success. -/
theorem KVCall.result_of_mark {m : Nat} (hmark : x.mark? = some (t, m)) :
    ∃ r, x.result = .returned t r := by
  unfold KVCall.mark? at hmark
  unfold KVCall.result
  split at hmark
  · rename_i hstage
    obtain ⟨hok, hm⟩ := Option.ite_none_right_eq_some.1 hmark
    obtain ⟨rfl, -⟩ := Prod.mk.inj (Option.some.inj hm)
    exact ⟨_, by rw [hstage]; exact if_pos hok⟩
  · rename_i hstage
    obtain ⟨hok, hm⟩ := Option.ite_none_right_eq_some.1 hmark
    obtain ⟨rfl, -⟩ := Prod.mk.inj (Option.some.inj hm)
    exact ⟨_, by rw [hstage]; exact if_pos hok⟩
  · exact absurd hmark (by simp)

/-- A call that has an entry is a write. -/
theorem KVCall.View.request_of_entry {cl : Cluster} (h : x.View c marshal a cl n)
    (he : x.entry = some e) : ∃ op key value, x.request = .write op key value := by
  obtain ⟨cmd, hcmd, -⟩ := (h.entry e he).command
  cases hreq : x.request with
  | write op key value => exact ⟨op, key, value, rfl⟩
  | get key =>
      rw [hreq] at hcmd
      exact absurd hcmd (by simp [ClientCall.command?])

/-- The number of writes a read has seen. -/
def KVCall.point? (x : KVCall) : Option Nat :=
  match x.request with
  | .get _ => x.mark?.map Prod.snd
  | .write _ _ _ => none

/-- A read that has seen `m` writes. -/
theorem KVCall.View.point {cl : Cluster} (h : x.View c marshal a cl n) {m : Nat}
    (hpoint : x.point? = some m) : x.seen = m ∧ ∃ t key kv, x.request = .get key ∧
      x.mark? = some (t, m) ∧ x.result = .returned t (.value (kv key)) ∧ StateAt c a m kv ∧
      cl.CoversCommitted x.startedAt m := by
  unfold KVCall.point? at hpoint
  split at hpoint
  · rename_i key hreq
    obtain ⟨⟨t, m'⟩, hmark, rfl⟩ := Option.map_eq_some_iff.1 hpoint
    obtain ⟨r, hr⟩ := KVCall.result_of_mark hmark
    cases h.reported hr with
    | wrote e index hentry hcom hmark' =>
        obtain ⟨op, key', value, hw⟩ := h.request_of_entry hentry
        exact absurd (hreq.symm.trans hw) (by simp)
    | value key' kv hget hstate hcov hmark' =>
        obtain ⟨-, rfl⟩ := Prod.mk.inj (Option.some.inj (hmark'.symm.trans hmark))
        exact ⟨rfl, t, key', kv, hget, hmark, hr, hstate, hcov⟩
  · exact absurd hpoint (by simp)

end

/-- Nodes read a command as it was written. -/
def Config.ReadsBack (c : Config) (marshal : Marshal) : Prop :=
  ∀ cmd payload, marshal cmd = .ok payload → c.decode payload = some cmd

/-! ## The order of the calls -/

/-- A list with a given property at each position. -/
theorem exists_list_of_forall {α : Type} {R : Nat → α → Prop} {N : Nat}
    (h : ∀ p, p < N → ∃ y, R p y) :
    ∃ ys : List α, ys.length = N ∧ ∀ p y, ys[p]? = some y → R p y := by
  induction N with
  | zero => exact ⟨[], rfl, fun p y hy => absurd hy (by simp)⟩
  | succ N ih =>
      obtain ⟨ys, hlen, hys⟩ := ih fun p hp => h p (by omega)
      obtain ⟨y, hy⟩ := h N (by omega)
      refine ⟨ys ++ [y], by simp [hlen], fun p z hz => ?_⟩
      by_cases hp : p < ys.length
      · rw [List.getElem?_append_left hp] at hz
        exact hys p z hz
      · have hlt := (List.getElem?_eq_some_iff.1 hz).1
        rw [List.length_append, List.length_singleton] at hlt
        obtain rfl : p = ys.length := by omega
        rw [List.getElem?_concat_length, Option.some.injEq] at hz
        rw [← hz, hlen]
        exact hy

/-- The largest of some numbers has what all of them have. -/
theorem exists_largest {P : Nat → Prop} (hzero : P 0) {ms : List Nat} (h : ∀ m ∈ ms, P m) :
    ∃ N, P N ∧ ∀ m ∈ ms, m ≤ N := by
  induction ms with
  | nil => exact ⟨0, hzero, fun m hm => absurd hm (by simp)⟩
  | cons k ms ih =>
      obtain ⟨N, hN, hle⟩ := ih fun m hm => h m (List.mem_cons_of_mem k hm)
      rcases Nat.le_total k N with hk | hk
      · refine ⟨N, hN, fun m hm => ?_⟩
        rcases List.mem_cons.1 hm with rfl | hm
        · exact hk
        · exact hle m hm
      · refine ⟨k, h k (List.mem_cons_self ..), fun m hm => ?_⟩
        rcases List.mem_cons.1 hm with rfl | hm
        · exact le_refl _
        · exact (hle m hm).trans hk

namespace Servers

variable {c : Config} {marshal : Marshal} {a : Model} {s : Servers}

/-- These calls have the entries that are committed first. -/
def Covers (a : Model) (s : Servers) (updates : List Nat) : Prop :=
  ∀ p j, updates[p]? = some j → ∃ x e, s.calls[j]? = some x ∧ x.entry = some e ∧
    CommittedAt a (p + 1) e

/-- There are enough of them for every call that has reported success. -/
theorem Inv.exists_updates (h : Inv c marshal a s) : ∃ updates, Covers a s updates ∧
    ∀ x ∈ s.calls, ∀ t m, x.mark? = some (t, m) → m ≤ updates.length := by
  have hmarks : ∀ m ∈ s.calls.filterMap fun x => x.mark?.map Prod.snd, ∀ p, p < m →
      ∃ (j : Nat) (x : KVCall) (e : LogEntry), s.calls[j]? = some x ∧ x.entry = some e ∧
        CommittedAt a (p + 1) e := by
    intro m hm p hp
    obtain ⟨x, hx, hmark⟩ := List.mem_filterMap.1 hm
    obtain ⟨⟨t, m'⟩, hmark', rfl⟩ := Option.map_eq_some_iff.1 hmark
    obtain ⟨e, hcom, y, hy, he, -⟩ := h.origin x hx t m' hmark' (p + 1) (Nat.succ_pos p) hp
    obtain ⟨j, hj⟩ := List.mem_iff_getElem?.1 hy
    exact ⟨j, y, e, hj, he, hcom⟩
  obtain ⟨N, hN, hle⟩ := exists_largest (fun p hp => absurd hp (by omega)) hmarks
  obtain ⟨updates, hlen, hupdates⟩ := exists_list_of_forall hN
  refine ⟨updates, hupdates, fun x hx t m hmark => ?_⟩
  rw [hlen]
  exact hle m (List.mem_filterMap.2 ⟨x, hx, by rw [hmark]; rfl⟩)

/-- The committed entries are those of the calls. -/
theorem Covers.committedLog {updates : List Nat} (h : Covers a s updates) {p : Nat}
    (hp : p ≤ updates.length) : ∃ C, C.length = p ∧ CommittedLog a C := by
  refine exists_list_of_forall fun q hq => ?_
  obtain ⟨x, e, -, -, hcom⟩ := h q _ (List.getElem?_eq_getElem (by omega))
  exact ⟨e, hcom⟩

/-- **Made one after the other**, the writes lead to the state of the committed commands. -/
theorem Inv.stateAfter (h : Inv c marshal a s) (hcodec : c.ReadsBack marshal)
    {updates : List Nat} (hup : Covers a s updates) {p : Nat} (hp : p ≤ updates.length)
    {C : List LogEntry} (hlen : C.length = p) (hC : CommittedLog a C) :
    Linearizability.stateAfter kvSpec (KVMap.new, 0) (s.calls.map KVCall.call) updates p =
      (replay c.decode C KVMap.new, p) := by
  induction p generalizing C with
  | zero =>
      obtain rfl := List.eq_nil_of_length_eq_zero hlen
      rfl
  | succ p ih =>
      obtain ⟨j, hj⟩ : ∃ j, updates[p]? = some j := ⟨_, List.getElem?_eq_getElem hp⟩
      obtain ⟨x, e, hx, he, hcom⟩ := hup p j hj
      -- the last command is the one of the call
      obtain ⟨C, e', rfl⟩ : ∃ C' e', C = C' ++ [e'] :=
        ⟨C.dropLast, C.getLast (List.ne_nil_of_length_pos (by omega)),
          (List.dropLast_concat_getLast _).symm⟩
      rw [List.length_append, List.length_singleton, Nat.add_right_cancel_iff] at hlen
      subst hlen
      have hlast := hC C.length e' List.getElem?_concat_length
      obtain rfl := h.serving.view.reach.inv.committedAt_unique hcom hlast
      have hview := h.calls x (List.mem_of_getElem? hx)
      obtain ⟨cmd, hcmd, hpayload⟩ := (hview.entry e he).command
      have hprev := ih (Nat.le_of_succ_le hp) rfl fun i e' hi => hC i e' (by
        rw [List.getElem?_append_left (List.getElem?_eq_some_iff.1 hi).1]
        exact hi)
      have hcall : (s.calls.map KVCall.call)[j]? = some x.call := by
        rw [List.getElem?_map, hx]
        rfl
      rw [Linearizability.stateAfter_succ hj hcall, hprev]
      obtain ⟨op, key, value, hreq⟩ := hview.request_of_entry he
      rw [hreq] at hcmd
      obtain rfl : op.command key value = cmd := Option.some.inj hcmd
      have happly : applyEntry c.decode e (replay c.decode C KVMap.new) =
          (replay c.decode C KVMap.new).apply (op.command key value) := by
        unfold applyEntry
        rw [hcodec _ _ hpayload]
      show (kvSpec (_, C.length) x.request).1 = _
      rw [hreq, replay_append, replay_cons, happly]
      rfl

/-- A committed entry is where its index says. -/
theorem Inv.index_eq (h : Inv c marshal a s) {i : Nat} {e : LogEntry} (he : CommittedAt a i e) :
    e.index = i := by
  obtain ⟨T, N, l, L, -, hpos, -, hled, hL⟩ := he
  have hplaced := placed_of_sound h.serving.view.reach
    (h.serving.view.reach.inv.logs.sound_led T l L hled)
  rw [hplaced _ e hL]
  omega

/-- The call that has the entry committed at an index. -/
theorem Inv.eq_of_covers (h : Inv c marshal a s) {updates : List Nat} (hup : Covers a s updates)
    {p j k : Nat} (hj : updates[p]? = some j) {x : KVCall} {e : LogEntry}
    (hk : s.calls[k]? = some x) (he : x.entry = some e) (hcom : CommittedAt a (p + 1) e) :
    k = j := by
  obtain ⟨y, e', hy, he', hcom'⟩ := hup p j hj
  obtain rfl := h.serving.view.reach.inv.committedAt_unique hcom hcom'
  exact h.distinct k j x y e hk hy he he'

/-- A write that has reported success was told its place. -/
theorem Inv.mark_of_covers (h : Inv c marshal a s) {updates : List Nat} (hup : Covers a s updates)
    {p j : Nat} (hj : updates[p]? = some j) {x : KVCall} (hx : s.calls[j]? = some x) {t : Nat}
    {r : KVResult} (hres : x.result = .returned t r) :
    r = .wrote (p + 1) ∧ x.mark? = some (t, p + 1) := by
  obtain ⟨y, e, hy, he, hcom⟩ := hup p j hj
  obtain rfl := Option.some.inj (hx.symm.trans hy)
  have hview := h.calls x (List.mem_of_getElem? hx)
  cases hview.reported hres with
  | wrote e' index hentry hcom' hmark =>
      obtain rfl := Option.some.inj (he.symm.trans hentry)
      obtain rfl : p + 1 = index := (h.index_eq hcom).symm.trans (h.index_eq hcom')
      exact ⟨rfl, hmark⟩
  | value key kv hget hstate hcov hmark =>
      obtain ⟨op, key', value, hw⟩ := hview.request_of_entry he
      exact absurd (hget.symm.trans hw) (by simp)

/-- **A write is not committed before it is made**: no call knows the place of a write that is made
after it has returned. -/
theorem Inv.not_before (h : Inv c marshal a s) {updates : List Nat} (hup : Covers a s updates)
    {x y : KVCall} {t m q k : Nat} (hx : x ∈ s.calls) (hmark : x.mark? = some (t, m))
    (hk : updates[q]? = some k) (hy : s.calls[k]? = some y) (hq : q < m) : ¬ t < y.invoked := by
  obtain ⟨e, hcom, z, hz, he, hlt⟩ := h.origin x hx t m hmark (q + 1) (Nat.succ_pos q) hq
  obtain ⟨i, hi⟩ := List.mem_iff_getElem?.1 hz
  obtain rfl := h.eq_of_covers hup hk hi he hcom
  obtain rfl := Option.some.inj (hy.symm.trans hi)
  omega

/-- **A read sees what was committed before it was made.** -/
theorem Inv.seen_before (h : Inv c marshal a s) {x y : KVCall} {t m n : Nat} (hx : x ∈ s.calls)
    (hmark : x.mark? = some (t, m)) (hy : y ∈ s.calls) (hpoint : y.point? = some n)
    (hlt : t < y.invoked) : m ≤ n := by
  obtain ⟨-, -, -, -, -, -, -, -, hcov⟩ := (h.calls y hy).point hpoint
  rcases h.order x hx y hy t m hmark hlt with rfl | hann
  · exact Nat.zero_le n
  · exact hcov m hann

/-- What holds of all calls puts them in an order. -/
theorem Inv.schedule (h : Inv c marshal a s) (hcodec : c.ReadsBack marshal)
    {updates : List Nat} (hup : Covers a s updates)
    (hmarks : ∀ x ∈ s.calls, ∀ t m, x.mark? = some (t, m) → m ≤ updates.length) :
    Schedule kvSpec (KVMap.new, 0) (s.calls.map KVCall.call) updates
      fun i => s.calls[i]?.bind KVCall.point? := by
  have hcalls : ∀ {j : Nat} {y : Call ClientCall KVResult},
      (s.calls.map KVCall.call)[j]? = some y → ∃ x, s.calls[j]? = some x ∧ x.call = y := by
    intro j y hy
    rw [List.getElem?_map] at hy
    exact Option.map_eq_some_iff.1 hy
  have hprec : ∀ {i j : Nat}, Linearizability.PrecedesAt (s.calls.map KVCall.call) i j →
      ∃ x y t r, s.calls[i]? = some x ∧ s.calls[j]? = some y ∧ x.result = .returned t r ∧
        t < y.invoked := by
    rintro i j ⟨x', y', hx', hy', t, r, hres, hlt⟩
    obtain ⟨x, hx, rfl⟩ := hcalls hx'
    obtain ⟨y, hy, rfl⟩ := hcalls hy'
    exact ⟨x, y, t, r, hx, hy, hres, hlt⟩
  have hread : ∀ {i p : Nat}, s.calls[i]?.bind KVCall.point? = some p →
      ∃ x, s.calls[i]? = some x ∧ x.point? = some p := fun hp => Option.bind_eq_some_iff.1 hp
  have hview : ∀ {j : Nat} {x : KVCall}, s.calls[j]? = some x →
      x.View c marshal a s.cluster s.clock := fun hj => h.calls _ (List.mem_of_getElem? hj)
  -- two places in the order are places of different calls
  have hplace : ∀ {p q j : Nat}, updates[p]? = some j → updates[q]? = some j → p = q := by
    intro p q j hp hq
    obtain ⟨x, e, hx, he, hcom⟩ := hup p j hp
    obtain ⟨y, e', hy, he', hcom'⟩ := hup q j hq
    obtain rfl := Option.some.inj (hx.symm.trans hy)
    obtain rfl := Option.some.inj (he.symm.trans he')
    have := h.index_eq hcom
    have := h.index_eq hcom'
    omega
  constructor
  case nodup =>
    refine List.pairwise_iff_getElem.2 fun p q hp hq hlt heq => ?_
    have := hplace (List.getElem?_eq_getElem hp) (by rw [heq]; exact List.getElem?_eq_getElem hq)
    omega
  case made =>
    intro j hj
    obtain ⟨p, hp⟩ := List.mem_iff_getElem?.1 hj
    obtain ⟨x, e, hx, he, -⟩ := hup p j hp
    exact ⟨x.call, by rw [List.getElem?_map, hx]; rfl, KVCall.result_ne_failed he⟩
  case reads =>
    intro i p hp
    obtain ⟨x, hx, hpoint⟩ := hread hp
    obtain ⟨-, t, key, kv, hget, hmark, hres, -⟩ := (hview hx).point hpoint
    refine ⟨hmarks x (List.mem_of_getElem? hx) t p hmark, fun hi => ?_,
      x.call, by rw [List.getElem?_map, hx]; rfl, ?_, ?_⟩
    · obtain ⟨q, hq⟩ := List.mem_iff_getElem?.1 hi
      obtain ⟨y, e, hy, he, -⟩ := hup q i hq
      obtain rfl := Option.some.inj (hx.symm.trans hy)
      obtain ⟨op, key', value, hw⟩ := (hview hx).request_of_entry he
      exact absurd (hget.symm.trans hw) (by simp)
    · show x.result ≠ .failed
      rw [hres]
      exact fun hf => nomatch hf
    · rintro ⟨m, k⟩
      show (kvSpec (m, k) x.request).1 = (m, k)
      rw [hget]
      rfl
  case complete =>
    intro i x' t r hx' hres
    obtain ⟨x, hx, rfl⟩ := hcalls hx'
    cases (hview hx).reported hres with
    | wrote e index hentry hcom hmark =>
        left
        have hle := hmarks x (List.mem_of_getElem? hx) t index hmark
        have hpos := hcom.pos
        obtain ⟨j, hj⟩ : ∃ j, updates[index - 1]? = some j :=
          ⟨_, List.getElem?_eq_getElem (by omega)⟩
        rw [h.eq_of_covers hup hj hx hentry (by rw [Nat.sub_add_cancel hpos]; exact hcom)]
        exact List.mem_of_getElem? hj
    | value key kv hget hstate hcov hmark =>
        right
        refine ⟨x.seen, ?_⟩
        simp [hx, KVCall.point?, hget, hmark]
  case invoked =>
    intro i j x' y' hlt hx' hy'
    obtain ⟨x, hx, rfl⟩ := hcalls hx'
    obtain ⟨y, hy, rfl⟩ := hcalls hy'
    obtain ⟨hi, rfl⟩ := List.getElem?_eq_some_iff.1 hx
    obtain ⟨hj, rfl⟩ := List.getElem?_eq_some_iff.1 hy
    have hsorted := List.pairwise_iff_getElem.1 h.sorted i j (by simpa using hi) (by simpa using hj)
      hlt
    rw [List.getElem_map, List.getElem_map] at hsorted
    exact Nat.le_of_lt hsorted
  case returned =>
    intro x' hx' t r hres
    obtain ⟨x, hx, rfl⟩ := List.mem_map.1 hx'
    have hv := h.calls x hx
    obtain ⟨m, hmark⟩ : ∃ m, x.mark? = some (t, m) := by
      cases hv.reported hres with
      | wrote e index hentry hcom hmark => exact ⟨_, hmark⟩
      | value key kv hget hstate hcov hmark => exact ⟨_, hmark⟩
    exact Nat.le_of_lt (hv.committed h.serving.view hmark).1
  case updated =>
    intro p i x' t r hp hx' hres
    obtain ⟨x, hx, rfl⟩ := hcalls hx'
    have hle := (List.getElem?_eq_some_iff.1 hp).1
    obtain ⟨C, hlen, hC⟩ := hup.committedLog (Nat.le_of_lt hle)
    rw [(h.mark_of_covers hup hp hx hres).1, h.stateAfter hcodec hup (Nat.le_of_lt hle) hlen hC]
    obtain ⟨y, e, hy, he, -⟩ := hup p i hp
    obtain rfl := Option.some.inj (hx.symm.trans hy)
    obtain ⟨op, key, value, hw⟩ := (hview hx).request_of_entry he
    show _ = (kvSpec (_, p) x.request).2
    rw [hw]
    rfl
  case read =>
    intro p i x' t r hp hx' hres
    obtain ⟨x, hx, rfl⟩ := hcalls hx'
    obtain ⟨y, hy, hpoint⟩ := hread hp
    obtain rfl := Option.some.inj (hx.symm.trans hy)
    obtain ⟨-, t', key, kv, hget, hmark, hres', ⟨C, hlen, hC, rfl⟩, -⟩ := (hview hx).point hpoint
    injection hres'.symm.trans hres with _ hr
    have hle := hmarks x (List.mem_of_getElem? hx) t' p hmark
    rw [← hr, h.stateAfter hcodec hup hle hlen hC]
    show _ = (kvSpec (_, p) x.request).2
    rw [hget]
    rfl
  case update_update =>
    refine List.pairwise_iff_getElem.2 fun p q hp hq hlt hpre => ?_
    obtain ⟨x, y, t, r, hx, hy, hres, hbefore⟩ := hprec hpre
    have hmark := (h.mark_of_covers hup (List.getElem?_eq_getElem hq) hx hres).2
    exact h.not_before hup (List.mem_of_getElem? hx) hmark (List.getElem?_eq_getElem hp) hy
      (by omega) hbefore
  case update_read =>
    intro p q i j hp hq
    obtain ⟨z, hz, hpoint⟩ := hread hp
    refine ⟨fun hlt hpre => ?_, fun hle hpre => ?_⟩
    · obtain ⟨x, y, t, r, hx, hy, hres, hbefore⟩ := hprec hpre
      obtain rfl := Option.some.inj (hx.symm.trans hz)
      obtain ⟨-, t', key, kv, -, hmark, hres', -⟩ := (hview hx).point hpoint
      injection hres'.symm.trans hres with htime _
      subst htime
      exact h.not_before hup (List.mem_of_getElem? hx) hmark hq hy hlt hbefore
    · obtain ⟨x, y, t, r, hx, hy, hres, hbefore⟩ := hprec hpre
      obtain rfl := Option.some.inj (hy.symm.trans hz)
      have hmark := (h.mark_of_covers hup hq hx hres).2
      have := h.seen_before (List.mem_of_getElem? hx) hmark (List.mem_of_getElem? hy) hpoint hbefore
      omega
  case read_read =>
    intro p q i j hp hq hpre
    obtain ⟨x, y, t, r, hx, hy, hres, hbefore⟩ := hprec hpre
    obtain ⟨x₁, hx₁, hpoint₁⟩ := hread hp
    obtain ⟨y₁, hy₁, hpoint₂⟩ := hread hq
    obtain rfl := Option.some.inj (hx.symm.trans hx₁)
    obtain rfl := Option.some.inj (hy.symm.trans hy₁)
    obtain ⟨-, t', key, kv, -, hmark, hres', -⟩ := (hview hx).point hpoint₁
    injection hres'.symm.trans hres with htime _
    subst htime
    exact h.seen_before (List.mem_of_getElem? hx) hmark (List.mem_of_getElem? hy) hpoint₂ hbefore

theorem Inv.linearizable (h : Inv c marshal a s) (hcodec : c.ReadsBack marshal) :
    Linearizable kvSpec (KVMap.new, 0) (s.calls.map KVCall.call) := by
  obtain ⟨updates, hup, hmarks⟩ := h.exists_updates
  exact (h.schedule hcodec hup hmarks).linearizable

end Servers

/-- **The key-value service is linearizable**, if nodes read commands as they were written, in
every run in which snapshots are used safely and leaders that answer reads have caught up
(`Servers.Sound`): the calls that have reported success, together with some that have not, could
have been made one after the other, against one map. -/
theorem kv_linearizable (c : Config) (marshal : Marshal) (as : List ServersAction) (s : Servers)
    (hcodec : c.ReadsBack marshal)
    (hok : Runs.Along (Servers.step c marshal) (Servers.Sound c marshal) (.init c) as)
    (hrun : Runs.exec (Servers.step c marshal) (.init c) as = some s) :
    Linearizable kvSpec (KVMap.new, 0) (s.calls.map KVCall.call) := by
  have hinv : ∃ a, Servers.Inv c marshal a s := by
    refine Runs.invariant (I := fun s => ∃ a, Servers.Inv c marshal a s) ?_ ⟨_, .init c marshal⟩ hok
      hrun
    rintro s act s' ⟨a, h⟩ hok hs
    exact h.step hok hs
  obtain ⟨a, h⟩ := hinv
  exact h.linearizable hcodec

/-- What is asked of a step that involves no snapshot, as far as it can be computed. -/
def Servers.Checked (c : Config) (marshal : Marshal) (s : Servers) (act : ServersAction) : Prop :=
  (∀ a ∈ s.clusterAction? marshal act, (Safe s.cluster a ∧ ConfirmedReads s.cluster a) ∧
    a.snapshot?.isNone ∧ Undisturbed c s.cluster a) ∧
  (∀ x ∈ s.letThrough? marshal act, (s.cluster.hosts x.server).node.OwnAbove ∧
    ¬ c.Deposed s.cluster (s.cluster.hosts x.server).node.currentTerm) ∧
  ∀ x ∈ s.readsMap? marshal act, (s.cluster.hosts x.server).poll.restored?.isNone

instance Servers.decidableChecked (c : Config) (marshal : Marshal) (s : Servers)
    (act : ServersAction) : Decidable (s.Checked c marshal act) :=
  inferInstanceAs (Decidable (_ ∧ _ ∧ _))

theorem Servers.Checked.sound {c : Config} {marshal : Marshal} {s : Servers}
    {act : ServersAction} (h : s.Checked c marshal act) : s.Sound c marshal act where
  safe b hb := (h.1 b hb).1.1
  confirmed b hb := (h.1 b hb).1.2
  correct b hb f hf := by
    rw [Option.isNone_iff_eq_none.1 (h.1 b hb).2.1] at hf
    exact absurd hf (by simp)
  undisturbed b hb := (h.1 b hb).2.2
  leads := h.2.1
  settled x hx := Option.isNone_iff_eq_none.1 (h.2.2 x hx)

/-- The bytes of the puts and deletes whose strings are single ASCII characters. -/
def marshalShort (cmd : KVCommand) : Except String (List UInt8) :=
  match cmd.op, cmd.key.toList, cmd.value.toList with
  | .put, [k], [v] =>
      if k.toNat < 128 ∧ v.toNat < 128 then
        .ok [0x12, 1, UInt8.ofNat k.toNat, 0x1a, 1, UInt8.ofNat v.toNat]
      else .error "not a short command"
  | .delete, [k], [] =>
      if k.toNat < 128 then .ok [0x08, 1, 0x12, 1, UInt8.ofNat k.toNat]
      else .error "not a short command"
  | _, _, _ => .error "not a short command"

/-- Read these commands. -/
def unmarshalShort : List UInt8 → Option KVCommand
  | [0x12, 1, k, 0x1a, 1, v] =>
      some ⟨.put, .ofList [Char.ofNat k.toNat], .ofList [Char.ofNat v.toNat]⟩
  | [0x08, 1, 0x12, 1, k] => some ⟨.delete, .ofList [Char.ofNat k.toNat], ""⟩
  | _ => none

/-- Three nodes that read the short commands. -/
def kvTrio : Config := { trio with decode := unmarshalShort }

theorem ofNat_toNat_of_ascii {ch : Char} (h : ch.toNat < 128) :
    Char.ofNat (UInt8.ofNat ch.toNat).toNat = ch := by
  rw [UInt8.toNat_ofNat_of_lt' (Nat.lt_trans h (by decide)), Char.ofNat_toNat]

theorem kvTrio_readsBack : kvTrio.ReadsBack marshalShort := by
  rintro ⟨op, key, value⟩ payload h
  unfold marshalShort at h
  dsimp only at h
  split at h
  · rename_i k v hk hv
    split at h
    · rename_i hascii
      cases h
      show some _ = some _
      rw [ofNat_toNat_of_ascii hascii.1, ofNat_toNat_of_ascii hascii.2, ← hk, ← hv,
        String.ofList_toList, String.ofList_toList]
    · exact absurd h (by simp)
  · rename_i k hk hv
    split at h
    · rename_i hascii
      cases h
      show some _ = some _
      rw [ofNat_toNat_of_ascii hascii, ← hk, String.ofList_toList]
      rw [String.toList_eq_nil_iff.1 hv]
    · exact absurd h (by simp)
  · exact absurd h (by simp)

/-- Node `a` takes a write, which is committed; `c` turns one down; and `b` answers a read after
asking `a` for a read index. -/
def writeThenRead : List ServersAction :=
  (winElection "a" "b" 0).map .cluster ++
  [.receive "a" (.write .opPut "x" "1"), .handle 0] ++ (replicate "a" "b" 0).map .cluster ++
  [.receive "c" (.write .opDelete "x" ""), .handle 0, .receive "b" (.get "x"), .handle 1,
    .handle 2, .handle 2] ++
  [.cluster (.run (.requestReadIndex 0)), .cluster (.run (.confirmLeadership 0)),
    .cluster (.run (.appendEntries 1 "b" noFaults)),
    .cluster (.run (.appendEntriesReply 1 "b" false)), .cluster (.run (.readIndexReply 0)),
    .cluster (.run (.readApplied 0)), .handle 2, .handle 1, .handle 2]

theorem kv_linearizable_writeThenRead : ∃ s,
    Runs.exec (Servers.step kvTrio marshalShort) (.init kvTrio) writeThenRead = some s ∧
    s.calls.map KVCall.stage = [.returned 9 (.write { success := true, commitIndex := 1 }),
      .returned 21 (.write { success := false }),
      .returned 22 (.get { ok := true, found := true, value := "1" })] ∧
    Linearizable kvSpec (KVMap.new, 0) (s.calls.map KVCall.call) := by
  have hok : Runs.Along (Servers.step kvTrio marshalShort) (Servers.Checked kvTrio marshalShort)
      (.init kvTrio) writeThenRead := by decide +kernel
  have hend : (Runs.exec (Servers.step kvTrio marshalShort) (.init kvTrio) writeThenRead).any
      (fun s => decide (s.calls.map KVCall.stage =
        [.returned 9 (.write { success := true, commitIndex := 1 }),
          .returned 21 (.write { success := false }),
          .returned 22 (.get { ok := true, found := true, value := "1" })])) := by decide +kernel
  obtain ⟨s, hrun, hstages⟩ := Runs.exists_of_exec _ hend
  exact ⟨s, hrun, hstages, kv_linearizable kvTrio marshalShort writeThenRead s kvTrio_readsBack
    (hok.imp fun _ _ h => h.sound) hrun⟩

end B5KvStore
