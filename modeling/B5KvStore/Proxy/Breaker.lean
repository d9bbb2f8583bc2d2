import Mathlib.Logic.Function.Basic

/-!
# Circuit breakers

The proxy calls every node through a breaker of the `gobreaker` library, with the settings of
package `circuitbreaker`.  The library is a parameter: `Gobreaker` is what the code uses of it.
`Execute` asks the breaker, makes the call and reports its result, and as other calls may come in
between, it is two steps here.  Times are milliseconds.

* `breakerSettings` — what `breakerFor` passes to the library.
* `Gobreaker`, `Gobreaker.OpenUntil` — a breaker that refuses every call up to a given time.
* `Gobreaker.StaysOpen` — a breaker that trips is open for its timeout.
* `gobreaker` — breakers with generations, which do that.
-/

namespace B5KvStore

/-- `gobreaker.State`. -/
inductive BreakerState where
  | stateClosed
  | stateHalfOpen
  | stateOpen
  deriving DecidableEq, Repr

def consecutiveFailuresToTrip : Nat := 3
def openTimeout : Nat := 2000
def halfOpenMaxRequests : Nat := 1
def closedInterval : Nat := 30000

/-- `gobreaker.Settings`.  Of the counts, `ReadyToTrip` looks at the consecutive failures. -/
structure BreakerSettings where
  name : String
  maxRequests : Nat
  interval : Nat
  timeout : Nat
  readyToTrip : Nat → Bool

/-- The settings of `breakerFor`.  `OnStateChange` is what the proxy makes of a trip. -/
def breakerSettings (addr : String) : BreakerSettings where
  name := addr
  maxRequests := halfOpenMaxRequests
  interval := closedInterval
  timeout := openTimeout
  readyToTrip := fun failures => consecutiveFailuresToTrip ≤ failures

/-! ## The library -/

/-- The functions of `gobreaker` that the code uses, at a time. -/
structure Gobreaker where
  CircuitBreaker : Type
  newCircuitBreaker : BreakerSettings → Nat → CircuitBreaker
  /-- `State`; to look at a breaker may bring it up to date. -/
  state : CircuitBreaker → Nat → CircuitBreaker × BreakerState
  /-- `Execute` up to the call: what it remembers for its second half, or the text of the error
  with which it refuses. -/
  beforeRequest : CircuitBreaker → Nat → CircuitBreaker × Except String Nat
  /-- `Execute` after the call, with what it remembers and whether the call had no error; and
  whether `OnStateChange` has been told that the breaker is open now. -/
  afterRequest : CircuitBreaker → Nat → Bool → Nat → CircuitBreaker × Bool

/-- What can be done with a breaker. -/
inductive BreakerUse where
  | state
  | beforeRequest
  | afterRequest (generation : Nat) (success : Bool)
  deriving DecidableEq, Repr

namespace Gobreaker

variable (lib : Gobreaker)

/-- The breaker after a use. -/
def use (b : lib.CircuitBreaker) (now : Nat) : BreakerUse → lib.CircuitBreaker
  | .state => (lib.state b now).1
  | .beforeRequest => (lib.beforeRequest b now).1
  | .afterRequest generation success => (lib.afterRequest b generation success now).1

/-- The breaker after several uses, each at its time. -/
def useAll (b : lib.CircuitBreaker) (uses : List (Nat × BreakerUse)) : lib.CircuitBreaker :=
  uses.foldl (fun b u => lib.use b u.1 u.2) b

/-- Whatever is done with the breaker up to the time `t`, it reports to be open and refuses
every call until then. -/
def OpenUntil (b : lib.CircuitBreaker) (t : Nat) : Prop :=
  ∀ uses : List (Nat × BreakerUse), (∀ u ∈ uses, u.1 ≤ t) → ∀ now ≤ t,
    (lib.state (lib.useAll b uses) now).2 = .stateOpen ∧
      ∀ generation, (lib.beforeRequest (lib.useAll b uses) now).2 ≠ .ok generation

/-- The breaker was made with these settings. -/
def Made (settings : BreakerSettings) (b : lib.CircuitBreaker) : Prop :=
  ∃ now uses, b = lib.useAll (lib.newCircuitBreaker settings now) uses

/-- **What is relied on**: a breaker that trips is open for the timeout it was made with. -/
def StaysOpen : Prop :=
  ∀ settings b, lib.Made settings b → ∀ generation success now,
    (lib.afterRequest b generation success now).2 = true →
      lib.OpenUntil (lib.afterRequest b generation success now).1 (now + settings.timeout)

variable {lib} {b : lib.CircuitBreaker} {t now : Nat}

theorem OpenUntil.use (h : lib.OpenUntil b t) (hnow : now ≤ t) (u : BreakerUse) :
    lib.OpenUntil (lib.use b now u) t := by
  intro uses huses
  refine h ((now, u) :: uses) fun v hv => ?_
  rcases List.mem_cons.1 hv with rfl | hv
  · exact hnow
  · exact huses v hv

theorem OpenUntil.state (h : lib.OpenUntil b t) (hnow : now ≤ t) :
    (lib.state b now).2 = .stateOpen := (h [] (by simp) now hnow).1

theorem OpenUntil.refuses (h : lib.OpenUntil b t) (hnow : now ≤ t) (generation : Nat) :
    (lib.beforeRequest b now).2 ≠ .ok generation := (h [] (by simp) now hnow).2 generation

theorem made_newCircuitBreaker (settings : BreakerSettings) (now : Nat) :
    lib.Made settings (lib.newCircuitBreaker settings now) := ⟨now, [], rfl⟩

theorem Made.use {settings : BreakerSettings} (h : lib.Made settings b) (now : Nat)
    (u : BreakerUse) : lib.Made settings (lib.use b now u) := by
  obtain ⟨made, uses, rfl⟩ := h
  refine ⟨made, uses ++ [(now, u)], ?_⟩
  unfold useAll
  rw [List.foldl_append]
  rfl

end Gobreaker

/-! ## Breakers with generations

An implementation of the library for the examples.  A generation number tells late reports from
those that still count. -/

/-- A breaker, with those of its counts that are looked at. -/
structure Breaker where
  settings : BreakerSettings
  state : BreakerState
  generation : Nat
  requests : Nat
  consecutiveSuccesses : Nat
  consecutiveFailures : Nat
  expiry : Option Nat

namespace Breaker

/-- The counts start over. -/
def toNewGeneration (b : Breaker) (now : Nat) : Breaker where
  settings := b.settings
  state := b.state
  generation := b.generation + 1
  requests := 0
  consecutiveSuccesses := 0
  consecutiveFailures := 0
  expiry := match b.state with
    | .stateClosed => some (now + b.settings.interval)
    | .stateOpen => some (now + b.settings.timeout)
    | .stateHalfOpen => none

def newCircuitBreaker (settings : BreakerSettings) (now : Nat) : Breaker :=
  toNewGeneration ⟨settings, .stateClosed, 0, 0, 0, 0, none⟩ now

def setState (b : Breaker) (st : BreakerState) (now : Nat) : Breaker :=
  if b.state = st then b else toNewGeneration { b with state := st } now

/-- The expiry, if one is set, is over. -/
def expired (b : Breaker) (now : Nat) : Bool :=
  match b.expiry with
  | some t => t < now
  | none => false

/-- The breaker brought up to date. -/
def currentState (b : Breaker) (now : Nat) : Breaker :=
  match b.state with
  | .stateClosed => if b.expired now then b.toNewGeneration now else b
  | .stateOpen => if b.expired now then b.setState .stateHalfOpen now else b
  | .stateHalfOpen => b

/-- The generation of the call, unless it is refused. -/
def beforeRequest (b : Breaker) (now : Nat) : Breaker × Except String Nat :=
  let b := b.currentState now
  if b.state = .stateOpen then (b, .error "circuit breaker is open")
  else if b.state = .stateHalfOpen ∧ b.settings.maxRequests ≤ b.requests then
    (b, .error "too many requests")
  else ({ b with requests := b.requests + 1 }, .ok b.generation)

def onSuccess (b : Breaker) (now : Nat) : Breaker :=
  let counted := { b with
    consecutiveSuccesses := b.consecutiveSuccesses + 1
    consecutiveFailures := 0 }
  match b.state with
  | .stateClosed => counted
  | .stateHalfOpen =>
      if b.settings.maxRequests ≤ counted.consecutiveSuccesses then
        counted.setState .stateClosed now
      else counted
  | .stateOpen => b

/-- The breaker, and whether it has tripped. -/
def onFailure (b : Breaker) (now : Nat) : Breaker × Bool :=
  match b.state with
  | .stateClosed =>
      let b := { b with
        consecutiveFailures := b.consecutiveFailures + 1
        consecutiveSuccesses := 0 }
      if b.settings.readyToTrip b.consecutiveFailures then (b.setState .stateOpen now, true)
      else (b, false)
  | .stateHalfOpen => (b.setState .stateOpen now, true)
  | .stateOpen => (b, false)

/-- The result of a call of an earlier generation does not count. -/
def afterRequest (b : Breaker) (before : Nat) (success : Bool) (now : Nat) : Breaker × Bool :=
  let b := b.currentState now
  if b.generation ≠ before then (b, false)
  else if success then (b.onSuccess now, false)
  else b.onFailure now

end Breaker

/-- The library with these breakers. -/
def gobreaker : Gobreaker where
  CircuitBreaker := Breaker
  newCircuitBreaker := Breaker.newCircuitBreaker
  state b now := (b.currentState now, (b.currentState now).state)
  beforeRequest := Breaker.beforeRequest
  afterRequest := Breaker.afterRequest

namespace Breaker

section Settings

variable (b : Breaker) (now : Nat)

@[simp]
theorem settings_setState (st : BreakerState) : (b.setState st now).settings = b.settings := by
  unfold setState
  split <;> rfl

@[simp]
theorem settings_currentState : (b.currentState now).settings = b.settings := by
  unfold Breaker.currentState
  split
  · split <;> rfl
  · split
    · exact settings_setState b now .stateHalfOpen
    · rfl
  · rfl

theorem settings_beforeRequest : (b.beforeRequest now).1.settings = b.settings := by
  unfold Breaker.beforeRequest
  dsimp only
  split
  · simp
  · split <;> simp

theorem settings_onSuccess : (b.onSuccess now).settings = b.settings := by
  unfold onSuccess
  split
  · rfl
  · dsimp only
    split <;> simp
  · rfl

theorem settings_onFailure : (b.onFailure now).1.settings = b.settings := by
  unfold onFailure
  split
  · dsimp only
    split <;> simp
  · simp
  · rfl

theorem settings_afterRequest (before : Nat) (success : Bool) :
    (b.afterRequest before success now).1.settings = b.settings := by
  unfold Breaker.afterRequest
  dsimp only
  split
  · simp
  · split
    · simp [settings_onSuccess]
    · simp [settings_onFailure]

theorem settings_use (u : BreakerUse) :
    Breaker.settings (gobreaker.use b now u) = b.settings := by
  cases u with
  | state => exact settings_currentState b now
  | beforeRequest => exact settings_beforeRequest b now
  | afterRequest before success => exact settings_afterRequest b now before success

theorem settings_useAll (uses : List (Nat × BreakerUse)) :
    Breaker.settings (gobreaker.useAll b uses) = b.settings := by
  induction uses generalizing b with
  | nil => rfl
  | cons u uses ih => exact (ih (gobreaker.use b u.1 u.2)).trans (settings_use b u.1 u.2)

end Settings

/-- The breaker is open and stays so up to the time `t`. -/
structure Holds (b : Breaker) (t : Nat) : Prop where
  state : b.state = .stateOpen
  expiry : ∃ e, b.expiry = some e ∧ t ≤ e

variable {b : Breaker} {t now : Nat}

theorem Holds.currentState (h : b.Holds t) (hnow : now ≤ t) : b.currentState now = b := by
  obtain ⟨e, he, hle⟩ := h.expiry
  have hlive : b.expired now = false := by
    unfold expired
    rw [he]
    exact decide_eq_false (by omega)
  unfold Breaker.currentState
  rw [h.state, hlive]
  rfl

/-- An open breaker refuses every call. -/
theorem Holds.beforeRequest (h : b.Holds t) (hnow : now ≤ t) :
    b.beforeRequest now = (b, .error "circuit breaker is open") := by
  unfold Breaker.beforeRequest
  rw [h.currentState hnow, if_pos h.state]

/-- Late results leave it as it is. -/
theorem Holds.afterRequest (h : b.Holds t) (hnow : now ≤ t) (before : Nat) (success : Bool) :
    b.afterRequest before success now = (b, false) := by
  unfold Breaker.afterRequest
  rw [h.currentState hnow]
  dsimp only
  split
  · rfl
  · cases success with
    | true =>
        rw [if_pos rfl]
        unfold onSuccess
        rw [h.state]
    | false =>
        rw [if_neg (by simp)]
        unfold onFailure
        rw [h.state]

/-- Nothing changes it up to then. -/
theorem Holds.useAll (h : b.Holds t) (uses : List (Nat × BreakerUse))
    (huses : ∀ u ∈ uses, u.1 ≤ t) : gobreaker.useAll b uses = b := by
  induction uses with
  | nil => rfl
  | cons u uses ih =>
      have hu := huses u (List.mem_cons_self ..)
      have huse : gobreaker.use b u.1 u.2 = b := by
        cases u.2 with
        | state => exact h.currentState hu
        | beforeRequest => exact congrArg Prod.fst (h.beforeRequest hu)
        | afterRequest before success => exact congrArg Prod.fst (h.afterRequest hu before success)
      have hrest := ih fun v hv => huses v (List.mem_cons_of_mem u hv)
      exact (congrArg (gobreaker.useAll · uses) huse).trans hrest

theorem Holds.openUntil (h : b.Holds t) : gobreaker.OpenUntil b t := by
  intro uses huses now hle
  rw [h.useAll uses huses]
  constructor
  · exact (congrArg Breaker.state (h.currentState hle)).trans h.state
  · intro generation heq
    have hrefused := congrArg Prod.snd (h.beforeRequest hle)
    exact absurd (hrefused.symm.trans heq) (by simp)

theorem holds_setState (h : b.state ≠ .stateOpen) (now : Nat) :
    (b.setState .stateOpen now).Holds (now + b.settings.timeout) := by
  unfold setState
  rw [if_neg h]
  exact ⟨rfl, _, rfl, Nat.le_refl _⟩

/-- **A breaker that trips** is open for the whole timeout. -/
theorem holds_of_tripped (before : Nat) (success : Bool)
    (h : (b.afterRequest before success now).2 = true) :
    (b.afterRequest before success now).1.Holds (now + b.settings.timeout) := by
  rw [← settings_currentState b now]
  unfold Breaker.afterRequest at h ⊢
  generalize b.currentState now = b at h ⊢
  dsimp only at h ⊢
  split at h
  · exact absurd h (by simp)
  · rename_i hgen
    rw [if_neg hgen]
    cases success with
    | true => exact absurd h (by simp)
    | false =>
        rw [if_neg (by simp)] at h ⊢
        unfold onFailure at h ⊢
        cases hs : b.state with
        | stateClosed =>
            rw [hs] at h
            dsimp only at h ⊢
            split at h
            · rename_i hcount
              rw [if_pos hcount]
              exact holds_setState (b := ⟨b.settings, .stateClosed, _, _, _, _, _⟩) (by simp) now
            · exact absurd h (by simp)
        | stateHalfOpen => exact holds_setState (by simp [hs]) now
        | stateOpen =>
            rw [hs] at h
            exact absurd h (by simp)

/-- The settings of a breaker are those it was made with. -/
theorem settings_of_made {settings : BreakerSettings} (h : gobreaker.Made settings b) :
    b.settings = settings := by
  obtain ⟨made, uses, rfl⟩ := h
  exact settings_useAll (newCircuitBreaker settings made) uses

end Breaker

theorem gobreaker_staysOpen : gobreaker.StaysOpen := by
  intro settings b hmade before success now htrip
  have hholds := Breaker.holds_of_tripped before success htrip
  rw [Breaker.settings_of_made hmade] at hholds
  exact hholds.openUntil

end B5KvStore
