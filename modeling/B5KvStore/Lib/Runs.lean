import Mathlib.Tactic.TypeStar

/-!
# Runs whose steps meet a condition

A system is a partial step function.  A run is a list of actions, and a condition on
steps may look at the state before the step and at the action.

* `exec` — execute a list of actions.
* `Along` — every step of a run meets a condition; `check` decides it.
* `invariant` — what every such step keeps holds in the end.
* `always_iff_along` — a condition without which a property of every state is lost.
-/

namespace Runs

variable {σ α : Type*} {step : σ → α → Option σ} {ok ok' : σ → α → Prop} {s s' : σ}
  {as bs : List α}

/-- Execute a list of actions. -/
def exec (step : σ → α → Option σ) (s : σ) : List α → Option σ
  | [] => some s
  | a :: as => (step s a).bind fun s' => exec step s' as

/-- Every step of the run meets the condition. -/
def Along (step : σ → α → Option σ) (ok : σ → α → Prop) : σ → List α → Prop
  | _, [] => True
  | s, a :: as => ok s a ∧ ∀ s', step s a = some s' → Along step ok s' as

theorem exec_cons {a : α} (h : exec step s (a :: as) = some s') :
    ∃ t, step s a = some t ∧ exec step t as = some s' := Option.bind_eq_some_iff.1 h

theorem exec_append : exec step s (as ++ bs) = (exec step s as).bind fun t => exec step t bs := by
  induction as generalizing s with
  | nil => rfl
  | cons a as ih =>
      rw [List.cons_append, exec, exec]
      cases step s a with
      | none => rfl
      | some t => exact ih

/-- A run that can be executed meets the condition step by step. -/
theorem Along.cons {a : α} {t : σ} (hok : ok s a) (ht : step s a = some t)
    (h : Along step ok t as) : Along step ok s (a :: as) :=
  ⟨hok, fun _ ht' => Option.some.inj (ht.symm.trans ht') ▸ h⟩

/-- A condition that the actions of a run meet in any state. -/
theorem Along.of_forall (h : ∀ a ∈ as, ∀ s, ok s a) : Along step ok s as := by
  induction as generalizing s with
  | nil => trivial
  | cons a as ih =>
      exact ⟨h a (List.mem_cons_self ..) s,
        fun _ _ => ih fun b hb => h b (List.mem_cons_of_mem a hb)⟩

/-- A weaker condition. -/
theorem Along.imp (himp : ∀ s a, ok s a → ok' s a) (h : Along step ok s as) :
    Along step ok' s as := by
  induction as generalizing s with
  | nil => trivial
  | cons a as ih => exact ⟨himp s a h.1, fun t ht => ih (h.2 t ht)⟩

/-- A run that meets two conditions. -/
theorem Along.and (h : Along step ok s as) (h' : Along step ok' s as) :
    Along step (fun s a => ok s a ∧ ok' s a) s as := by
  induction as generalizing s with
  | nil => trivial
  | cons a as ih => exact ⟨⟨h.1, h'.1⟩, fun t ht => ih (h.2 t ht) (h'.2 t ht)⟩

/-- A run is continued. -/
theorem Along.append (h : Along step ok s as)
    (h' : ∀ t, exec step s as = some t → Along step ok t bs) : Along step ok s (as ++ bs) := by
  induction as generalizing s with
  | nil => exact h' s rfl
  | cons a as ih =>
      refine ⟨h.1, fun t ht => ih (h.2 t ht) fun u hu => h' u ?_⟩
      unfold exec
      rw [ht]
      exact hu

/-- Execute a run and check the condition on the way. -/
def check (step : σ → α → Option σ) (ok : σ → α → Bool) : σ → List α → Bool
  | _, [] => true
  | s, a :: as => ok s a && (step s a).all fun t => check step ok t as

theorem check_iff [∀ s a, Decidable (ok s a)] :
    check step (fun s a => decide (ok s a)) s as = true ↔ Along step ok s as := by
  induction as generalizing s with
  | nil => exact iff_of_true rfl trivial
  | cons a as ih =>
      unfold check Along
      rw [Bool.and_eq_true, decide_eq_true_eq, Option.all_eq_true]
      simp only [ih]

instance [∀ s a, Decidable (ok s a)] : Decidable (Along step ok s as) :=
  decidable_of_iff _ check_iff

/-- A run that is found to end in a state with `P` does. -/
theorem exists_of_exec (P : σ → Prop) [DecidablePred P]
    (h : (exec step s as).any (fun t => decide (P t)) = true) :
    ∃ t, exec step s as = some t ∧ P t := by
  obtain ⟨t, ht, hP⟩ := (Option.any_eq_true _ _).1 h
  exact ⟨t, ht, of_decide_eq_true hP⟩

/-- **Invariants.**  What every allowed step keeps holds after every allowed run. -/
theorem invariant {I : σ → Prop} (hstep : ∀ s a s', I s → ok s a → step s a = some s' → I s')
    (hs : I s) (hok : Along step ok s as) (hrun : exec step s as = some s') : I s' := by
  induction as generalizing s with
  | nil =>
      cases hrun
      exact hs
  | cons a as ih =>
      obtain ⟨t, ht, hrun⟩ := exec_cons hrun
      exact ih (hstep s a t hs hok.1 ht) (hok.2 t ht) hrun

/-- Every state of the run has the property. -/
def Always (step : σ → α → Option σ) (P : σ → Prop) (s : σ) (as : List α) : Prop :=
  ∀ k t, exec step s (as.take k) = some t → P t

/-- **Exact conditions.**  If allowed steps keep an invariant that implies the property, and a
step that is not allowed leads to a state without it, then the property holds all along a run
exactly if every step of the run is allowed. -/
theorem always_iff_along {I P : σ → Prop} (hP : ∀ s, I s → P s)
    (hstep : ∀ s a s', I s → ok s a → step s a = some s' → I s')
    (hbad : ∀ s a, I s → ¬ ok s a → ∃ s', step s a = some s' ∧ ¬ P s') (hs : I s) :
    Always step P s as ↔ Along step ok s as := by
  induction as generalizing s with
  | nil =>
      refine ⟨fun _ => trivial, fun _ k t ht => ?_⟩
      rw [List.take_nil] at ht
      exact Option.some.inj ht ▸ hP s hs
  | cons a as ih =>
      constructor
      · intro h
        have hok : ok s a := by
          refine Classical.byContradiction fun hno => ?_
          obtain ⟨t, ht, hnot⟩ := hbad s a hs hno
          refine hnot (h 1 t ?_)
          simp [exec, ht]
        refine ⟨hok, fun t ht => (ih (hstep s a t hs hok ht)).1 fun k u hu => h (k + 1) u ?_⟩
        rw [List.take_succ_cons, exec, ht]
        exact hu
      · rintro ⟨hok, hrest⟩ k u hu
        cases k with
        | zero => exact Option.some.inj hu ▸ hP s hs
        | succ k =>
            rw [List.take_succ_cons] at hu
            obtain ⟨t, ht, hu⟩ := exec_cons hu
            exact (ih (hstep s a t hs hok ht)).2 (hrest t ht) k u hu

end Runs
