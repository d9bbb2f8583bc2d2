import Mathlib.Logic.Function.Basic

/-!
# Maps under overwriting commands

A command overwrites if what it does at a key does not depend on what is there:
it leaves the value alone, or it puts down one of its own.  Sequences of such
commands overwrite too, so running a sequence again on top of itself is harmless.

* `Overwriting.replay` — sequences of overwriting commands.
* `Overwriting.replay_twice` — a sequence that starts over makes no difference.
-/

namespace Overwrite

variable {α κ ν : Type*}

/-- Run a sequence of commands. -/
def replay (f : α → (κ → ν) → κ → ν) (as : List α) (m : κ → ν) : κ → ν :=
  as.foldl (fun m a => f a m) m

/-- At each key a command leaves the value alone or puts down one of its own. -/
def Overwriting (f : α → (κ → ν) → κ → ν) : Prop :=
  ∀ a k, (∀ m, f a m k = m k) ∨ ∃ v, ∀ m, f a m k = v

variable {f : α → (κ → ν) → κ → ν}

theorem replay_append (f : α → (κ → ν) → κ → ν) (as bs : List α) (m : κ → ν) :
    replay f (as ++ bs) m = replay f bs (replay f as m) := List.foldl_append

/-- A sequence of overwriting commands overwrites. -/
theorem Overwriting.replay (h : Overwriting f) (as : List α) (k : κ) :
    (∀ m, replay f as m k = m k) ∨ ∃ v, ∀ m, replay f as m k = v := by
  induction as with
  | nil => exact Or.inl fun m => rfl
  | cons a as ih =>
      have hcons : ∀ m, Overwrite.replay f (a :: as) m = Overwrite.replay f as (f a m) :=
        fun m => rfl
      rcases ih with hkeep | ⟨v, hv⟩
      · rcases h a k with ha | ⟨v, ha⟩
        · exact Or.inl fun m => by rw [hcons, hkeep, ha]
        · exact Or.inr ⟨v, fun m => by rw [hcons, hkeep, ha]⟩
      · exact Or.inr ⟨v, fun m => by rw [hcons, hv]⟩

/-- **Starting over is harmless.**  Running a sequence on top of its own first part
gives what it gives from the start. -/
theorem Overwriting.replay_twice (h : Overwriting f) (as bs : List α) (m : κ → ν) :
    Overwrite.replay f (as ++ bs) (Overwrite.replay f as m) =
      Overwrite.replay f (as ++ bs) m := by
  funext k
  rw [replay_append, replay_append]
  rcases h.replay bs k with hb | ⟨v, hb⟩
  · rw [hb, hb]
    rcases h.replay as k with ha | ⟨v, ha⟩
    · rw [ha]
    · rw [ha, ha]
  · rw [hb, hb]

end Overwrite
