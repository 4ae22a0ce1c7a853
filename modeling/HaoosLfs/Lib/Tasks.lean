import Mathlib

/-!
# A main program beside background tasks

A deterministic main program starts tasks and never waits for them. The runs of the
whole are all the orders in which its steps and the ends of the tasks can come.
-/

namespace HaoosLfs.Tasks
variable {σ ι : Type}

section

/- A step of the main program, with the tasks that it starts. -/
variable (main : σ → Option (σ × List ι))

/-- The runs of the main program, with the tasks that have been started. -/
inductive Alone (s : σ) : List ι → σ → Prop
  | refl : Alone s [] s
  | tail {started new : List ι} {s' s'' : σ} :
      Alone s started s' → main s' = some (s'', new) → Alone s (started ++ new) s''

end

structure World (σ ι : Type) where
  main : σ
  running : List ι
  done : List ι

section
variable [DecidableEq ι] (main : σ → Option (σ × List ι))

inductive Step : World σ ι → World σ ι → Prop
  | main {w : World σ ι} {s : σ} {new : List ι} (h : main w.main = some (s, new)) :
      Step w ⟨s, w.running ++ new, w.done⟩
  | finish {w : World σ ι} {i : ι} (h : i ∈ w.running) :
      Step w ⟨w.main, w.running.erase i, i :: w.done⟩

def Reachable (s : σ) (w : World σ ι) : Prop := Relation.ReflTransGen (Step main) ⟨s, [], []⟩ w

end

section
variable [DecidableEq ι] {main : σ → Option (σ × List ι)} {s : σ}

theorem Reachable.alone {w : World σ ι} (h : Reachable main s w) :
    ∃ started, Alone main s started w.main ∧ started.Perm (w.running ++ w.done) := by
  induction h with
  | refl => exact ⟨[], .refl, List.Perm.refl _⟩
  | @tail w _ _ hstep ih =>
    obtain ⟨started, halone, hperm⟩ := ih
    cases hstep with
    | @main s' new h =>
      have hend : (w.done ++ new).Perm (new ++ w.done) := List.perm_append_comm
      refine ⟨started ++ new, halone.tail h, ?_⟩
      refine (hperm.append_right new).trans ?_
      rw [List.append_assoc, List.append_assoc]
      exact hend.append_left w.running
    | @finish i h =>
      have hfirst : (w.running ++ w.done).Perm ((i :: w.running.erase i) ++ w.done) :=
        (List.perm_cons_erase h).append_right w.done
      exact ⟨started, halone, hperm.trans (hfirst.trans List.perm_middle.symm)⟩

theorem Alone.reachable {started : List ι} {s' : σ} (h : Alone main s started s') :
    Reachable main s ⟨s', started, []⟩ := by
  induction h with
  | refl => exact .refl
  | tail _ hstep ih => exact Relation.ReflTransGen.tail ih (.main hstep)

/-- No task is in progress where the main program is at `P`, in any order of steps,
exactly when none has been started before: nothing waits for the tasks. -/
theorem none_running_iff (P : σ → Prop) :
    (∀ w, Reachable main s w → P w.main → w.running = []) ↔
      ∀ started s', Alone main s started s' → P s' → started = [] := by
  constructor
  · intro h started s' halone hp
    exact h ⟨s', started, []⟩ halone.reachable hp
  · intro h w hw hp
    obtain ⟨started, halone, hperm⟩ := hw.alone
    rw [h started w.main halone hp] at hperm
    exact (List.append_eq_nil_iff.mp (List.nil_perm.mp hperm)).1

end

end HaoosLfs.Tasks
