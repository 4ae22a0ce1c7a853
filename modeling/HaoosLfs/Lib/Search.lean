import Mathlib

/-!
# Loops that are left early

A loop over a list whose body may break. Nested loops that a break leaves together are one
loop over all inner elements, and a loop that breaks at the first element with a property
has skipped those before it.
-/

namespace HaoosLfs

variable {α β σ : Type*}

/-- The flag says that the loop, or the turn of its body, was left by a break. -/
def forBreak (body : σ → α → σ × Bool) : List α → σ → σ × Bool
  | [], s => (s, false)
  | x :: xs, s => if (body s x).2 then body s x else forBreak body xs (body s x).1

theorem forBreak_append (body : σ → α → σ × Bool) (xs ys : List α) (s : σ) :
    forBreak body (xs ++ ys) s =
      if (forBreak body xs s).2 then forBreak body xs s
      else forBreak body ys (forBreak body xs s).1 := by
  induction xs generalizing s with
  | nil => rfl
  | cons x xs ih =>
    rw [List.cons_append, forBreak, forBreak]
    by_cases hx : (body s x).2
    · rw [if_pos hx, if_pos hx, if_pos hx]
    · rw [if_neg hx, if_neg hx, ih]

/-- A break that leaves both loops leaves the loop over all inner elements. -/
theorem forBreak_nested (items : α → List β) (body : σ → β → σ × Bool) (xs : List α) (s : σ) :
    forBreak (fun s x => forBreak body (items x) s) xs s = forBreak body (xs.flatMap items) s := by
  induction xs generalizing s with
  | nil => rfl
  | cons x xs ih => rw [forBreak, List.flatMap_cons, forBreak_append, ih]

/-- The loop breaks at the first element with `p`, and only skips the ones before it. -/
theorem forBreak_find {body : σ → α → σ × Bool} {p : α → Bool} {hit skip : σ → α → σ}
    (hbody : ∀ s x, body s x = if p x then (hit s x, true) else (skip s x, false))
    (xs : List α) (s : σ) :
    forBreak body xs s =
      match xs.find? p with
      | some x => (hit ((xs.takeWhile fun x => !p x).foldl skip s) x, true)
      | none => (xs.foldl skip s, false) := by
  induction xs generalizing s with
  | nil => rfl
  | cons x xs ih =>
    rw [forBreak, hbody]
    by_cases hx : p x = true
    · rw [List.find?_cons_of_pos hx, List.takeWhile_cons_of_neg (by simp [hx]), if_pos hx,
        if_pos rfl]
      rfl
    · rw [List.find?_cons_of_neg hx, List.takeWhile_cons_of_pos (by simp [hx]), if_neg hx,
        if_neg Bool.false_ne_true, ih]
      rfl

end HaoosLfs
