import Mathlib

/-!
# Recursion on shorter lists

A function with fuel whose body calls it for shorter lists only: the length of the list
is fuel enough, and with it the function is the recursion that its body describes.
-/

namespace HaoosLfs

variable {α β : Type*}

def CallsShorter (body : (List α → β) → List α → β) : Prop :=
  ∀ call call' s, (∀ t : List α, t.length < s.length → call t = call' t) →
    body call s = body call' s

variable {body : (List α → β) → List α → β} {f : ℕ → List α → β}

theorem fuel_eq_fuel (hbody : CallsShorter body) (hzero : ∀ call, f 0 [] = body call [])
    (hsucc : ∀ n s, f (n + 1) s = body (f n) s) {n m : ℕ} {s : List α} (hn : s.length ≤ n)
    (hm : s.length ≤ m) : f n s = f m s := by
  induction n generalizing m s with
  | zero =>
    rw [List.length_eq_zero_iff.mp (Nat.le_zero.mp hn)]
    cases m with
    | zero => rfl
    | succ m => rw [hsucc]; exact hzero _
  | succ n ih =>
    cases m with
    | zero =>
      rw [List.length_eq_zero_iff.mp (Nat.le_zero.mp hm), hsucc]
      exact (hzero _).symm
    | succ m =>
      rw [hsucc, hsucc]
      exact hbody _ _ _ fun t ht => ih (by omega) (by omega)

theorem fuel_eq_body (hbody : CallsShorter body) (hzero : ∀ call, f 0 [] = body call [])
    (hsucc : ∀ n s, f (n + 1) s = body (f n) s) (s : List α) :
    f s.length s = body (fun t => f t.length t) s := by
  rw [fuel_eq_fuel hbody hzero hsucc (Nat.le_refl _) (Nat.le_succ _), hsucc]
  exact hbody _ _ _ fun t ht => fuel_eq_fuel hbody hzero hsucc (Nat.le_of_lt ht) (Nat.le_refl _)

/-- The function `f` with fuel computes a recursion that ends: the calls of its body are for
shorter lists, the length of a list is fuel enough for it, and the results satisfy the
equation of the body. -/
structure Terminates (body : (List α → β) → List α → β) (f : ℕ → List α → β) (g : List α → β) :
    Prop where
  shorter : CallsShorter body
  enough : ∀ n s, s.length ≤ n → f n s = g s
  equation : ∀ s, g s = body g s

theorem terminates_of_body (hbody : CallsShorter body) (hzero : ∀ call, f 0 [] = body call [])
    (hsucc : ∀ n s, f (n + 1) s = body (f n) s) : Terminates body f fun s => f s.length s := by
  constructor
  · exact hbody
  · exact fun n s hn => fuel_eq_fuel hbody hzero hsucc hn (Nat.le_refl _)
  · exact fuel_eq_body hbody hzero hsucc

end HaoosLfs
