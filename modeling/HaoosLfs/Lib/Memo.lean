import Mathlib

/-!
# Lazy values and their invalidation

Slots whose values are computed when they are asked for, from the values of other
slots, and then kept in a cache. Every slot belongs to an item. When an item changes,
its slots are cleared, and in turn those of the items that depend on it; the search
goes no further where a flag tells that an item has nothing in the cache.
-/

namespace HaoosLfs.Memo

inductive Comp {σ : Type} (α : σ → Type) (β : Type) where
  | ret (b : β)
  | read (s : σ) (next : α s → Comp α β)

variable {σ : Type} {α : σ → Type} {β γ : Type}

namespace Comp

def bind : Comp α β → (β → Comp α γ) → Comp α γ
  | .ret b, f => f b
  | .read s next, f => .read s fun a => (next a).bind f

instance : Monad (Comp α) where
  pure := .ret
  bind := .bind

def get (s : σ) : Comp α (α s) := .read s .ret

def value (env : (s : σ) → α s) : Comp α β → β
  | .ret b => b
  | .read s next => (next (env s)).value env

def MayRead (t : σ) : Comp α β → Prop
  | .ret _ => False
  | .read s next => s = t ∨ ∃ a, (next a).MayRead t

theorem bind_assoc {δ : Type} (p : Comp α β) (f : β → Comp α γ) (g : γ → Comp α δ) :
    p >>= f >>= g = p >>= fun b => f b >>= g := by
  induction p with
  | ret b => rfl
  | read s next ih => exact congrArg (Comp.read s) (funext ih)

@[simp] theorem value_pure (env : (s : σ) → α s) (b : β) :
    (pure b : Comp α β).value env = b := rfl

@[simp] theorem value_bind (env : (s : σ) → α s) (p : Comp α β) (f : β → Comp α γ) :
    (p >>= f).value env = (f (p.value env)).value env := by
  induction p with
  | ret b => rfl
  | read s next ih => exact ih (env s)

/-- Every slot that may be asked for satisfies `P`. -/
def Within (P : σ → Prop) (p : Comp α β) : Prop := ∀ t, p.MayRead t → P t

@[simp] theorem within_pure {P : σ → Prop} {b : β} : (pure b : Comp α β).Within P :=
  fun _ h => h.elim

@[simp] theorem within_get {P : σ → Prop} {s : σ} : (get s : Comp α (α s)).Within P ↔ P s := by
  simp [get, Within, MayRead]

theorem within_bind {P : σ → Prop} {p : Comp α β} {f : β → Comp α γ} (hp : p.Within P)
    (hf : ∀ b, (f b).Within P) : (p >>= f).Within P := by
  induction p with
  | ret b => exact hf b
  | read s next ih =>
    rintro t (rfl | ⟨a, ha⟩)
    · exact hp _ (.inl rfl)
    · exact ih a (fun t ht => hp t (.inr ⟨a, ht⟩)) t ha

theorem within_map {P : σ → Prop} {p : Comp α β} (f : β → γ) (hp : p.Within P) :
    (f <$> p).Within P :=
  within_bind hp fun _ => within_pure

theorem Within.mono {P Q : σ → Prop} {p : Comp α β} (h : p.Within P) (hPQ : ∀ t, P t → Q t) :
    p.Within Q :=
  fun t ht => hPQ t (h t ht)

theorem value_congr {env env' : (s : σ) → α s} {p : Comp α β}
    (h : ∀ t, p.MayRead t → env t = env' t) : p.value env = p.value env' := by
  induction p with
  | ret b => rfl
  | read s next ih =>
    rw [value, value, ← h s (.inl rfl)]
    exact ih (env s) fun t ht => h t (.inr ⟨_, ht⟩)

end Comp

/-! ### The values -/

def Ranked (comp : (s : σ) → Comp α (α s)) (rank : σ → ℕ) : Prop :=
  ∀ s t, (comp s).MayRead t → rank t < rank s

def Comp.run : (p : Comp α β) → ((t : σ) → p.MayRead t → α t) → β
  | .ret b, _ => b
  | .read s next, f => (next (f s (.inl rfl))).run fun t h => f t (.inr ⟨_, h⟩)

theorem Comp.run_eq_value (env : (s : σ) → α s) (p : Comp α β) :
    p.run (fun t _ => env t) = p.value env := by
  induction p with
  | ret b => rfl
  | read s next ih => exact ih (env s)

def solution {comp : (s : σ) → Comp α (α s)} {rank : σ → ℕ} (h : Ranked comp rank) (s : σ) :
    α s :=
  (comp s).run fun t _ => solution h t
termination_by rank s
decreasing_by exact h s t ‹_›

section

variable {comp : (s : σ) → Comp α (α s)} {rank : σ → ℕ}

theorem solution_eq (h : Ranked comp rank) (s : σ) :
    solution h s = (comp s).value (solution h) := by
  rw [solution]
  exact Comp.run_eq_value (solution h) (comp s)

/-- The values are the only ones that agree with all computations. -/
theorem solution_unique (h : Ranked comp rank) {env : (s : σ) → α s}
    (henv : ∀ s, env s = (comp s).value env) (s : σ) : env s = solution h s := by
  induction hr : rank s using Nat.strong_induction_on generalizing s with
  | _ n ih =>
    rw [henv s, solution_eq h s]
    refine Comp.value_congr fun t ht => ih (rank t) ?_ t rfl
    rw [← hr]
    exact h s t ht

theorem solution_congr {comp' : (s : σ) → Comp α (α s)} (h : Ranked comp rank)
    (h' : Ranked comp' rank) {n : ℕ} (hsame : ∀ t, rank t < n → comp t = comp' t) {s : σ}
    (hs : rank s < n) : solution h s = solution h' s := by
  induction hr : rank s using Nat.strong_induction_on generalizing s with
  | _ r ih =>
    rw [solution_eq h, solution_eq h', hsame s hs]
    refine Comp.value_congr fun t ht => ?_
    have hlt := h' s t ht
    exact ih (rank t) (by omega) (by omega) rfl

theorem solution_induction (h : Ranked comp rank) {P : (s : σ) → α s → Prop}
    (hex : ∀ s, ∃ a, P s a)
    (hstep : ∀ env : (s : σ) → α s, (∀ t, P t (env t)) → ∀ s, P s ((comp s).value env)) (s : σ) :
    P s (solution h s) := by
  classical
  induction hr : rank s using Nat.strong_induction_on generalizing s with
  | _ n ih =>
    choose default hdefault using hex
    let env : (t : σ) → α t := fun t => if rank t < n then solution h t else default t
    have henv : ∀ t, P t (env t) := by
      intro t
      by_cases ht : rank t < n
      · simp only [env, if_pos ht]
        exact ih (rank t) ht t rfl
      · simp only [env, if_neg ht]
        exact hdefault t
    have hsame : (comp s).value env = (comp s).value (solution h) := by
      refine Comp.value_congr fun t ht => if_pos ?_
      rw [← hr]
      exact h s t ht
    rw [solution_eq, ← hsame]
    exact hstep env henv s

end

/-! ### The cache -/

abbrev Cache (α : σ → Type) := (s : σ) → Option (α s)

def Comp.replay (c : Cache α) : Comp α β → Option β
  | .ret b => some b
  | .read s next => (c s).bind fun a => (next a).replay c

/-- Every cached value can be computed again from cached values. -/
def Settled (comp : (s : σ) → Comp α (α s)) (c : Cache α) : Prop :=
  ∀ s a, c s = some a → (comp s).replay c = some a

def Extends (c c' : Cache α) : Prop := ∀ s a, c s = some a → c' s = some a

theorem settled_empty (comp : (s : σ) → Comp α (α s)) : Settled comp fun _ => none :=
  fun _ _ h => nomatch h

theorem Extends.trans {c c' c'' : Cache α} (h : Extends c c') (h' : Extends c' c'') :
    Extends c c'' :=
  fun s a ha => h' s a (h s a ha)

namespace Comp

@[simp] theorem replay_pure (c : Cache α) (b : β) : (pure b : Comp α β).replay c = some b := rfl

@[simp] theorem replay_bind (c : Cache α) (p : Comp α β) (f : β → Comp α γ) :
    (p >>= f).replay c = (p.replay c).bind fun b => (f b).replay c := by
  induction p with
  | ret b => rfl
  | read s next ih =>
    change ((c s).bind fun a => (next a >>= f).replay c) =
      ((c s).bind fun a => (next a).replay c).bind fun b => (f b).replay c
    rw [Option.bind_assoc]
    exact congrArg _ (funext ih)

@[simp] theorem replay_get (c : Cache α) (s : σ) : (get s : Comp α (α s)).replay c = c s := by
  cases h : c s <;> simp [get, replay, h]

theorem replay_mono {c c' : Cache α} {p : Comp α β} {b : β} (h : p.replay c = some b)
    (hc : ∀ t, p.MayRead t → ∀ a, c t = some a → c' t = some a) : p.replay c' = some b := by
  induction p with
  | ret b' => exact h
  | read s next ih =>
    obtain ⟨a, ha, hn⟩ := Option.bind_eq_some_iff.mp h
    rw [replay, hc s (.inl rfl) a ha, Option.bind_some]
    exact ih a hn fun t ht => hc t (.inr ⟨a, ht⟩)

theorem replay_eq_value {c : Cache α} {env : (s : σ) → α s} {p : Comp α β} {b : β}
    (h : p.replay c = some b) (hc : ∀ t, p.MayRead t → ∀ a, c t = some a → a = env t) :
    b = p.value env := by
  induction p with
  | ret b' => exact (Option.some.inj h).symm
  | read s next ih =>
    obtain ⟨a, ha, hn⟩ := Option.bind_eq_some_iff.mp h
    obtain rfl := hc s (.inl rfl) a ha
    exact ih _ hn fun t ht => hc t (.inr ⟨_, ht⟩)

end Comp

/-- With slots that only ask for slots below them, a settled cache is right. -/
theorem Settled.right {comp : (s : σ) → Comp α (α s)} {rank : σ → ℕ} (h : Ranked comp rank)
    {c : Cache α} (hc : Settled comp c) {s : σ} {a : α s} (ha : c s = some a) :
    a = solution h s := by
  induction hr : rank s using Nat.strong_induction_on generalizing s with
  | _ n ih =>
    rw [solution_eq]
    refine Comp.replay_eq_value (hc s a ha) fun t ht b hb => ih (rank t) ?_ hb rfl
    rw [← hr]
    exact h s t ht

/-! ### Reading with the cache -/

def Comp.exec (read : (s : σ) → Cache α → Option (α s × Cache α)) :
    Comp α β → Cache α → Option (β × Cache α)
  | .ret b, c => some (b, c)
  | .read s next, c => (read s c).bind fun r => (next r.1).exec read r.2

variable [DecidableEq σ]

/-- `depth` bounds how deep the computations of slots are nested. -/
def read (comp : (s : σ) → Comp α (α s)) : ℕ → (s : σ) → Cache α → Option (α s × Cache α)
  | 0, _, _ => none
  | depth + 1, s, c =>
    match c s with
    | some a => some (a, c)
    | none => ((comp s).exec (read comp depth) c).map fun r =>
        (r.1, Function.update r.2 s (some r.1))

section Reading

variable {comp : (s : σ) → Comp α (α s)} {rank : σ → ℕ}

theorem exec_spec (h : Ranked comp rank) {depth : ℕ}
    (ih : ∀ t c, Settled comp c → rank t < depth → ∃ c', read comp depth t c =
      some (solution h t, c') ∧ Settled comp c' ∧ Extends c c' ∧ c' t = some (solution h t))
    {p : Comp α β} {c : Cache α} (hc : Settled comp c) (hp : ∀ t, p.MayRead t → rank t < depth) :
    ∃ c', p.exec (read comp depth) c = some (p.value (solution h), c') ∧ Settled comp c' ∧
      Extends c c' ∧ p.replay c' = some (p.value (solution h)) := by
  induction p generalizing c with
  | ret b => exact ⟨c, rfl, hc, fun s a ha => ha, rfl⟩
  | read s next ihp =>
    obtain ⟨c1, hr1, hc1, he1, hs1⟩ := ih s c hc (hp s (.inl rfl))
    obtain ⟨c2, hr2, hc2, he2, hp2⟩ :=
      ihp (solution h s) hc1 fun t ht => hp t (.inr ⟨_, ht⟩)
    refine ⟨c2, ?_, hc2, he1.trans he2, ?_⟩
    · rw [Comp.exec, hr1, Option.bind_some, hr2, Comp.value]
    · rw [Comp.replay, he2 s _ hs1, Option.bind_some, hp2, Comp.value]

/-- Reading gives the value of the slot, whatever is in a settled cache, and leaves the
cache settled. -/
theorem read_spec (h : Ranked comp rank) {depth : ℕ} {s : σ} {c : Cache α}
    (hc : Settled comp c) (hdepth : rank s < depth) :
    ∃ c', read comp depth s c = some (solution h s, c') ∧ Settled comp c' ∧ Extends c c' ∧
      c' s = some (solution h s) := by
  induction depth generalizing s c with
  | zero => omega
  | succ depth ih =>
    cases hs : c s with
    | some a =>
      obtain rfl := hc.right h hs
      refine ⟨c, ?_, hc, fun t b hb => hb, hs⟩
      rw [read, hs]
    | none =>
      have hbelow : ∀ t, (comp s).MayRead t → rank t < depth := by
        intro t ht
        have := h s t ht
        omega
      obtain ⟨c1, hr, hc1, he, hp⟩ :=
        exec_spec h (fun t c hc ht => ih hc ht) (p := comp s) hc hbelow
      rw [← solution_eq] at hr hp
      have hext : Extends c1 (Function.update c1 s (some (solution h s))) := by
        intro t b hb
        by_cases ht : t = s
        · subst ht
          rw [Function.update_self, hc1.right h hb]
        · rw [Function.update_of_ne ht, hb]
      refine ⟨Function.update c1 s (some (solution h s)), ?_, ?_, he.trans hext,
        Function.update_self ..⟩
      · rw [read, hs]
        simp only [hr, Option.map_some]
      · intro t b hb
        refine Comp.replay_mono (c := c1) ?_ fun t _ b hb => hext t b hb
        by_cases ht : t = s
        · subst ht
          rw [Function.update_self] at hb
          rw [hp, hb]
        · rw [Function.update_of_ne ht] at hb
          exact hc1 t b hb

end Reading

end HaoosLfs.Memo
