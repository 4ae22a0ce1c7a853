import HaoosLfs.Menu.SetValue

/-!
# Bounds of the values

Values and visibilities are n, m or y, and m only where the type allows it. With these
bounds the short cuts of `expr_value` make no difference.
-/

namespace HaoosLfs.Menu
open Memo

abbrev Env := (s : Slot) → Value s

section

variable (k : Kconfig) (u : Inputs)

/-- `expr_value` without short cuts, with the attributes `env`. -/
def evalItem (env : Env) : Item → ℕ
  | .sym s => (env (.tri s)).1
  | .choice i => (choiceTri k u i).value env

def evalRel (env : Env) (r : Rel) (v1 v2 : Sym) : ℕ := relValue r ((compare k v1 v2).value env)

def evalExpr (env : Env) (e : Expr) : ℕ := valueOf (evalItem k u env) (evalRel k env) e

/-- Of a bool nothing is m, nor is the visibility of what is no tristate. -/
def BoundedAt : (s : Slot) → Value s → Prop
  | .vis (.sym (.var name)), v => v ≤ 2 ∧ ((k.symbol name).origType ≠ .tristate → v ≠ 1)
  | .vis (.sym (.const _)), v => v = 0
  | .vis (.choice i), v => v ≤ 2 ∧ ((k.choice i).origType ≠ .tristate → v ≠ 1)
  | .tri (.var name), v => v.1 ≤ 2 ∧ ((k.symbol name).origType ≠ .tristate → v.1 ≠ 1)
  | .tri (.const _), v => v.1 ≤ 2
  | .str _, _ | .assignable _, _ | .selection _, _ => True

def Bounded (env : Env) : Prop := ∀ s, BoundedAt k s (env s)

end

section

variable {k : Kconfig} {u : Inputs} {env : Env} (h : Bounded k env)

include h

theorem Bounded.vis (x : Item) : env (.vis x) ≤ 2 := by
  have hx := h (.vis x)
  cases x with
  | sym s =>
    cases s with
    | var name => exact hx.1
    | const name => exact le_of_eq_of_le hx (Nat.zero_le 2)
  | choice i => exact hx.1

theorem Bounded.tri (s : Sym) : (env (.tri s)).1 ≤ 2 := by
  have hs := h (.tri s)
  cases s with
  | var name => exact hs.1
  | const name => exact hs

omit h in
theorem promoteMode_le {c : Choice} {val : ℕ} (hval : val ≤ 2) :
    (promoteMode k c val).value env ≤ 2 := by
  unfold promoteMode
  split_ifs
  · rw [Comp.value_bind, Comp.value_pure]
    split_ifs <;> omega
  · exact hval

theorem Bounded.choiceTri_le (i : ℕ) : (choiceTri k u i).value env ≤ 2 := by
  have hvis := h.vis (.choice i)
  rw [choiceTri, Comp.value_bind]
  exact promoteMode_le (le_trans (Nat.min_le_right _ _) hvis)

theorem Bounded.evalExpr_le (e : Expr) : evalExpr k u env e ≤ 2 := by
  refine valueOf_le (fun x => ?_) (fun r v1 v2 => relValue_le _ _) e
  cases x with
  | sym s => exact h.tri s
  | choice i => exact h.choiceTri_le i

theorem Bounded.exprValue (e : Expr) : (exprValue k u e).value env = evalExpr k u env e := by
  induction e with
  | item x =>
    cases x with
    | sym s => rfl
    | choice i => rfl
  | not e ih =>
    rw [Menu.exprValue, Comp.value_bind, ih]
    rfl
  | and e1 e2 ih1 ih2 =>
    rw [Menu.exprValue, Comp.value_bind, ih1]
    change _ = min (evalExpr k u env e1) (evalExpr k u env e2)
    split_ifs with h0
    · rw [h0, Nat.zero_min]
      rfl
    · rw [Comp.value_bind, ih2]
      rfl
  | or e1 e2 ih1 ih2 =>
    have hle : evalExpr k u env e2 ≤ 2 := h.evalExpr_le e2
    rw [Menu.exprValue, Comp.value_bind, ih1]
    change _ = max (evalExpr k u env e1) (evalExpr k u env e2)
    split_ifs with h2
    · rw [h2, Nat.max_eq_left hle]
      rfl
    · rw [Comp.value_bind, ih2]
      rfl
  | rel r v1 v2 =>
    rw [Menu.exprValue, Comp.value_bind]
    rfl

theorem Bounded.exprValue_le (e : Expr) : (Menu.exprValue k u e).value env ≤ 2 := by
  rw [h.exprValue]
  exact h.evalExpr_le e

theorem Bounded.promptValue_le {es : List Expr} {vis : ℕ} (hvis : vis ≤ 2) :
    (promptValue k u vis es).value env ≤ 2 := by
  induction es generalizing vis with
  | nil => exact hvis
  | cons e es ih =>
    rw [promptValue, Comp.value_bind]
    exact ih (Nat.max_le.mpr ⟨hvis, h.exprValue_le e⟩)

omit h in
theorem promote_le {type : Prog SymbolType} {vis : ℕ} (hvis : vis ≤ 2) :
    (promote vis type).value env ≤ 2 := by
  unfold promote
  split_ifs
  · rw [Comp.value_bind, Comp.value_pure]
    split_ifs <;> omega
  · exact hvis

omit h in
theorem promote_ne_one {type : Prog SymbolType} {vis : ℕ}
    (ht : type.value env ≠ .tristate) : (promote vis type).value env ≠ 1 := by
  unfold promote
  split_ifs with h1
  · rw [Comp.value_bind, Comp.value_pure, if_neg ht]
    omega
  · exact h1

omit h in
theorem symbolType_of_ne {sym : Symbol} (ht : sym.origType ≠ .tristate) :
    (symbolType k u sym).value env = sym.origType := by
  rw [symbolType, if_neg ht, Comp.value_pure]

omit h in
theorem choiceType_of_ne {c : Choice} (ht : c.origType ≠ .tristate) :
    (choiceType k c).value env = c.origType := by
  rw [choiceType, if_neg ht, Comp.value_pure]

theorem Bounded.symbolVisibility (sym : Symbol) :
    (symbolVisibility k u sym).value env ≤ 2 ∧
      (sym.origType ≠ .tristate → (Menu.symbolVisibility k u sym).value env ≠ 1) := by
  have hvis : (promptValue k u 0 sym.prompts).value env ≤ 2 := h.promptValue_le (Nat.zero_le 2)
  simp only [Menu.symbolVisibility, Comp.value_bind]
  split_ifs
  · exact ⟨Nat.zero_le 2, fun _ => Nat.zero_ne_one⟩
  · refine ⟨promote_le hvis, fun ht => promote_ne_one ?_⟩
    rwa [symbolType_of_ne ht]

theorem Bounded.choiceVisibility (c : Choice) :
    (choiceVisibility k u c).value env ≤ 2 ∧
      (c.origType ≠ .tristate → (Menu.choiceVisibility k u c).value env ≠ 1) := by
  have hvis : (promptValue k u 0 c.prompts).value env ≤ 2 := h.promptValue_le (Nat.zero_le 2)
  rw [Menu.choiceVisibility, Comp.value_bind]
  refine ⟨promote_le hvis, fun ht => promote_ne_one ?_⟩
  rwa [choiceType_of_ne ht]

/-! ### Values of symbols -/

theorem Bounded.activeDefault_le (defaults : List (Expr × Expr)) :
    ∀ d ∈ (activeDefault k u defaults).value env, d.2 ≤ 2 ∧ d.2 ≠ 0 := by
  induction defaults with
  | nil => exact nofun
  | cons d defaults ih =>
    obtain ⟨e, cond⟩ := d
    rw [activeDefault, Comp.value_bind]
    split_ifs with hc
    · rintro d hd
      obtain rfl := Option.some.inj hd
      exact ⟨h.exprValue_le cond, hc⟩
    · exact ih

theorem Bounded.ownTri_le (name : Text) (sym : Symbol) {vis : ℕ} (hvis : vis ≤ 2) :
    ((ownTri k u name sym vis).value env).1 ≤ 2 := by
  have hdefault : ((defaultTri k u sym vis).value env).1 ≤ 2 := by
    rw [defaultTri, Comp.value_bind]
    have hd := h.activeDefault_le (u := u) sym.defaults
    cases hv : (activeDefault k u sym.defaults).value env with
    | none => exact Nat.zero_le 2
    | some d =>
      rw [hv] at hd
      rw [Comp.value_bind, Comp.value_pure]
      exact le_trans (Nat.min_le_right _ _) (hd d rfl).1
  unfold ownTri
  split_ifs
  · exact le_trans (Nat.min_le_right _ _) hvis
  · rw [Comp.value_bind, withWeak, Comp.value_bind]
    split_ifs
    · exact hdefault
    · rw [Comp.value_bind, Comp.value_pure]
      split_ifs
      · exact Nat.max_le.mpr ⟨h.exprValue_le _, hdefault⟩
      · exact hdefault

theorem Bounded.withRev_le (sym : Symbol) {r : ℕ × Bool} (hr : r.1 ≤ 2) :
    ((withRev k u sym r).value env).1 ≤ 2 := by
  rw [withRev, Comp.value_bind]
  split_ifs
  · exact hr
  · rw [Comp.value_bind, Comp.value_pure]
    exact Nat.max_le.mpr ⟨h.exprValue_le _, hr⟩

omit h in
theorem notM_of_bool {sym : Symbol} (ht : sym.origType = .bool) :
    (notM k u sym).value env = true := by
  rw [notM, Comp.value_bind, symbolType_of_ne (by rw [ht]; decide), if_pos ht, Comp.value_pure]

omit h in
theorem promoteTri_value (env : Env) (sym : Symbol) {r : ℕ × Bool} (hr : r.1 ≤ 2) :
    ((promoteTri k u sym r).value env).1 ≤ 2 ∧
      (sym.origType = .bool → ((promoteTri k u sym r).value env).1 ≠ 1) := by
  unfold promoteTri
  split_ifs with h1
  · rw [Comp.value_bind, Comp.value_pure]
    refine ⟨by dsimp only; split_ifs <;> omega, fun ht => ?_⟩
    rw [notM_of_bool ht, if_pos rfl]
    omega
  · exact ⟨hr, fun _ => h1⟩

theorem Bounded.choiceSymbolTri (name : Text) (i : ℕ) :
    ((choiceSymbolTri u name i).value env).1 ≤ 2 ∧
      ((k.symbol name).origType ≠ .tristate →
        ((Menu.choiceSymbolTri u name i).value env).1 ≠ 1) := by
  have hvis := h (.vis (.sym (.var name)))
  have hv : (visibility (.sym (.var name))).value env = env (.vis (.sym (.var name))) := rfl
  rw [Menu.choiceSymbolTri, Comp.value_bind, hv]
  by_cases h2 : env (.vis (.sym (.var name))) = 2
  · rw [if_pos h2, Comp.value_bind, Comp.value_pure]
    refine ⟨?_, fun _ => ?_⟩ <;> dsimp only <;> split_ifs <;> omega
  · rw [if_neg h2, Comp.value_pure]
    refine ⟨by dsimp only; split_ifs <;> omega, fun ht => ?_⟩
    have hzero : ∀ vis : ℕ, vis ≤ 2 → vis ≠ 1 → vis ≠ 2 → vis = 0 := by omega
    rw [if_neg fun hn => hn.1 (hzero _ hvis.1 (hvis.2 ht) h2)]
    exact Nat.zero_ne_one

theorem Bounded.triValue (s : Sym) : BoundedAt k (.tri s) ((triValue k u s).value env) := by
  cases s with
  | const name =>
    change ((strToTri name).getD 0) ≤ 2
    unfold strToTri
    split <;> simp
  | var name =>
    simp only [Menu.triValue, BoundedAt]
    split_ifs with ht
    · split
      · rw [plainTri, Comp.value_bind, Comp.value_bind, Comp.value_bind]
        have hown := h.ownTri_le (u := u) name (k.symbol name) (h.vis (.sym (.var name)))
        have hrev := h.withRev_le (u := u) (k.symbol name) hown
        have hr := promoteTri_value (k := k) (u := u) env (k.symbol name) hrev
        exact ⟨hr.1, fun hn => hr.2 (ht.resolve_right hn)⟩
      · exact h.choiceSymbolTri name _
    · exact ⟨Nat.zero_le 2, fun _ => Nat.zero_ne_one⟩

theorem Bounded.compute (s : Slot) : BoundedAt k s ((compute k u s).value env) := by
  cases s with
  | vis x =>
    cases x with
    | sym s =>
      cases s with
      | var name => exact h.symbolVisibility (k.symbol name)
      | const name => rfl
    | choice i => exact h.choiceVisibility (k.choice i)
  | tri s => exact h.triValue s
  | str s => trivial
  | assignable x => trivial
  | selection i => trivial

end

theorem exists_boundedAt (k : Kconfig) (s : Slot) : ∃ a, BoundedAt k s a := by
  cases s with
  | vis x =>
    cases x with
    | sym s =>
      cases s with
      | var name => exact ⟨(0 : ℕ), Nat.zero_le 2, fun _ => Nat.zero_ne_one⟩
      | const name => exact ⟨(0 : ℕ), rfl⟩
    | choice i => exact ⟨(0 : ℕ), Nat.zero_le 2, fun _ => Nat.zero_ne_one⟩
  | tri s =>
    cases s with
    | var name => exact ⟨(0, false), Nat.zero_le 2, fun _ => Nat.zero_ne_one⟩
    | const name => exact ⟨(0, false), Nat.zero_le 2⟩
  | str s => exact ⟨([], false), trivial⟩
  | assignable x => exact ⟨([] : List ℕ), trivial⟩
  | selection i => exact ⟨(none : Option Text), trivial⟩

theorem bounded_value {k : Kconfig} {u : Inputs} {level : Item → ℕ} (hk : WellFormed k)
    (hl : Layered k level) (hu : u.Valid k) : Bounded k (value hk hl hu) :=
  solution_induction (ranked hk hl hu) (exists_boundedAt k) fun _ henv s =>
    Bounded.compute henv s

end HaoosLfs.Menu
