import HaoosLfs.Menu.LoadConfig

/-!
# A configuration that is written and loaded

The values of all symbols are restored, whatever was set before. Loading gives other user
values than the original ones; the attributes still agree with all computations, and only
one solution does.
-/

namespace HaoosLfs.Menu
open Memo

/-! ### Computations whose choices have the same modes -/

def SameModeValues (k : Kconfig) (u u' : Inputs) (env : Env) : Prop :=
  ∀ i, (choiceTri k u' i).value env = (choiceTri k u i).value env

namespace SameModeValues

variable {k : Kconfig} {u u' : Inputs} {env : Env} (h : SameModeValues k u u' env)

include h

theorem exprValue (e : Expr) : (exprValue k u' e).value env = (exprValue k u e).value env := by
  induction e with
  | item x =>
    cases x with
    | sym s => rfl
    | choice i => exact h i
  | not e ih => simp only [Menu.exprValue, Comp.value_bind, ih]
  | and e1 e2 ih1 ih2 =>
    simp only [Menu.exprValue, Comp.value_bind, ih1]
    split_ifs
    · rfl
    · rw [Comp.value_bind, Comp.value_bind, ih2]
  | or e1 e2 ih1 ih2 =>
    simp only [Menu.exprValue, Comp.value_bind, ih1]
    split_ifs
    · rfl
    · rw [Comp.value_bind, Comp.value_bind, ih2]
  | rel r v1 v2 => rfl

theorem promptValue (vis : ℕ) (es : List Expr) :
    (promptValue k u' vis es).value env = (promptValue k u vis es).value env := by
  induction es generalizing vis with
  | nil => rfl
  | cons e es ih => simp only [Menu.promptValue, Comp.value_bind, h.exprValue, ih]

theorem symbolType (sym : Symbol) :
    (symbolType k u' sym).value env = (symbolType k u sym).value env := by
  have hmode : (ownMode k u' sym).value env = (ownMode k u sym).value env := by
    unfold ownMode
    split
    · exact h _
    · rfl
  unfold Menu.symbolType
  split_ifs
  · rw [Comp.value_bind, Comp.value_bind, hmode]
  · rfl

theorem hidden (sym : Symbol) (vis : ℕ) :
    (hidden k u' sym vis).value env = (hidden k u sym vis).value env := by
  cases hc : sym.choice with
  | none => simp only [Menu.hidden, hc]
  | some i => rw [hidden_value hc, hidden_value hc, h i]

omit h in
theorem promote {vis : ℕ} {t t' : Prog SymbolType} (ht : t'.value env = t.value env) :
    (promote vis t').value env = (Menu.promote vis t).value env := by
  unfold Menu.promote
  split_ifs
  · rw [Comp.value_bind, Comp.value_bind, ht]
  · rfl

theorem symbolVisibility (sym : Symbol) :
    (symbolVisibility k u' sym).value env = (symbolVisibility k u sym).value env := by
  simp only [Menu.symbolVisibility, Comp.value_bind, h.promptValue, h.hidden]
  split_ifs
  · rfl
  · exact promote (h.symbolType sym)

theorem choiceVisibility (c : Choice) :
    (choiceVisibility k u' c).value env = (choiceVisibility k u c).value env := by
  simp only [Menu.choiceVisibility, Comp.value_bind, h.promptValue]

theorem activeDefault (defaults : List (Expr × Expr)) :
    (activeDefault k u' defaults).value env = (activeDefault k u defaults).value env := by
  induction defaults with
  | nil => rfl
  | cons d defaults ih =>
    simp only [Menu.activeDefault, Comp.value_bind, h.exprValue]
    split_ifs
    · rfl
    · exact ih

theorem defaultStr (defaults : List (Expr × Expr)) :
    (defaultStr k u' defaults).value env = (defaultStr k u defaults).value env := by
  rw [Menu.defaultStr, Menu.defaultStr, Comp.value_bind, Comp.value_bind, h.activeDefault]

theorem activeRange (base : ℕ) (ranges : List (Sym × Sym × Expr)) :
    (activeRange k u' base ranges).value env = (activeRange k u base ranges).value env := by
  induction ranges with
  | nil => rfl
  | cons r ranges ih =>
    simp only [Menu.activeRange, Comp.value_bind, h.exprValue]
    split_ifs
    · rfl
    · exact ih

theorem numberDefault (sym : Symbol) (vis : ℕ) (range : Option (ℤ × ℤ)) :
    (numberDefault k u' sym vis range).value env =
      (numberDefault k u sym vis range).value env := by
  rw [Menu.numberDefault, Menu.numberDefault, Comp.value_bind, Comp.value_bind, h.defaultStr]

theorem notM (sym : Symbol) : (notM k u' sym).value env = (notM k u sym).value env := by
  rw [notM_value, notM_value, h.symbolType, h.exprValue]

theorem defaultTri (sym : Symbol) (vis : ℕ) :
    (defaultTri k u' sym vis).value env = (defaultTri k u sym vis).value env := by
  rw [Menu.defaultTri, Menu.defaultTri, Comp.value_bind, Comp.value_bind, h.activeDefault]
  split
  · rw [Comp.value_bind, Comp.value_bind, h.exprValue]
  · rfl

theorem withWeak (sym : Symbol) (r : ℕ × Bool) :
    (withWeak k u' sym r).value env = (withWeak k u sym r).value env := by
  simp only [Menu.withWeak, Comp.value_bind, h.exprValue]
  split_ifs
  · rfl
  · rw [Comp.value_bind, Comp.value_bind, h.exprValue]

theorem withRev (sym : Symbol) (r : ℕ × Bool) :
    (withRev k u' sym r).value env = (withRev k u sym r).value env := by
  simp only [Menu.withRev, Comp.value_bind, h.exprValue]
  split_ifs
  · rfl
  · rw [Comp.value_bind, Comp.value_bind]

theorem promoteTri (sym : Symbol) (r : ℕ × Bool) :
    (promoteTri k u' sym r).value env = (promoteTri k u sym r).value env := by
  unfold Menu.promoteTri
  split_ifs
  · rw [Comp.value_bind, Comp.value_bind, h.notM]
  · rfl

theorem assignable (s : Sym) :
    (symbolAssignable k u' s).value env = (symbolAssignable k u s).value env := by
  have hy : ∀ sym rev, (assignableY k u' sym rev).value env =
      (assignableY k u sym rev).value env := by
    intro sym rev
    unfold assignableY
    split_ifs
    · rfl
    · rw [Comp.value_bind, Comp.value_bind, h.notM]
  have hm : ∀ sym rev, (assignableM k u' sym rev).value env =
      (assignableM k u sym rev).value env := by
    intro sym rev
    unfold assignableM
    split_ifs
    · rw [Comp.value_bind, Comp.value_bind, h.exprValue]
    · rfl
    · rfl
  cases s with
  | const name => rfl
  | var name =>
    simp only [symbolAssignable]
    split_ifs
    · rw [Comp.value_bind, Comp.value_bind]
      split_ifs
      · rfl
      · rw [Comp.value_bind, Comp.value_bind, h.exprValue]
        exact hy _ _
      · rw [Comp.value_bind, Comp.value_bind, h.exprValue]
        exact hm _ _
    · rfl

theorem selectionFromDefaults (syms : List Text) (defaults : List (Text × Expr)) :
    (selectionFromDefaults k u' syms defaults).value env =
      (selectionFromDefaults k u syms defaults).value env := by
  induction defaults with
  | nil => rfl
  | cons d rest ih =>
    simp only [Menu.selectionFromDefaults, Comp.value_bind, h.exprValue]
    split_ifs
    · exact ih
    · rw [Comp.value_bind, Comp.value_bind]
      split_ifs
      · rfl
      · exact ih

end SameModeValues

/-! ### What is restored -/

/-- The mode of a choice whose `user_value` is `mode`. -/
def modeWith (k : Kconfig) (env : Env) (i : ℕ) (mode : Option ℕ) : ℕ :=
  (promoteMode k (k.choice i)
    (min (wantedMode (k.choice i) mode) (visIn env (.choice i)))).value env

/-- What a configuration file cannot hold: a user value of a symbol that is never written,
a tristate above its visibility, and a mode of a choice without m or y symbols. -/
structure Restorable (k : Kconfig) (u : Inputs) (env : Env) : Prop where
  sane : ∀ i, .choice i ∈ k.items → Sane k i
  auto : ∀ name, (k.symbol name).auto = true → (k.symbol name).prompts = []
  limited : ∀ name, (k.symbol name).choice = none → visIn env (.sym (.var name)) = 1 →
    userTri ((exprValue k u (k.symbol name).revDep).value env) 1
      ((notM k u (k.symbol name)).value env) (triIn env (.var name)) = triIn env (.var name)
  mode : ∀ i, (∀ name ∈ (k.choice i).syms, triIn env (.var name) = 0) →
    modeWith k env i none = (choiceTri k u i).value env

section

variable {k : Kconfig} {u u' : Inputs} {env : Env}

theorem choiceTri_value (i : ℕ) : (choiceTri k u i).value env = modeWith k env i (u.mode i) := by
  rw [choiceTri, Comp.value_bind]
  rfl

theorem promoteMode_value (c : Choice) (m : ℕ) : (promoteMode k c m).value env =
    if m = 1 then (if (choiceType k c).value env = .bool then 2 else 1) else m := by
  unfold promoteMode
  split_ifs with h1 hb
  · rw [Comp.value_bind, Comp.value_pure, if_pos hb]
  · rw [Comp.value_bind, Comp.value_pure, if_neg hb, h1]
  · rfl

variable (h : Solves k u env)

include h

theorem Solves.mode_again {i : ℕ} (hne : (choiceTri k u i).value env ≠ 0) :
    modeWith k env i (some ((choiceTri k u i).value env)) = (choiceTri k u i).value env := by
  have hvis2 : visIn env (.choice i) ≤ 2 := h.bounded.vis _
  have hvis1 : visIn env (.choice i) = 1 → (choiceType k (k.choice i)).value env = .tristate := by
    intro h1
    have hv : visIn env (.choice i) = (choiceVisibility k u (k.choice i)).value env := h.eq _
    rw [h1, choiceVisibility, Comp.value_bind] at hv
    exact promote_eq_one hv.symm
  have hone : ∀ v, wantedMode (k.choice i) (some v) =
      max (if (k.choice i).isOptional then 0 else 1) v := fun _ => rfl
  rw [choiceTri_value] at hne ⊢
  unfold modeWith at hne ⊢
  rw [promoteMode_value] at hne ⊢
  rw [promoteMode_value, hone]
  generalize wantedMode (k.choice i) (u.mode i) = want at hne ⊢
  generalize visIn env (.choice i) = vis at hvis2 hvis1 hne ⊢
  have hle : (if (k.choice i).isOptional then 0 else 1) ≤ 1 := by split_ifs <;> omega
  generalize (if (k.choice i).isOptional then 0 else 1) = least at hle ⊢
  by_cases hb : (choiceType k (k.choice i)).value env = .bool
  · have h1 : vis ≠ 1 := by
      intro h1
      rw [hvis1 h1] at hb
      cases hb
    by_cases hm : min want vis = 1
    · simp only [hb, hm, if_true]
      split_ifs <;> omega
    · simp only [hb, hm, if_true, if_false] at hne ⊢
      split_ifs <;> omega
  · by_cases hm : min want vis = 1
    · simp only [hb, hm, if_true, if_false]
      split_ifs <;> omega
    · simp only [hb, hm, if_false] at hne ⊢
      split_ifs <;> omega

theorem Loaded.sameModes (hl : Loaded k u env u') (hr : Restorable k u env) (hk : WellFormed k) :
    SameModeValues k u u' env := by
  intro i
  rw [choiceTri_value]
  by_cases hex : ∃ name ∈ (k.choice i).syms, triIn env (.var name) ≠ 0
  · obtain ⟨name, hname, hne⟩ := hex
    have hs := hr.sane i (mem_items_of_member hname)
    have hmode := h.tri_eq_mode hk hs hname hne
    rw [hl.picked i name hname hne]
    exact h.mode_again (hmode ▸ hne)
  · have hzero : ∀ name ∈ (k.choice i).syms, triIn env (.var name) = 0 := by
      intro name hname
      by_contra hne
      exact hex ⟨name, hname, hne⟩
    rw [(hl.unpicked i hzero).1]
    exact hr.mode i hzero

/-! ### Symbols outside choices -/

omit h in
theorem plainTri_snd {name : Text} {sym : Symbol} (hvis : visIn env (.sym (.var name)) ≠ 0) :
    ((plainTri k u name sym).value env).2 = true := by
  have hown : ((ownTri k u name sym (visIn env (.sym (.var name)))).value env).2 = true := by
    unfold ownTri
    split_ifs
    · rfl
    · rw [Comp.value_bind]
      have hdef : ((defaultTri k u sym (visIn env (.sym (.var name)))).value env).2 = true := by
        rw [defaultTri, Comp.value_bind]
        split
        · rw [Comp.value_bind, Comp.value_pure]
          simp [hvis]
        · rw [Comp.value_pure]
          exact decide_eq_true hvis
      rw [withWeak, Comp.value_bind]
      split_ifs
      · exact hdef
      · rw [Comp.value_bind, Comp.value_pure]
        split_ifs
        · rfl
        · exact hdef
  have hrev : ((withRev k u sym
      ((ownTri k u name sym (visIn env (.sym (.var name)))).value env)).value env).2 = true := by
    rw [withRev, Comp.value_bind]
    split_ifs
    · exact hown
    · rw [Comp.value_bind, Comp.value_pure]
  rw [plainTri_value]
  unfold promoteTri
  split_ifs
  · rw [Comp.value_bind, Comp.value_pure]
    exact hrev
  · exact hrev

variable {name : Text}

theorem Solves.tri_plain (hc : (k.symbol name).choice = none)
    (ht : (k.symbol name).origType = .bool ∨ (k.symbol name).origType = .tristate) :
    env (.tri (.var name)) = (plainTri k u name (k.symbol name)).value env := by
  rw [h.eq (.tri (.var name))]
  simp only [compute, triValue, if_pos ht, hc]

theorem Solves.plain_again (hr : Restorable k u env) (hc : (k.symbol name).choice = none)
    (ht : (k.symbol name).origType = .bool ∨ (k.symbol name).origType = .tristate)
    (hvis : visIn env (.sym (.var name)) ≠ 0) :
    userTri ((exprValue k u (k.symbol name).revDep).value env) (visIn env (.sym (.var name)))
      ((notM k u (k.symbol name)).value env) (triIn env (.var name)) = triIn env (.var name) := by
  have hvis2 : visIn env (.sym (.var name)) ≤ 2 := h.bounded.vis _
  by_cases h1 : visIn env (.sym (.var name)) = 1
  · rw [h1]
    exact hr.limited name hc h1
  · have h2 : visIn env (.sym (.var name)) = 2 := by omega
    have hle : triIn env (.var name) ≤ 2 := h.bounded.tri _
    have hv : triIn env (.var name) = _ := congrArg Prod.fst (h.tri_plain hc ht)
    rw [plainTri_value, promoteTri_fst, withRev_fst] at hv
    rw [h2, userTri]
    generalize (exprValue k u (k.symbol name).revDep).value env = rev at hv ⊢
    generalize (notM k u (k.symbol name)).value env = noM at hv ⊢
    generalize ((ownTri k u name (k.symbol name) (visIn env (.sym (.var name)))).value env).1 = own
      at hv
    generalize triIn env (.var name) = v at hv hle ⊢
    cases noM <;> simp only [Bool.false_eq_true, if_true, if_false] at hv ⊢ <;>
      split_ifs at hv ⊢ <;> omega

theorem Solves.loaded_tri (ht : (k.symbol name).origType = .bool ∨
      (k.symbol name).origType = .tristate) (hflag : (env (.tri (.var name))).2 = true) :
    loadedValue k env name = some (.tri (triIn env (.var name))) := by
  have hstr : (strIn env name).2 = true := by
    have heq : strIn env name = (strValue k u (.var name)).value env := h.eq _
    rw [heq, ← hflag]
    rcases ht with hb | hb <;> simp only [strValue, hb, Comp.value_bind] <;> rfl
  rw [loadedValue, written, if_pos hstr]
  exact h.valid_of_isTri (by simpa [isTri] using ht)

omit h in
theorem Loaded.tri_eq (hl : Loaded k u env u') {v : ℕ}
    (hv : loadedValue k env name = some (.tri v)) : u'.tri name = some v := by
  rw [Inputs.tri, hl.value, hv]

variable (hl : Loaded k u env u') (hr : Restorable k u env) (hk : WellFormed k)

include hl hr hk

theorem Loaded.plainTri (hc : (k.symbol name).choice = none)
    (ht : (k.symbol name).origType = .bool ∨ (k.symbol name).origType = .tristate) :
    env (.tri (.var name)) = (plainTri k u' name (k.symbol name)).value env := by
  have hm := hl.sameModes h hr hk
  by_cases hvis : visIn env (.sym (.var name)) = 0
  · have hown : ∀ w : Inputs, ownTri k w name (k.symbol name) 0 =
        (defaultTri k w (k.symbol name) 0 >>= withWeak k w (k.symbol name)) :=
      fun w => if_neg fun hn => hn.2 rfl
    rw [h.tri_plain hc ht, plainTri_value, plainTri_value, hvis, hown, hown, Comp.value_bind,
      Comp.value_bind, hm.defaultTri, hm.withWeak, hm.withRev, hm.promoteTri]
  · have hflag : (env (.tri (.var name))).2 = true := by
      rw [h.tri_plain hc ht]
      exact plainTri_snd hvis
    have hset := hl.tri_eq (h.loaded_tri ht hflag)
    refine Prod.ext ?_ (hflag.trans (plainTri_snd hvis).symm)
    rw [plainTri_user hset hvis, hm.exprValue, hm.notM]
    exact (h.plain_again hr hc ht hvis).symm

omit h hl hr hk in
theorem selection_of_user {i : ℕ} (hy : (choiceTri k u i).value env = 2)
    (hs : u.userSelection i = some name) (hvis : visIn env (.sym (.var name)) ≠ 0) :
    (selection k u i).value env = some name := by
  have hv : (visibility (.sym (.var name))).value env = visIn env (.sym (.var name)) := rfl
  rw [selection, Comp.value_bind, hy, if_neg (by decide)]
  simp only [hs, Comp.value_bind, hv]
  rw [if_pos hvis]
  rfl

omit h hl hr hk in
theorem selection_of_defaults {i : ℕ} (hy : (choiceTri k u i).value env = 2)
    (hs : u.userSelection i = none) : (selection k u i).value env =
      (selectionFromDefaults k u (k.choice i).syms (k.choice i).defaults).value env := by
  rw [selection, Comp.value_bind, hy, if_neg (by decide)]
  simp only [hs]

theorem Loaded.selection (hu : u.Valid k) (i : ℕ) :
    env (.selection i) = (selection k u' i).value env := by
  have hm := hl.sameModes h hr hk
  by_cases hy : (choiceTri k u i).value env = 2
  · obtain ⟨hsome, hnone⟩ := h.selection_of_y hk hu hy
    have hy' : (choiceTri k u' i).value env = 2 := (hm i).trans hy
    cases hsel : env (.selection i) with
    | some name =>
      obtain ⟨hname, hvis⟩ := hsome name hsel
      have hs := hr.sane i (mem_items_of_member hname)
      have h2 : triIn env (.var name) = 2 := by
        rw [h.tri_of_y hs hk hname hy, if_pos ⟨hvis, hsel⟩]
      exact (selection_of_user hy' (hl.selected i name hname h2) hvis).symm
    | none =>
      have hinv := hnone hsel
      have hzero : ∀ name ∈ (k.choice i).syms, triIn env (.var name) = 0 := by
        intro name hname
        exact h.tri_zero_of_invisible hk (hr.sane i (mem_items_of_member hname)) hname
          (hinv name hname)
      rw [selection_of_defaults hy' (hl.unpicked i hzero).2]
      cases hd : (selectionFromDefaults k u' (k.choice i).syms (k.choice i).defaults).value env with
      | none => rfl
      | some name =>
        obtain ⟨hname, hvis⟩ := selectionFromDefaults_some (hk.defaults i) hd
        exact absurd (hinv name hname) hvis
  · have hold : env (.selection i) = (Menu.selection k u i).value env := h.eq _
    rw [hold, Menu.selection, Menu.selection, Comp.value_bind, Comp.value_bind, hm i, if_pos hy,
      if_pos hy]

theorem Loaded.choiceSymbolTri {i : ℕ} (hname : name ∈ (k.choice i).syms) :
    env (.tri (.var name)) = (choiceSymbolTri u' name i).value env := by
  have hs := hr.sane i (mem_items_of_member hname)
  have hc := (hk.choice_iff name i).mpr hname
  have ht := hs.symbol name hname
  have hold : env (.tri (.var name)) = (Menu.choiceSymbolTri u name i).value env := by
    rw [h.eq (.tri (.var name))]
    simp only [compute, triValue, if_pos ht, hc]
  have hv : (visibility (.sym (.var name))).value env = visIn env (.sym (.var name)) := rfl
  rw [Menu.choiceSymbolTri, Comp.value_bind, hv] at hold ⊢
  by_cases h2 : visIn env (.sym (.var name)) = 2
  · rw [if_pos h2] at hold ⊢
    exact hold
  · rw [if_neg h2, Comp.value_pure] at hold ⊢
    by_cases h0 : visIn env (.sym (.var name)) = 0
    · rw [hold, h0]
      rfl
    · have hflag : (env (.tri (.var name))).2 = true := by
        rw [hold]
        exact decide_eq_true h0
      have hset := hl.tri_eq (h.loaded_tri ht hflag)
      have htri : triIn env (.var name) = if (u.tri name).getD 0 ≠ 0 then 1 else 0 := by
        rw [triIn, hold]
        simp [h0]
      rw [hset, hold, Option.getD_some, htri]
      by_cases hz : (u.tri name).getD 0 = 0
      · simp [hz]
      · simp [hz, h0]

theorem Loaded.triValue (s : Sym) : env (.tri s) = (triValue k u' s).value env := by
  cases s with
  | const name => exact h.eq _
  | var name =>
    simp only [Menu.triValue]
    by_cases ht : (k.symbol name).origType = .bool ∨ (k.symbol name).origType = .tristate
    · rw [if_pos ht]
      cases hc : (k.symbol name).choice with
      | none => exact hl.plainTri h hr hk hc ht
      | some i => exact hl.choiceSymbolTri h hr hk ((hk.choice_iff name i).mp hc)
    · rw [if_neg ht]
      have hold : env (.tri (.var name)) = (Menu.triValue k u (.var name)).value env := h.eq _
      rw [hold]
      simp only [Menu.triValue, if_neg ht]

/-! ### Strings and numbers -/

omit hl hk in
theorem Solves.str_flag (hvis : visIn env (.sym (.var name)) ≠ 0)
    {v : Text × Bool} (hflag : v.2 = true)
    (hstr : strIn env name = (v.1, v.2 && !(k.symbol name).auto)) :
    strIn env name = (v.1, true) ∧ written env name = some (name, v.1) := by
  have hauto : (k.symbol name).auto = false := by
    by_contra hn
    have hp := hr.auto name (Bool.not_eq_false _ ▸ hn)
    refine hvis ?_
    have hv : visIn env (.sym (.var name)) = (symbolVisibility k u (k.symbol name)).value env :=
      h.eq _
    rw [hv, symbolVisibility, hp, Comp.value_bind, Comp.value_bind]
    split_ifs <;> rfl
  have heq : strIn env name = (v.1, true) := by
    rw [hstr, hflag, hauto]
    rfl
  refine ⟨heq, ?_⟩
  rw [written, heq]
  rfl

theorem Loaded.stringValue (ht : (k.symbol name).origType = .string) :
    strIn env name = (strValue k u' (.var name)).value env := by
  have hm := hl.sameModes h hr hk
  have hold : strIn env name = (strValue k u (.var name)).value env := h.eq _
  have hstr : ∀ w : Inputs, (strValue k w (.var name)).value env =
      (((Menu.stringValue k w name (k.symbol name)).value env).1,
        ((Menu.stringValue k w name (k.symbol name)).value env).2 && !(k.symbol name).auto) := by
    intro w
    simp only [strValue, ht, Comp.value_bind]
    rfl
  have hvv : (visibility (.sym (.var name))).value env = visIn env (.sym (.var name)) := rfl
  by_cases hvis : visIn env (.sym (.var name)) = 0
  · rw [hold, hstr, hstr]
    simp only [Menu.stringValue, Comp.value_bind, hvv, hvis, ne_eq, not_true_eq_false, and_false,
      if_false, hm.defaultStr]
  · have hflag : ((Menu.stringValue k u name (k.symbol name)).value env).2 = true := by
      rw [Menu.stringValue, Comp.value_bind, hvv]
      split_ifs
      · rfl
      · rw [Comp.value_bind, Comp.value_pure]
        simp [hvis]
    obtain ⟨heq, hw⟩ := h.str_flag hr hvis hflag (hold.trans (hstr u))
    have hset : u'.str name = some ((Menu.stringValue k u name (k.symbol name)).value env).1 := by
      rw [Inputs.str, hl.value, loadedValue, hw, ht]
      rfl
    have hnew : (Menu.stringValue k u' name (k.symbol name)).value env =
        (Menu.stringValue k u name (k.symbol name)).value env := by
      rw [Menu.stringValue, Comp.value_bind, hvv, hset, if_pos ⟨rfl, hvis⟩]
      exact Prod.ext rfl hflag.symm
    rw [hold, hstr, hstr, hnew]

omit h hl hr hk in
theorem userNumber_eq_some {type : SymbolType} {vis : ℕ} {range : Option (ℤ × ℤ)}
    {user : Option Text} {val : Text} (hv : userNumber type vis range user = some val) :
    user = some val ∧ userNumber type vis range (some val) = some val := by
  cases user with
  | none => cases hv
  | some v =>
    have hsame := hv
    simp only [userNumber] at hv
    split_ifs at hv
    obtain rfl := Option.some.inj hv
    exact ⟨rfl, hsame⟩

omit h hl hr hk in
theorem numberValue_value (w : Inputs) (sym : Symbol) : (numberValue k w name sym).value env =
    match userNumber sym.origType (visIn env (.sym (.var name)))
      ((activeRange k w (typeToBase sym.origType) sym.ranges).value env) (w.str name) with
    | some val => (val, decide (visIn env (.sym (.var name)) ≠ 0))
    | none => (numberDefault k w sym (visIn env (.sym (.var name)))
        ((activeRange k w (typeToBase sym.origType) sym.ranges).value env)).value env := by
  rw [numberValue, Comp.value_bind, Comp.value_bind]
  have hvv : (visibility (.sym (.var name))).value env = visIn env (.sym (.var name)) := rfl
  rw [hvv]
  cases userNumber sym.origType (visIn env (.sym (.var name)))
    ((activeRange k w (typeToBase sym.origType) sym.ranges).value env) (w.str name) with
  | none => rfl
  | some val => rfl

theorem Loaded.numberValue (hu : u.Valid k)
    (ht : (k.symbol name).origType = .int ∨ (k.symbol name).origType = .hex) :
    strIn env name = (strValue k u' (.var name)).value env := by
  have hm := hl.sameModes h hr hk
  have hold : strIn env name = (strValue k u (.var name)).value env := h.eq _
  have hstr : ∀ w : Inputs, (strValue k w (.var name)).value env =
      (((Menu.numberValue k w name (k.symbol name)).value env).1,
        ((Menu.numberValue k w name (k.symbol name)).value env).2 && !(k.symbol name).auto) := by
    intro w
    rcases ht with hi | hi <;> simp only [strValue, hi, Comp.value_bind] <;> rfl
  have hnum : isTri (k.symbol name).origType = false := by
    rcases ht with hi | hi <;> rw [hi] <;> rfl
  suffices hnew : (Menu.numberValue k u' name (k.symbol name)).value env =
      (Menu.numberValue k u name (k.symbol name)).value env by
    rw [hold, hstr, hstr, hnew]
  rw [numberValue_value, numberValue_value, hm.activeRange, hm.numberDefault]
  generalize hr' : (activeRange k u (typeToBase (k.symbol name).origType)
    (k.symbol name).ranges).value env = range
  by_cases hvis : visIn env (.sym (.var name)) = 0
  · rw [hvis, userNumber_zero, userNumber_zero]
  · have hflag : ((Menu.numberValue k u name (k.symbol name)).value env).2 = true := by
      rw [numberValue_value]
      split
      · exact decide_eq_true hvis
      · rw [numberDefault, Comp.value_bind, Comp.value_pure]
        simp [hvis]
    obtain ⟨-, hw⟩ := h.str_flag hr hvis hflag (hold.trans (hstr u))
    have hloaded : loadedValue k env name = validValue (k.symbol name).origType
        (.str ((Menu.numberValue k u name (k.symbol name)).value env).1) := by
      rw [loadedValue, hw]
      rfl
    have hset : u'.str name = none ∨
        u'.str name = some ((Menu.numberValue k u name (k.symbol name)).value env).1 := by
      rw [Inputs.str, hl.value, hloaded]
      cases hv : validValue (k.symbol name).origType
        (.str ((Menu.numberValue k u name (k.symbol name)).value env).1) with
      | none => exact .inl rfl
      | some w =>
        rw [validValue_of_not_isTri hnum hv]
        exact .inr rfl
    rw [numberValue_value, hr'] at hset hloaded
    cases huser : userNumber (k.symbol name).origType (visIn env (.sym (.var name))) range
      (u.str name) with
    | some val =>
      -- the value was set by the user, and is again
      rw [huser] at hset hloaded
      obtain ⟨hstr0, hsame⟩ := userNumber_eq_some huser
      have hval : u.userValue name = some (.str val) := by
        unfold Inputs.str at hstr0
        split at hstr0
        · rename_i hv
          rw [hv, Option.some.inj hstr0]
        · cases hstr0
      have hagain : u'.str name = some val := by
        rw [Inputs.str, hl.value, hloaded, hu.value name _ hval]
      rw [hagain, hsame]
    | none =>
      rw [huser] at hset
      rcases hset with hnone | hsome
      · rw [hnone]
        rfl
      · cases hagain : userNumber (k.symbol name).origType (visIn env (.sym (.var name))) range
          (u'.str name) with
        | none => rfl
        | some val =>
          obtain ⟨hval, -⟩ := userNumber_eq_some hagain
          rw [hval] at hsome
          refine Prod.ext (Option.some.inj hsome) ?_
          dsimp only
          rw [numberDefault, Comp.value_bind, Comp.value_pure]
          simp [hvis]

theorem Loaded.strValue (hu : u.Valid k) (s : Sym) :
    env (.str s) = (strValue k u' s).value env := by
  have hold : env (.str s) = (Menu.strValue k u s).value env := h.eq _
  cases s with
  | const name => exact hold
  | var name =>
    cases ht : (k.symbol name).origType with
    | unknown =>
      rw [hold]
      simp only [Menu.strValue, ht]
    | bool =>
      rw [hold]
      simp only [Menu.strValue, ht]
    | tristate =>
      rw [hold]
      simp only [Menu.strValue, ht]
    | string => exact hl.stringValue h hr hk ht
    | int => exact hl.numberValue h hr hk hu (.inl ht)
    | hex => exact hl.numberValue h hr hk hu (.inr ht)

/-- The attributes agree with the computations for the user values that were loaded. -/
theorem Loaded.compute (hu : u.Valid k) (s : Slot) : env s = (compute k u' s).value env := by
  have hm := hl.sameModes h hr hk
  have hold : env s = (Menu.compute k u s).value env := h.eq s
  cases s with
  | vis x =>
    cases x with
    | sym s =>
      cases s with
      | const name => exact hold
      | var name => exact hold.trans (hm.symbolVisibility _).symm
    | choice i => exact hold.trans (hm.choiceVisibility _).symm
  | tri s => exact hl.triValue h hr hk s
  | str s => exact hl.strValue h hr hk hu s
  | assignable x =>
    cases x with
    | sym s => exact hold.trans (hm.assignable s).symm
    | choice i => exact hold
  | selection i => exact hl.selection h hr hk hu i

end

/-! ### When everything is restored -/

theorem Solves.restorable {k : Kconfig} {u : Inputs} {env : Env} (h : Solves k u env)
    (hsane : ∀ i, .choice i ∈ k.items → Sane k i)
    (hauto : ∀ s ∈ k.syms, s.2.auto = true → s.2.prompts = [])
    (hsyms : ∀ s ∈ k.syms, s.2.origType ≠ .tristate)
    (hchoices : ∀ c ∈ k.choices, c.origType = .bool ∧ c.isOptional = false) :
    Restorable k u env := by
  refine ⟨hsane, ?_, fun name _ hvis => ?_, fun i _ => ?_⟩
  · exact forall_symbol (P := fun _ sym => sym.auto = true → sym.prompts = [])
      (fun _ => by simp [undefinedSymbol])
      hauto
  · have htype : (k.symbol name).origType ≠ .tristate :=
      forall_symbol (P := fun _ sym => sym.origType ≠ .tristate)
        (fun _ => by simp [undefinedSymbol])
        hsyms name
    have hv : visIn env (.sym (.var name)) = (symbolVisibility k u (k.symbol name)).value env :=
      h.eq _
    rw [hvis, symbolVisibility, Comp.value_bind, Comp.value_bind] at hv
    split_ifs at hv with hhid
    · cases hv
    · have ht := promote_eq_one hv.symm
      rw [symbolType, if_neg htype, Comp.value_pure] at ht
      exact absurd ht htype
  · rw [choiceTri_value]
    by_cases hi : i < k.choices.length
    · have hmem : k.choice i ∈ k.choices := by
        rw [Kconfig.choice, List.getD_eq_getElem _ _ hi]
        exact List.getElem_mem hi
      obtain ⟨hb, hopt⟩ := hchoices _ hmem
      have hne : (k.choice i).origType ≠ .tristate := by
        rw [hb]
        decide
      have htype : (choiceType k (k.choice i)).value env = .bool := by
        rw [choiceType_of_ne hne, hb]
      have hvis1 : visIn env (.choice i) ≠ 1 := by
        intro h1
        have hv : visIn env (.choice i) = (choiceVisibility k u (k.choice i)).value env := h.eq _
        rw [h1, choiceVisibility, Comp.value_bind] at hv
        have ht := promote_eq_one hv.symm
        rw [htype] at ht
        cases ht
      unfold modeWith
      rw [promoteMode_value, promoteMode_value, htype]
      have hone : ∀ v, wantedMode (k.choice i) (some v) = max 1 v := by
        intro v
        rw [wantedMode, hopt]
        rfl
      have hnone : wantedMode (k.choice i) none = 1 := by
        rw [wantedMode, hopt]
        rfl
      have hvis2 : visIn env (.choice i) ≤ 2 := h.bounded.vis _
      cases hu : u.mode i with
      | none => rfl
      | some v =>
        rw [hone, hnone]
        generalize visIn env (.choice i) = vis at hvis1 hvis2 ⊢
        simp only [if_true]
        split_ifs <;> omega
    · have hnone : k.choice i = noChoice := choice_of_not_mem (mem_items_choice.not.mpr hi)
      have hvis : visIn env (.choice i) = 0 := by
        have hv : visIn env (.choice i) = (choiceVisibility k u (k.choice i)).value env := h.eq _
        rw [hv, hnone]
        rfl
      unfold modeWith
      rw [hvis, Nat.min_zero, Nat.min_zero]

end HaoosLfs.Menu
