import HaoosLfs.Menu.Values

/-!
# Choices (`kconfiglib.py:5150-5250, 6093-6140`)

The symbols of a choice are limited by its mode, and in y mode exactly one of the visible
ones is y.
-/

namespace HaoosLfs.Menu
open Memo

/-- A choice as `_check_choice_sanity` wants it: its symbols have prompts inside the choice
only, so that `_propagate_deps` has added the choice to their conditions. -/
structure Sane (k : Kconfig) (i : ℕ) : Prop where
  type : (k.choice i).origType = .bool ∨ (k.choice i).origType = .tristate
  symbol : ∀ name ∈ (k.choice i).syms,
    (k.symbol name).origType = .bool ∨ (k.symbol name).origType = .tristate
  prompts : ∀ name ∈ (k.choice i).syms, ∀ e ∈ (k.symbol name).prompts,
    e = .n ∨ .item (.choice i) ∈ splitAnd e

def visIn (env : Env) (x : Item) : ℕ := env (.vis x)
def triIn (env : Env) (s : Sym) : ℕ := (env (.tri s)).1

section

variable {k : Kconfig} {u : Inputs} {env : Env}

theorem evalExpr_le_of_mem {e e' : Expr} (h : e' ∈ splitAnd e) :
    evalExpr k u env e ≤ evalExpr k u env e' := by
  induction e with
  | and e1 e2 ih1 ih2 =>
    change min (evalExpr k u env e1) (evalExpr k u env e2) ≤ _
    rcases List.mem_append.mp h with h1 | h2
    · exact le_trans (Nat.min_le_left _ _) (ih1 h1)
    · exact le_trans (Nat.min_le_right _ _) (ih2 h2)
  | item x => rw [List.mem_singleton.mp h]
  | not e ih => rw [List.mem_singleton.mp h]
  | or e1 e2 ih1 ih2 => rw [List.mem_singleton.mp h]
  | rel r v1 v2 => rw [List.mem_singleton.mp h]

theorem promptValue_le_of {es : List Expr} {vis n : ℕ} (hvis : vis ≤ n)
    (h : ∀ e ∈ es, (exprValue k u e).value env ≤ n) : (promptValue k u vis es).value env ≤ n := by
  induction es generalizing vis with
  | nil => exact hvis
  | cons e es ih =>
    rw [promptValue, Comp.value_bind]
    exact ih (Nat.max_le.mpr ⟨hvis, h e List.mem_cons_self⟩) fun e' he' =>
      h e' (List.mem_cons_of_mem _ he')

theorem hidden_value {sym : Symbol} {i : ℕ} (hc : sym.choice = some i) (vis : ℕ) :
    (hidden k u sym vis).value env = if sym.origType ≠ .tristate then
      decide ((k.choice i).origType = .tristate ∧ (choiceTri k u i).value env ≠ 2)
    else decide (vis = 1 ∧ (choiceTri k u i).value env = 2) := by
  simp only [hidden, hc]
  split_ifs with ht hct hvis
  · rw [Comp.value_bind, Comp.value_pure]
    simp [hct]
  · rw [Comp.value_pure]
    simp [hct]
  · rw [Comp.value_bind, Comp.value_pure]
    simp [hvis]
  · rw [Comp.value_pure]
    simp [hvis]

/-- What a computation without caches gives: the values agree with all computations. -/
structure Solves (k : Kconfig) (u : Inputs) (env : Env) : Prop where
  bounded : Bounded k env
  eq : ∀ s, env s = (compute k u s).value env

variable (h : Solves k u env)

include h

theorem Solves.nVal : evalExpr k u env .n = 0 := by
  have hn := h.eq (.tri (.const "n".toList))
  change (env (.tri (.const "n".toList))).1 = 0
  rw [hn]
  rfl

variable {i : ℕ} (hs : Sane k i)

include hs

theorem Solves.prompts_le {name : Text} (hname : name ∈ (k.choice i).syms) :
    (promptValue k u 0 (k.symbol name).prompts).value env ≤ (choiceTri k u i).value env := by
  refine promptValue_le_of (Nat.zero_le _) fun e he => ?_
  rw [h.bounded.exprValue]
  rcases hs.prompts name hname e he with rfl | hmem
  · rw [h.nVal]
    exact Nat.zero_le _
  · exact evalExpr_le_of_mem hmem

omit h in
theorem Sane.modules_of_m (hm : (choiceTri k u i).value env = 1) :
    (k.choice i).origType = .tristate ∧ (modulesTri k).value env ≠ 0 := by
  have htype : (choiceType k (k.choice i)).value env ≠ .bool := by
    intro ht
    rw [choiceTri, Comp.value_bind, promoteMode] at hm
    split_ifs at hm with h1
    · rw [Comp.value_bind, ht, Comp.value_pure, if_pos rfl] at hm
      omega
    · exact h1 hm
  rcases hs.type with hb | ht
  · have hne : (k.choice i).origType ≠ .tristate := by
      rw [hb]
      decide
    rw [choiceType_of_ne hne] at htype
    exact absurd hb htype
  · refine ⟨ht, fun h0 => htype ?_⟩
    rw [choiceType, if_pos ht, Comp.value_bind, h0]
    rfl

variable (hk : WellFormed k) {name : Text} (hname : name ∈ (k.choice i).syms)

include hk hname

theorem Solves.vis_of_member :
    visIn env (.sym (.var name)) ≤ (choiceTri k u i).value env ∧
      ((choiceTri k u i).value env = 2 → visIn env (.sym (.var name)) ≠ 1) := by
  have hc := (hk.choice_iff name i).mpr hname
  have hle := h.prompts_le hs hname
  have hmode := h.bounded.choiceTri_le (u := u) i
  have hvis : visIn env (.sym (.var name)) =
      (symbolVisibility k u (k.symbol name)).value env := h.eq _
  rw [hvis, symbolVisibility, Comp.value_bind, Comp.value_bind, hidden_value hc]
  generalize (promptValue k u 0 (k.symbol name).prompts).value env = raw at hle ⊢
  by_cases hraw : raw = 1
  · have hne0 : (choiceTri k u i).value env ≠ 0 := by omega
    have hprom : (promote 1 (symbolType k u (k.symbol name))).value env =
        if (symbolType k u (k.symbol name)).value env = .tristate then 1 else 2 := by
      rw [promote, if_pos rfl, Comp.value_bind, Comp.value_pure]
    subst hraw
    by_cases ht : (k.symbol name).origType = .tristate
    · by_cases h2 : (choiceTri k u i).value env = 2
      · simp [ht, h2]
      · have h1 : (choiceTri k u i).value env = 1 := by omega
        obtain ⟨-, hmod⟩ := hs.modules_of_m h1
        have htype : (symbolType k u (k.symbol name)).value env = .tristate := by
          rw [symbolType, if_pos ht, Comp.value_bind, ownMode, hc, if_neg h2, Comp.value_bind,
            if_neg hmod, Comp.value_pure]
        simp [ht, h1, hprom, htype]
    · have htype : (symbolType k u (k.symbol name)).value env ≠ .tristate := by
        rwa [symbolType_of_ne ht]
      by_cases h2 : (choiceTri k u i).value env = 2
      · simp [ht, h2, hprom, htype]
      · have h1 : (choiceTri k u i).value env = 1 := by omega
        have hct := (hs.modules_of_m h1).1
        simp [ht, hct, h1]
  · have hprom : (promote raw (symbolType k u (k.symbol name))).value env = raw := by
      rw [promote, if_neg hraw, Comp.value_pure]
    split_ifs
    · exact ⟨Nat.zero_le _, fun _ => Nat.zero_ne_one⟩
    · exact ⟨by rw [hprom]; exact hle, fun _ => by rw [hprom]; exact hraw⟩
    · exact ⟨Nat.zero_le _, fun _ => Nat.zero_ne_one⟩
    · exact ⟨by rw [hprom]; exact hle, fun _ => by rw [hprom]; exact hraw⟩

theorem Solves.tri_of_member : triIn env (.var name) =
    if visIn env (.sym (.var name)) = 2 then
      (if env (.selection i) = some name then 2 else 0)
    else if visIn env (.sym (.var name)) ≠ 0 ∧ (u.tri name).getD 0 ≠ 0 then 1 else 0 := by
  have hc := (hk.choice_iff name i).mpr hname
  have htri : triIn env (.var name) = ((choiceSymbolTri u name i).value env).1 := by
    rw [triIn, h.eq (.tri (.var name))]
    simp only [compute, triValue, if_pos (hs.symbol name hname), hc]
  rw [htri, choiceSymbolTri, Comp.value_bind]
  have hv : (visibility (.sym (.var name))).value env = visIn env (.sym (.var name)) := rfl
  rw [hv]
  split_ifs with h2 hsel hm
  · rw [Comp.value_bind, Comp.value_pure]
    exact if_pos hsel
  · rw [Comp.value_bind, Comp.value_pure]
    exact if_neg hsel
  · rw [Comp.value_pure]
  · rw [Comp.value_pure]

theorem Solves.tri_le_mode :
    triIn env (.var name) ≤ (choiceTri k u i).value env := by
  obtain ⟨hle, -⟩ := h.vis_of_member hs hk hname
  rw [h.tri_of_member hs hk hname]
  generalize visIn env (.sym (.var name)) = vis at hle ⊢
  split_ifs <;> omega

theorem Solves.tri_of_y (hmode : (choiceTri k u i).value env = 2) :
    triIn env (.var name) =
      if visIn env (.sym (.var name)) ≠ 0 ∧ env (.selection i) = some name then 2 else 0 := by
  obtain ⟨hle, hne⟩ := h.vis_of_member hs hk hname
  have hne1 := hne hmode
  rw [h.tri_of_member hs hk hname]
  rw [hmode] at hle
  have hvis : visIn env (.sym (.var name)) = 0 ∨ visIn env (.sym (.var name)) = 2 := by omega
  rcases hvis with h0 | h2
  · simp [h0]
  · simp [h2]

end

/-! ### The selection -/

section

variable {k : Kconfig} {u : Inputs} {env : Env}

theorem firstVisible_some {syms : List Text} {name : Text}
    (h : (firstVisible syms).value env = some name) :
    name ∈ syms ∧ visIn env (.sym (.var name)) ≠ 0 := by
  induction syms with
  | nil => cases h
  | cons s rest ih =>
    rw [firstVisible, Comp.value_bind] at h
    split_ifs at h with hv
    · obtain rfl := Option.some.inj h
      exact ⟨List.mem_cons_self, hv⟩
    · obtain ⟨hmem, hvis⟩ := ih h
      exact ⟨List.mem_cons_of_mem _ hmem, hvis⟩

theorem firstVisible_none {syms : List Text} (h : (firstVisible syms).value env = none) :
    ∀ name ∈ syms, visIn env (.sym (.var name)) = 0 := by
  induction syms with
  | nil => exact nofun
  | cons s rest ih =>
    rw [firstVisible, Comp.value_bind] at h
    split_ifs at h with hv
    · cases h
    · intro name hname
      rcases List.mem_cons.mp hname with rfl | hmem
      · exact not_not.mp hv
      · exact ih h name hmem

theorem selectionFromDefaults_some {syms : List Text} {defaults : List (Text × Expr)}
    (hd : ∀ d ∈ defaults, d.1 ∈ syms) {name : Text}
    (h : (selectionFromDefaults k u syms defaults).value env = some name) :
    name ∈ syms ∧ visIn env (.sym (.var name)) ≠ 0 := by
  induction defaults with
  | nil => exact firstVisible_some h
  | cons d rest ih =>
    obtain ⟨s, cond⟩ := d
    have hrest := ih fun d hd' => hd d (List.mem_cons_of_mem _ hd')
    rw [selectionFromDefaults, Comp.value_bind] at h
    split_ifs at h
    · exact hrest h
    · rw [Comp.value_bind] at h
      split_ifs at h with hv
      · obtain rfl := Option.some.inj h
        exact ⟨hd (s, cond) List.mem_cons_self, hv⟩
      · exact hrest h

theorem selectionFromDefaults_none {syms : List Text} {defaults : List (Text × Expr)}
    (h : (selectionFromDefaults k u syms defaults).value env = none) :
    ∀ name ∈ syms, visIn env (.sym (.var name)) = 0 := by
  induction defaults with
  | nil => exact firstVisible_none h
  | cons d rest ih =>
    obtain ⟨s, cond⟩ := d
    rw [selectionFromDefaults, Comp.value_bind] at h
    split_ifs at h
    · exact ih h
    · rw [Comp.value_bind] at h
      split_ifs at h
      · cases h
      · exact ih h

variable (h : Solves k u env) (hk : WellFormed k) (hu : u.Valid k) {i : ℕ}
  (hmode : (choiceTri k u i).value env = 2)

include h hk hu hmode

theorem Solves.selection_of_y :
    (∀ name, env (.selection i) = some name →
      name ∈ (k.choice i).syms ∧ visIn env (.sym (.var name)) ≠ 0) ∧
    (env (.selection i) = none → ∀ name ∈ (k.choice i).syms, visIn env (.sym (.var name)) = 0) := by
  have hsel : env (.selection i) = (selection k u i).value env := h.eq _
  rw [hsel, selection, Comp.value_bind, if_neg (not_not.mpr hmode)]
  cases hus : u.userSelection i with
  | none => exact ⟨fun name => selectionFromDefaults_some (hk.defaults i),
      selectionFromDefaults_none⟩
  | some s =>
    dsimp only
    rw [Comp.value_bind]
    split_ifs with hv
    · refine ⟨fun name hname => ?_, fun hnone => absurd hnone (by simp)⟩
      obtain rfl := Option.some.inj hname
      exact ⟨hu.selection i s hus, hv⟩
    · exact ⟨fun name => selectionFromDefaults_some (hk.defaults i), selectionFromDefaults_none⟩

end

/-! ### After any operations -/

/-- Every attribute that is read, with what is in the caches, is that of `env`. -/
def Shows (k : Kconfig) (depth : ℕ) (st : State) (env : Env) : Prop :=
  ∀ s, ∃ c, Memo.read (compute k st.inputs) depth s st.cache = some (env s, c)

/-- `tri_value` of a choice, which is not cached. -/
def modeIn (k : Kconfig) (st : State) (env : Env) (i : ℕ) : ℕ :=
  (choiceTri k st.inputs i).value env

theorem Coherent.shows {k : Kconfig} {level : Item → ℕ} (hk : WellFormed k) (hl : Layered k level)
    {depth : ℕ} (hdepth : ∀ x, 6 * level x + 6 ≤ depth) {st : State} (h : Coherent k st) :
    Shows k depth st (value hk hl h.valid) ∧ Solves k st.inputs (value hk hl h.valid) := by
  refine ⟨fun s => ?_, bounded_value hk hl h.valid, solution_eq (ranked hk hl h.valid)⟩
  obtain ⟨c, hr, -⟩ := read_spec (ranked hk hl h.valid) h.settled (rank_lt hdepth s)
  exact ⟨c, hr⟩

/-- After any operations no symbol of a choice is above the mode of the choice, and in y
mode exactly one of them is y, when any is visible, and none is m. -/
theorem choice_after_run {k : Kconfig} {level : Item → ℕ} (hk : WellFormed k)
    (hl : Layered k level) {depth : ℕ} (hdepth : ∀ x, 6 * level x + 6 ≤ depth) {i : ℕ}
    (hs : Sane k i) (ops : List Op) :
    ∃ st env, run k depth initial ops = some st ∧ Shows k depth st env ∧
      (∀ name ∈ (k.choice i).syms, triIn env (.var name) ≤ modeIn k st env i) ∧
      (modeIn k st env i = 2 →
        (∀ name ∈ (k.choice i).syms, triIn env (.var name) ≠ 1) ∧
        ((∃ name ∈ (k.choice i).syms, visIn env (.sym (.var name)) ≠ 0) →
          ∃! name, name ∈ (k.choice i).syms ∧ triIn env (.var name) = 2)) := by
  obtain ⟨st, hrun, hst⟩ := coherent_initial.run hk hl hdepth ops
  obtain ⟨hshows, h⟩ := hst.shows hk hl hdepth
  refine ⟨st, value hk hl hst.valid, hrun, hshows, fun name hname => h.tri_le_mode hs hk hname,
    fun hmode => ?_⟩
  have htri := fun name (hname : name ∈ (k.choice i).syms) => h.tri_of_y hs hk hname hmode
  refine ⟨fun name hname => ?_, fun ⟨seen, hseen, hvis⟩ => ?_⟩
  · rw [htri name hname]
    split_ifs <;> omega
  · obtain ⟨hsome, hnone⟩ := h.selection_of_y hk hst.valid hmode
    cases hsel : value hk hl hst.valid (.selection i) with
    | none => exact absurd (hnone hsel seen hseen) hvis
    | some name =>
      obtain ⟨hname, hv⟩ := hsome name hsel
      refine ⟨name, ⟨hname, ?_⟩, fun other hother => ?_⟩
      · rw [htri name hname, if_pos ⟨hv, hsel⟩]
      · obtain ⟨hmem, h2⟩ := hother
        rw [htri other hmem] at h2
        split_ifs at h2 with hcond
        have heq := hcond.2.symm.trans hsel
        exact Option.some.inj heq

theorem sane_book : Sane bookKconfig 0 := ⟨by decide, by decide, by decide⟩

theorem choice_after_run_book :
    ∃ st env, run bookKconfig 24 initial [.setValue "BOOK_BLFS".toList (.str ['y'])] = some st ∧
      Shows bookKconfig 24 st env ∧
      (∀ name ∈ (bookKconfig.choice 0).syms, triIn env (.var name) ≤ modeIn bookKconfig st env 0) ∧
      (modeIn bookKconfig st env 0 = 2 →
        (∀ name ∈ (bookKconfig.choice 0).syms, triIn env (.var name) ≠ 1) ∧
        ((∃ name ∈ (bookKconfig.choice 0).syms, visIn env (.sym (.var name)) ≠ 0) →
          ∃! name, name ∈ (bookKconfig.choice 0).syms ∧ triIn env (.var name) = 2)) :=
  choice_after_run wellFormed_book layered_book depth_book sane_book _

end HaoosLfs.Menu
