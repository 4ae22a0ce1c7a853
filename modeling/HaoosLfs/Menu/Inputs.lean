import HaoosLfs.Menu.Deps

/-!
# What the computations take from the user

The attributes of a symbol or a choice are computed from its own user values and from
the modes of the choices it depends on.
-/

namespace HaoosLfs.Menu
open Memo

variable {k : Kconfig} {u u' : Inputs}

theorem choiceTri_congr {i : ℕ} (h : u.mode i = u'.mode i) :
    choiceTri k u i = choiceTri k u' i := by
  rw [choiceTri, choiceTri, h]

theorem exprValue_congr {e : Expr} (h : ∀ i, .choice i ∈ exprItems e → u.mode i = u'.mode i) :
    exprValue k u e = exprValue k u' e := by
  induction e with
  | item x =>
    cases x with
    | sym s => rfl
    | choice i => exact choiceTri_congr (h i (by simp [exprItems]))
  | not e ih => rw [exprValue, exprValue, ih h]
  | and e1 e2 ih1 ih2 =>
    rw [exprValue, exprValue, ih1 fun i hi => h i (List.mem_append_left _ hi),
      ih2 fun i hi => h i (List.mem_append_right _ hi)]
  | or e1 e2 ih1 ih2 =>
    rw [exprValue, exprValue, ih1 fun i hi => h i (List.mem_append_left _ hi),
      ih2 fun i hi => h i (List.mem_append_right _ hi)]
  | rel r v1 v2 => rfl

theorem promptValue_congr {es : List Expr}
    (h : ∀ i, .choice i ∈ es.flatMap exprItems → u.mode i = u'.mode i) (vis : ℕ) :
    promptValue k u vis es = promptValue k u' vis es := by
  induction es generalizing vis with
  | nil => rfl
  | cons e es ih =>
    rw [List.flatMap_cons] at h
    rw [promptValue, promptValue, exprValue_congr fun i hi => h i (List.mem_append_left _ hi)]
    exact congrArg _ (funext fun v => ih (fun i hi => h i (List.mem_append_right _ hi)) _)

theorem activeDefault_congr {defaults : List (Expr × Expr)}
    (h : ∀ i, .choice i ∈ defaults.flatMap (fun d => exprItems d.1 ++ exprItems d.2) →
      u.mode i = u'.mode i) : activeDefault k u defaults = activeDefault k u' defaults := by
  induction defaults with
  | nil => rfl
  | cons d defaults ih =>
    obtain ⟨e, cond⟩ := d
    rw [List.flatMap_cons] at h
    rw [activeDefault, activeDefault, ih fun i hi => h i (List.mem_append_right _ hi),
      exprValue_congr fun i hi =>
        h i (List.mem_append_left _ (List.mem_append_right (exprItems e) hi))]

theorem activeDefault_bind_congr {defaults : List (Expr × Expr)} {β : Type}
    {f g : Option (Expr × ℕ) → Prog β}
    (h : ∀ i, .choice i ∈ defaults.flatMap (fun d => exprItems d.1 ++ exprItems d.2) →
      u.mode i = u'.mode i) (hnone : f none = g none)
    (hsome : ∀ e c, (∀ i, .choice i ∈ exprItems e → u.mode i = u'.mode i) →
      f (some (e, c)) = g (some (e, c))) :
    activeDefault k u defaults >>= f = activeDefault k u' defaults >>= g := by
  induction defaults with
  | nil => exact hnone
  | cons d defaults ih =>
    obtain ⟨e, cond⟩ := d
    rw [List.flatMap_cons] at h
    have hrest := ih fun i hi => h i (List.mem_append_right _ hi)
    have he := fun i hi => h i (List.mem_append_left _ (List.mem_append_left (exprItems cond) hi))
    rw [activeDefault, activeDefault, Comp.bind_assoc, Comp.bind_assoc,
      exprValue_congr fun i hi =>
        h i (List.mem_append_left _ (List.mem_append_right (exprItems e) hi))]
    refine congrArg _ (funext fun c => ?_)
    by_cases hc : c ≠ 0
    · rw [if_pos hc, if_pos hc]
      exact hsome e c he
    · rw [if_neg hc, if_neg hc]
      exact hrest

theorem activeRange_congr {base : ℕ} {ranges : List (Sym × Sym × Expr)}
    (h : ∀ i, .choice i ∈ ranges.flatMap (fun r => [.sym r.1, .sym r.2.1] ++ exprItems r.2.2) →
      u.mode i = u'.mode i) : activeRange k u base ranges = activeRange k u' base ranges := by
  induction ranges with
  | nil => rfl
  | cons r ranges ih =>
    obtain ⟨low, high, cond⟩ := r
    rw [List.flatMap_cons] at h
    rw [activeRange, activeRange, ih fun i hi => h i (List.mem_append_right _ hi),
      exprValue_congr fun i hi => h i (List.mem_append_left _ (List.mem_append_right _ hi))]

structure SameModes (u u' : Inputs) (sym : Symbol) : Prop where
  depends : ∀ i, .choice i ∈ sym.depends → u.mode i = u'.mode i
  choice : ∀ i, sym.choice = some i → u.mode i = u'.mode i

namespace SameModes

variable {sym : Symbol} (h : SameModes u u' sym)

include h

theorem prompts (vis : ℕ) :
    promptValue k u vis sym.prompts = promptValue k u' vis sym.prompts :=
  promptValue_congr (fun i hi => h.depends i (by
    simp only [Symbol.depends, List.mem_append]
    tauto)) vis

theorem activeDefault : activeDefault k u sym.defaults = activeDefault k u' sym.defaults :=
  activeDefault_congr fun i hi => h.depends i (by
    simp only [Symbol.depends, List.mem_append]
    tauto)

theorem activeRange (base : ℕ) :
    activeRange k u base sym.ranges = activeRange k u' base sym.ranges :=
  activeRange_congr fun i hi => h.depends i (by
    simp only [Symbol.depends, List.mem_append]
    tauto)

theorem revDep : exprValue k u sym.revDep = exprValue k u' sym.revDep :=
  exprValue_congr fun i hi => h.depends i (by
    simp only [Symbol.depends, List.mem_append]
    tauto)

theorem weakRevDep : exprValue k u sym.weakRevDep = exprValue k u' sym.weakRevDep :=
  exprValue_congr fun i hi => h.depends i (by
    simp only [Symbol.depends, List.mem_append]
    tauto)

theorem directDep : exprValue k u sym.directDep = exprValue k u' sym.directDep :=
  exprValue_congr fun i hi => h.depends i (by
    simp only [Symbol.depends, List.mem_append]
    tauto)

theorem ownMode : ownMode k u sym = ownMode k u' sym := by
  unfold Menu.ownMode
  split
  · exact choiceTri_congr (h.choice _ ‹_›)
  · rfl

theorem symbolType : symbolType k u sym = symbolType k u' sym := by
  rw [Menu.symbolType, Menu.symbolType, h.ownMode]

theorem notM : notM k u sym = notM k u' sym := by
  rw [Menu.notM, Menu.notM, h.symbolType, h.weakRevDep]

theorem hidden (vis : ℕ) : hidden k u sym vis = hidden k u' sym vis := by
  unfold Menu.hidden
  split
  · rfl
  · rw [choiceTri_congr (h.choice _ ‹_›)]

theorem symbolVisibility : symbolVisibility k u sym = symbolVisibility k u' sym := by
  unfold Menu.symbolVisibility
  rw [h.prompts, h.symbolType]
  exact congrArg _ (funext fun vis => by rw [h.hidden])

theorem defaultStr : defaultStr k u sym.defaults = defaultStr k u' sym.defaults := by
  rw [Menu.defaultStr, Menu.defaultStr, h.activeDefault]

theorem defaultTri (vis : ℕ) : defaultTri k u sym vis = defaultTri k u' sym vis := by
  refine activeDefault_bind_congr (fun i hi => h.depends i ?_) rfl fun e c he => ?_
  · simp only [Symbol.depends, List.mem_append]
    tauto
  · exact congrArg (· >>= _) (exprValue_congr he)

theorem withWeak (r : ℕ × Bool) : withWeak k u sym r = withWeak k u' sym r := by
  rw [Menu.withWeak, Menu.withWeak, h.weakRevDep, h.directDep]

theorem withRev (r : ℕ × Bool) : withRev k u sym r = withRev k u' sym r := by
  rw [Menu.withRev, Menu.withRev, h.revDep, h.directDep]

theorem promoteTri (r : ℕ × Bool) : promoteTri k u sym r = promoteTri k u' sym r := by
  rw [Menu.promoteTri, Menu.promoteTri, h.notM]

theorem ownTri {name : Text} {vis : ℕ} (hv : u.tri name = u'.tri name ∨ vis = 0) :
    ownTri k u name sym vis = ownTri k u' name sym vis := by
  have hdef : Menu.defaultTri k u sym vis >>= Menu.withWeak k u sym =
      Menu.defaultTri k u' sym vis >>= Menu.withWeak k u' sym := by
    rw [h.defaultTri]
    exact congrArg _ (funext h.withWeak)
  unfold Menu.ownTri
  rcases hv with hv | hv
  · rw [hv, hdef]
  · rw [if_neg (by simp [hv]), if_neg (by simp [hv]), hdef]

theorem afterOwn (own : ℕ × Bool) :
    Menu.withRev k u sym own >>= Menu.promoteTri k u sym =
      Menu.withRev k u' sym own >>= Menu.promoteTri k u' sym := by
  rw [h.withRev]
  exact congrArg _ (funext h.promoteTri)

theorem plainTri {name : Text} (hv : u.tri name = u'.tri name) :
    plainTri k u name sym = plainTri k u' name sym := by
  unfold Menu.plainTri
  refine congrArg _ (funext fun vis => ?_)
  rw [h.ownTri (.inl hv)]
  exact congrArg _ (funext h.afterOwn)

theorem assignableY (rev : ℕ) : assignableY k u sym rev = assignableY k u' sym rev := by
  rw [Menu.assignableY, Menu.assignableY, h.notM]

theorem assignableM (rev : ℕ) : assignableM k u sym rev = assignableM k u' sym rev := by
  rw [Menu.assignableM, Menu.assignableM, h.weakRevDep]

theorem numberDefault (vis : ℕ) (range : Option (ℤ × ℤ)) :
    numberDefault k u sym vis range = numberDefault k u' sym vis range := by
  rw [Menu.numberDefault, Menu.numberDefault, h.defaultStr]

theorem numberValue {name : Text} (hv : u.str name = u'.str name) :
    numberValue k u name sym = numberValue k u' name sym := by
  unfold Menu.numberValue
  rw [hv, h.activeRange]
  refine congrArg _ (funext fun vis => congrArg _ (funext fun range => ?_))
  rw [h.numberDefault]

theorem stringValue {name : Text} (hv : u.str name = u'.str name) :
    stringValue k u name sym = stringValue k u' name sym := by
  rw [Menu.stringValue, Menu.stringValue, hv, h.defaultStr]

end SameModes

/-! ### All attributes -/

structure Agree (k : Kconfig) (u u' : Inputs) (x : Item) : Prop where
  value : ∀ name, x = .sym (.var name) → u.userValue name = u'.userValue name
  selection : ∀ i, x = .choice i → u.userSelection i = u'.userSelection i
  mode : ∀ i, .choice i ∈ k.depends x ∨ x = .choice i → u.mode i = u'.mode i

theorem Agree.modes (hk : WellFormed k) {name : Text} (h : Agree k u u' (.sym (.var name))) :
    SameModes u u' (k.symbol name) where
  depends i hi := h.mode i (.inl hi)
  choice i hi := h.mode i (.inl (List.mem_append_right _ (hk.choice_dep name i hi)))

theorem selectionFromDefaults_congr {syms : List Text} {defaults : List (Text × Expr)}
    (h : ∀ i, .choice i ∈ defaults.flatMap (fun d => exprItems d.2) → u.mode i = u'.mode i) :
    selectionFromDefaults k u syms defaults = selectionFromDefaults k u' syms defaults := by
  induction defaults with
  | nil => rfl
  | cons d defaults ih =>
    obtain ⟨name, cond⟩ := d
    rw [List.flatMap_cons] at h
    rw [selectionFromDefaults, selectionFromDefaults,
      ih fun i hi => h i (List.mem_append_right _ hi),
      exprValue_congr fun i hi => h i (List.mem_append_left _ hi)]

theorem Agree.symbol (hk : WellFormed k) {name : Text} (h : Agree k u u' (.sym (.var name)))
    {s : Slot} (hs : owner s = .sym (.var name)) : compute k u s = compute k u' s := by
  have hm := h.modes hk
  have hval := h.value name rfl
  have htri : u.tri name = u'.tri name := by rw [Inputs.tri, Inputs.tri, hval]
  have hstr : u.str name = u'.str name := by rw [Inputs.str, Inputs.str, hval]
  cases s with
  | vis x =>
    obtain rfl : x = .sym (.var name) := hs
    exact hm.symbolVisibility
  | tri s =>
    obtain rfl : s = .var name := Item.sym.inj hs
    simp only [compute, triValue, hm.plainTri htri, choiceSymbolTri, htri]
  | str s =>
    obtain rfl : s = .var name := Item.sym.inj hs
    simp only [compute, strValue, hm.stringValue hstr, hm.numberValue hstr]
  | assignable x =>
    obtain rfl : x = .sym (.var name) := hs
    simp only [compute, symbolAssignable, hm.revDep, hm.assignableY, hm.assignableM]
  | selection i => cases hs

theorem Agree.choice {i : ℕ} (h : Agree k u u' (.choice i)) {s : Slot} (hs : owner s = .choice i) :
    compute k u s = compute k u' s := by
  have hmode := h.mode i (.inr rfl)
  cases s with
  | vis x =>
    obtain rfl : x = .choice i := hs
    refine congrArg (· >>= _) (promptValue_congr (fun j hj => h.mode j (.inl ?_)) 0)
    exact List.mem_append_left _ hj
  | tri s => cases hs
  | str s => cases hs
  | assignable x =>
    obtain rfl : x = .choice i := hs
    rfl
  | selection j =>
    obtain rfl : j = i := Item.choice.inj hs
    have hdef : selectionFromDefaults k u (k.choice j).syms (k.choice j).defaults =
        selectionFromDefaults k u' (k.choice j).syms (k.choice j).defaults :=
      selectionFromDefaults_congr fun i hi => h.mode i (.inl (List.mem_append_right _ hi))
    simp only [compute, Menu.selection, choiceTri_congr hmode, h.selection j rfl, hdef]

theorem compute_congr (hk : WellFormed k) {s : Slot} (h : Agree k u u' (owner s)) :
    compute k u s = compute k u' s := by
  generalize hx : owner s = x at h
  cases x with
  | sym t =>
    cases t with
    | var name => exact h.symbol hk hx
    | const name =>
      cases s with
      | vis x =>
        obtain rfl : x = .sym (.const name) := hx
        rfl
      | tri t =>
        obtain rfl : t = .const name := Item.sym.inj hx
        rfl
      | str t =>
        obtain rfl : t = .const name := Item.sym.inj hx
        rfl
      | assignable x =>
        obtain rfl : x = .sym (.const name) := hx
        rfl
      | selection i => cases hx
  | choice i => exact h.choice hx

end HaoosLfs.Menu
