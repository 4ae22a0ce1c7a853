import HaoosLfs.Lib.Invalidate
import HaoosLfs.Menu.Symbols

/-!
# Dependencies between symbols and choices (`kconfiglib.py:3346-3435, 6123-6140`)

`_build_dep` and `_add_choice_deps` record for each symbol and choice what may have to
be computed again when it changes. Every slot that a computation asks for is covered.
-/

namespace HaoosLfs.Menu
open Memo

/-- What `_build_dep` makes the symbol depend on. -/
def Symbol.depends (sym : Symbol) : List Item :=
  sym.prompts.flatMap exprItems ++
    (sym.defaults.flatMap fun d => exprItems d.1 ++ exprItems d.2) ++
    (exprItems sym.revDep ++ exprItems sym.weakRevDep) ++
    (sym.ranges.flatMap fun r => [.sym r.1, .sym r.2.1] ++ exprItems r.2.2) ++
    exprItems sym.directDep

def Choice.depends (c : Choice) : List Item :=
  c.prompts.flatMap exprItems ++ c.defaults.flatMap fun d => exprItems d.2

namespace Kconfig

variable (k : Kconfig)

def depends : Item → List Item
  | .sym (.var name) => (k.symbol name).depends
  | .sym (.const _) => []
  | .choice i => (k.choice i).depends

def items : List Item :=
  k.syms.map (fun s => .sym (.var s.1)) ++ (List.range k.choices.length).map .choice

/-- The symbol is in the choice: `_add_choice_deps` makes the choice depend on it. -/
def inChoice (x y : Item) : Prop :=
  ∃ i name, x = .choice i ∧ y = .sym (.var name) ∧ name ∈ (k.choice i).syms

instance (x y : Item) : Decidable (k.inChoice x y) :=
  match x, y with
  | .choice i, .sym (.var name) =>
    decidable_of_iff (name ∈ (k.choice i).syms) (by simp [inChoice])
  | .sym _, _ | .choice _, .choice _ | .choice _, .sym (.const _) =>
    isFalse (by simp [inChoice])

def dependents (x : Item) : List Item :=
  k.items.filter fun y => x ∈ k.depends y ∨ k.inChoice y x

end Kconfig

def owner : Slot → Item
  | .vis x => x
  | .tri s => .sym s
  | .str s => .sym s
  | .assignable x => x
  | .selection i => .choice i

/-- Invalidating the modules symbol invalidates everything. -/
def deps (k : Kconfig) : Deps Slot Item where
  owner := owner
  flag := .vis
  items := k.items
  dependents := k.dependents
  global x := x = .sym (.var k.modules)
  owner_flag _ := rfl
  dependents_subset _ := List.filter_subset_self _

/-- Names are defined once, a symbol of a choice is in no other choice and depends on it, and the
defaults of a choice are among its symbols. The code warns about a default outside the choice, and
a choice symbol that is defined outside too need not depend on the choice. -/
structure WellFormed (k : Kconfig) : Prop where
  nodup : (k.syms.map Prod.fst).Nodup
  choice_iff : ∀ name i, (k.symbol name).choice = some i ↔ name ∈ (k.choice i).syms
  choice_dep : ∀ name i, (k.symbol name).choice = some i →
    .choice i ∈ exprItems (k.symbol name).directDep
  defaults : ∀ i, ∀ d ∈ (k.choice i).defaults, d.1 ∈ (k.choice i).syms

/-- No dependency loops, where a choice and its symbols count as one: everything depends
on lower levels only. The symbol that enables modules is below all that can be m. -/
structure Layered (k : Kconfig) (level : Item → ℕ) : Prop where
  symbol : ∀ name, ∀ x ∈ (k.symbol name).depends, level x < level (.sym (.var name)) ∨
    ∃ i, x = .choice i ∧ (k.symbol name).choice = some i
  choice : ∀ i, ∀ x ∈ (k.choice i).depends, level x < level (.choice i)
  member : ∀ name i, (k.symbol name).choice = some i →
    level (.sym (.var name)) = level (.choice i)
  symbolModules : ∀ name, (k.symbol name).origType = .tristate →
    level (.sym (.var k.modules)) < level (.sym (.var name))
  choiceModules : ∀ i, (k.choice i).origType = .tristate →
    level (.sym (.var k.modules)) < level (.choice i)

/-- Within a level: the choice is visible, then its symbols, then one is selected. -/
def slotRank : Slot → ℕ
  | .vis (.choice _) => 0
  | .vis (.sym _) => 1
  | .selection _ => 2
  | .tri _ => 3
  | .str _ => 4
  | .assignable _ => 5

def rank (level : Item → ℕ) (s : Slot) : ℕ := 6 * level (owner s) + slotRank s

/-! ### What the computations ask for -/

def ItemWithin (k : Kconfig) (P : Slot → Prop) : Item → Prop
  | .sym s => P (.tri s) ∧ P (.str s)
  | .choice i => P (.vis (.choice i)) ∧
      ((k.choice i).origType = .tristate → P (.tri (.var k.modules)))

section Within

variable {k : Kconfig} {u : Inputs} {P : Slot → Prop}

theorem visibility_within {x : Item} (h : P (.vis x)) : (visibility x).Within P :=
  Comp.within_get.mpr h

theorem triOf_within {s : Sym} (h : P (.tri s)) : (triOf s).Within P :=
  Comp.within_map _ (Comp.within_get.mpr h)

theorem strOf_within {s : Sym} (h : P (.str s)) : (strOf s).Within P :=
  Comp.within_map _ (Comp.within_get.mpr h)

theorem choiceType_within {c : Choice}
    (h : c.origType = .tristate → P (.tri (.var k.modules))) : (choiceType k c).Within P := by
  unfold choiceType
  split_ifs with ht
  · exact Comp.within_bind (triOf_within (h ht)) fun m => Comp.within_pure
  · exact Comp.within_pure

theorem choiceTri_within {i : ℕ} (h : ItemWithin k P (.choice i)) :
    (choiceTri k u i).Within P := by
  refine Comp.within_bind (visibility_within h.1) fun vis => ?_
  unfold promoteMode
  split_ifs
  · exact Comp.within_bind (choiceType_within h.2) fun _ => Comp.within_pure
  · exact Comp.within_pure

theorem compare_within {v1 v2 : Sym} (h1 : ItemWithin k P (.sym v1))
    (h2 : ItemWithin k P (.sym v2)) : (compare k v1 v2).Within P := by
  have hnum : ∀ {v : Sym}, ItemWithin k P (.sym v) → (symToNum k v).Within P := by
    intro v hv
    unfold symToNum
    split_ifs
    · exact Comp.within_bind (triOf_within hv.1) fun _ => Comp.within_pure
    · exact Comp.within_bind (strOf_within hv.2) fun _ => Comp.within_pure
  have htext : (do
      let s1 ← strOf v1
      let s2 ← strOf v2
      pure (strcmp s1 s2) : Prog ℤ).Within P :=
    Comp.within_bind (strOf_within h1.2) fun _ =>
      Comp.within_bind (strOf_within h2.2) fun _ => Comp.within_pure
  unfold compare
  split_ifs
  · exact htext
  · refine Comp.within_bind (hnum h1) fun n1 => ?_
    cases n1 with
    | none => exact htext
    | some n1 =>
      refine Comp.within_bind (hnum h2) fun n2 => ?_
      cases n2 with
      | none => exact htext
      | some n2 => exact Comp.within_pure

theorem exprValue_within {e : Expr} (h : ∀ x ∈ exprItems e, ItemWithin k P x) :
    (exprValue k u e).Within P := by
  induction e with
  | item x =>
    have hx := h x (List.mem_singleton.mpr rfl)
    cases x with
    | sym s => exact triOf_within hx.1
    | choice i => exact choiceTri_within hx
  | not e ih => exact Comp.within_bind (ih h) fun _ => Comp.within_pure
  | and e1 e2 ih1 ih2 =>
    refine Comp.within_bind (ih1 fun x hx => h x (List.mem_append_left _ hx)) fun v1 => ?_
    split_ifs
    · exact Comp.within_pure
    · exact Comp.within_bind (ih2 fun x hx => h x (List.mem_append_right _ hx)) fun _ =>
        Comp.within_pure
  | or e1 e2 ih1 ih2 =>
    refine Comp.within_bind (ih1 fun x hx => h x (List.mem_append_left _ hx)) fun v1 => ?_
    split_ifs
    · exact Comp.within_pure
    · exact Comp.within_bind (ih2 fun x hx => h x (List.mem_append_right _ hx)) fun _ =>
        Comp.within_pure
  | rel r v1 v2 =>
    exact Comp.within_bind (compare_within (h _ (by simp [exprItems])) (h _ (by simp [exprItems])))
      fun _ => Comp.within_pure

theorem promptValue_within {es : List Expr}
    (h : ∀ x ∈ es.flatMap exprItems, ItemWithin k P x) (vis : ℕ) :
    (promptValue k u vis es).Within P := by
  induction es generalizing vis with
  | nil => exact Comp.within_pure
  | cons e es ih =>
    rw [List.flatMap_cons] at h
    exact Comp.within_bind (exprValue_within fun x hx => h x (List.mem_append_left _ hx)) fun v =>
      ih (fun x hx => h x (List.mem_append_right _ hx)) _

theorem promote_within {type : Prog SymbolType} (h : type.Within P) (vis : ℕ) :
    (promote vis type).Within P := by
  unfold promote
  split_ifs
  · exact Comp.within_bind h fun _ => Comp.within_pure
  · exact Comp.within_pure

structure SymbolWithin (k : Kconfig) (P : Slot → Prop) (sym : Symbol) : Prop where
  depends : ∀ x ∈ sym.depends, ItemWithin k P x
  choice : ∀ i, sym.choice = some i → ItemWithin k P (.choice i)
  modules : sym.origType = .tristate → P (.tri (.var k.modules))

namespace SymbolWithin

variable {sym : Symbol} (h : SymbolWithin k P sym)

include h

theorem prompts : ∀ x ∈ sym.prompts.flatMap exprItems, ItemWithin k P x :=
  fun x hx => h.depends x (by simp only [Symbol.depends, List.mem_append]; tauto)

theorem defaults :
    ∀ x ∈ sym.defaults.flatMap fun d => exprItems d.1 ++ exprItems d.2, ItemWithin k P x :=
  fun x hx => h.depends x (by simp only [Symbol.depends, List.mem_append]; tauto)

theorem ranges : ∀ x ∈ sym.ranges.flatMap fun r => [.sym r.1, .sym r.2.1] ++ exprItems r.2.2,
    ItemWithin k P x :=
  fun x hx => h.depends x (by simp only [Symbol.depends, List.mem_append]; tauto)

theorem revDep : (exprValue k u sym.revDep).Within P :=
  exprValue_within fun x hx =>
    h.depends x (by simp only [Symbol.depends, List.mem_append]; tauto)

theorem weakRevDep : (exprValue k u sym.weakRevDep).Within P :=
  exprValue_within fun x hx =>
    h.depends x (by simp only [Symbol.depends, List.mem_append]; tauto)

theorem directDep : (exprValue k u sym.directDep).Within P :=
  exprValue_within fun x hx =>
    h.depends x (by simp only [Symbol.depends, List.mem_append]; tauto)

theorem ownMode : (ownMode k u sym).Within P := by
  unfold Menu.ownMode
  split
  · exact choiceTri_within (h.choice _ ‹_›)
  · exact Comp.within_pure

theorem symbolType : (symbolType k u sym).Within P := by
  unfold Menu.symbolType
  split_ifs with ht
  · refine Comp.within_bind h.ownMode fun mode => ?_
    split_ifs
    · exact Comp.within_pure
    · exact Comp.within_bind (triOf_within (h.modules ht)) fun _ => Comp.within_pure
  · exact Comp.within_pure

theorem hidden (vis : ℕ) : (hidden k u sym vis).Within P := by
  unfold Menu.hidden
  split
  · exact Comp.within_pure
  · have hmode := choiceTri_within (u := u) (h.choice _ ‹_›)
    split_ifs
    · exact Comp.within_bind hmode fun _ => Comp.within_pure
    · exact Comp.within_pure
    · exact Comp.within_bind hmode fun _ => Comp.within_pure
    · exact Comp.within_pure

theorem symbolVisibility : (symbolVisibility k u sym).Within P := by
  refine Comp.within_bind (promptValue_within h.prompts 0) fun vis => ?_
  refine Comp.within_bind (h.hidden vis) fun hide => ?_
  split_ifs
  · exact Comp.within_pure
  · exact promote_within h.symbolType vis

end SymbolWithin

theorem activeDefault_bind {defaults : List (Expr × Expr)} {β : Type}
    {f : Option (Expr × ℕ) → Prog β}
    (h : ∀ x ∈ defaults.flatMap fun d => exprItems d.1 ++ exprItems d.2, ItemWithin k P x)
    (hnone : (f none).Within P)
    (hsome : ∀ e c, (∀ x ∈ exprItems e, ItemWithin k P x) → (f (some (e, c))).Within P) :
    (activeDefault k u defaults >>= f).Within P := by
  induction defaults with
  | nil => exact hnone
  | cons d defaults ih =>
    obtain ⟨e, cond⟩ := d
    rw [List.flatMap_cons] at h
    have hcond : (exprValue k u cond).Within P :=
      exprValue_within fun x hx => h x (List.mem_append_left _ (List.mem_append_right _ hx))
    have hassoc : (activeDefault k u ((e, cond) :: defaults) >>= f) =
        exprValue k u cond >>= fun c =>
          (if c ≠ 0 then pure (some (e, c)) else activeDefault k u defaults) >>= f :=
      Comp.bind_assoc _ _ _
    rw [hassoc]
    refine Comp.within_bind hcond fun c => ?_
    split_ifs
    · exact hsome e c fun x hx => h x (List.mem_append_left _ (List.mem_append_left _ hx))
    · exact ih fun x hx => h x (List.mem_append_right _ hx)

namespace SymbolWithin

variable {sym : Symbol} (h : SymbolWithin k P sym)

include h

theorem defaultStr : (defaultStr k u sym.defaults).Within P := by
  refine activeDefault_bind h.defaults Comp.within_pure fun e c he => ?_
  split
  · rename_i s _ heq
    cases heq
    exact Comp.within_bind (strOf_within (he (.sym s) (List.mem_singleton.mpr rfl)).2) fun _ =>
      Comp.within_pure
  · exact Comp.within_pure

theorem numberDefault (vis : ℕ) (range : Option (ℤ × ℤ)) :
    (numberDefault k u sym vis range).Within P :=
  Comp.within_bind h.defaultStr fun _ => Comp.within_pure

theorem notM : (notM k u sym).Within P := by
  refine Comp.within_bind h.symbolType fun t => ?_
  split_ifs
  · exact Comp.within_pure
  · exact Comp.within_bind h.weakRevDep fun _ => Comp.within_pure

theorem defaultTri (vis : ℕ) : (defaultTri k u sym vis).Within P := by
  refine activeDefault_bind h.defaults Comp.within_pure fun e c he => ?_
  exact Comp.within_bind (exprValue_within he) fun _ => Comp.within_pure

theorem withWeak (r : ℕ × Bool) : (withWeak k u sym r).Within P := by
  refine Comp.within_bind h.weakRevDep fun weak => ?_
  split_ifs
  · exact Comp.within_pure
  · exact Comp.within_bind h.directDep fun _ => Comp.within_pure

theorem ownTri (name : Text) (vis : ℕ) : (ownTri k u name sym vis).Within P := by
  unfold Menu.ownTri
  split_ifs
  · exact Comp.within_pure
  · exact Comp.within_bind (h.defaultTri vis) h.withWeak

theorem withRev (r : ℕ × Bool) : (withRev k u sym r).Within P := by
  refine Comp.within_bind h.revDep fun rev => ?_
  split_ifs
  · exact Comp.within_pure
  · exact Comp.within_bind h.directDep fun _ => Comp.within_pure

theorem promoteTri (r : ℕ × Bool) : (promoteTri k u sym r).Within P := by
  unfold Menu.promoteTri
  split_ifs
  · exact Comp.within_bind h.notM fun _ => Comp.within_pure
  · exact Comp.within_pure

theorem plainTri {name : Text} (hvis : P (.vis (.sym (.var name)))) :
    (plainTri k u name sym).Within P :=
  Comp.within_bind (visibility_within hvis) fun vis =>
    Comp.within_bind (h.ownTri name vis) fun own =>
      Comp.within_bind (h.withRev own) h.promoteTri

theorem stringValue {name : Text} (hvis : P (.vis (.sym (.var name)))) :
    (stringValue k u name sym).Within P := by
  refine Comp.within_bind (visibility_within hvis) fun vis => ?_
  split_ifs
  · exact Comp.within_pure
  · exact Comp.within_bind h.defaultStr fun _ => Comp.within_pure

theorem numberValue {name : Text} (hvis : P (.vis (.sym (.var name)))) :
    (numberValue k u name sym).Within P := by
  have hrange : ∀ {ranges : List (Sym × Sym × Expr)} (base : ℕ),
      (∀ x ∈ ranges.flatMap fun r => [.sym r.1, .sym r.2.1] ++ exprItems r.2.2,
        ItemWithin k P x) → (activeRange k u base ranges).Within P := by
    intro ranges base hr
    induction ranges with
    | nil => exact Comp.within_pure
    | cons r ranges ih =>
      obtain ⟨low, high, cond⟩ := r
      rw [List.flatMap_cons] at hr
      have hfirst := fun x hx => hr x (List.mem_append_left _ hx)
      refine Comp.within_bind (exprValue_within fun x hx => ?_) fun c => ?_
      · exact hfirst x (List.mem_append_right _ hx)
      · split_ifs
        · exact Comp.within_bind (strOf_within (hfirst (.sym low) (by simp)).2) fun _ =>
            Comp.within_bind (strOf_within (hfirst (.sym high) (by simp)).2) fun _ =>
              Comp.within_pure
        · exact ih fun x hx => hr x (List.mem_append_right _ hx)
  refine Comp.within_bind (visibility_within hvis) fun vis => ?_
  refine Comp.within_bind (hrange _ h.ranges) fun range => ?_
  split
  · exact Comp.within_pure
  · exact h.numberDefault vis range

theorem assignableY (rev : ℕ) : (assignableY k u sym rev).Within P := by
  unfold Menu.assignableY
  split
  · exact Comp.within_pure
  · exact Comp.within_bind h.notM fun _ => Comp.within_pure

theorem assignableM (rev : ℕ) : (assignableM k u sym rev).Within P := by
  unfold Menu.assignableM
  by_cases hrev : rev = 0
  · rw [if_pos hrev]
    exact Comp.within_bind h.weakRevDep fun _ => Comp.within_pure
  · rw [if_neg hrev]
    exact Comp.within_pure

theorem assignable {name : Text} (hsym : k.symbol name = sym)
    (hvis : P (.vis (.sym (.var name)))) : (symbolAssignable k u (.var name)).Within P := by
  simp only [symbolAssignable, hsym]
  split_ifs
  · refine Comp.within_bind (visibility_within hvis) fun vis => ?_
    split_ifs
    · exact Comp.within_pure
    · exact Comp.within_bind h.revDep h.assignableY
    · exact Comp.within_bind h.revDep h.assignableM
  · exact Comp.within_pure

end SymbolWithin

theorem choiceSymbolTri_within {name : Text} {i : ℕ} (hvis : P (.vis (.sym (.var name))))
    (hsel : P (.selection i)) : (choiceSymbolTri u name i).Within P := by
  refine Comp.within_bind (visibility_within hvis) fun vis => ?_
  by_cases hv : vis = 2
  · rw [if_pos hv]
    exact Comp.within_bind (Comp.within_get.mpr hsel) fun _ => Comp.within_pure
  · rw [if_neg hv]
    exact Comp.within_pure

/-! ### Choices -/

theorem firstVisible_within {syms : List Text} (h : ∀ s ∈ syms, P (.vis (.sym (.var s)))) :
    (firstVisible syms).Within P := by
  induction syms with
  | nil => exact Comp.within_pure
  | cons s syms ih =>
    refine Comp.within_bind (visibility_within (h s List.mem_cons_self)) fun vis => ?_
    split_ifs
    · exact Comp.within_pure
    · exact ih fun t ht => h t (List.mem_cons_of_mem _ ht)

theorem selectionFromDefaults_within {syms : List Text} {defaults : List (Text × Expr)}
    (h : ∀ s ∈ syms, P (.vis (.sym (.var s)))) (hd : ∀ d ∈ defaults, d.1 ∈ syms)
    (hcond : ∀ x ∈ defaults.flatMap fun d => exprItems d.2, ItemWithin k P x) :
    (selectionFromDefaults k u syms defaults).Within P := by
  induction defaults with
  | nil => exact firstVisible_within h
  | cons d defaults ih =>
    obtain ⟨name, cond⟩ := d
    rw [List.flatMap_cons] at hcond
    have hrest := ih (fun d hm => hd d (List.mem_cons_of_mem _ hm))
      fun x hx => hcond x (List.mem_append_right _ hx)
    refine Comp.within_bind (exprValue_within fun x hx => hcond x (List.mem_append_left _ hx))
      fun c => ?_
    split_ifs
    · exact hrest
    · refine Comp.within_bind (visibility_within (h name (hd _ List.mem_cons_self))) fun vis => ?_
      split_ifs
      · exact Comp.within_pure
      · exact hrest

theorem selection_within {i : ℕ} (hmode : ItemWithin k P (.choice i))
    (h : ∀ s ∈ (k.choice i).syms, P (.vis (.sym (.var s))))
    (hd : ∀ d ∈ (k.choice i).defaults, d.1 ∈ (k.choice i).syms)
    (hu : ∀ s, u.userSelection i = some s → s ∈ (k.choice i).syms)
    (hcond : ∀ x ∈ (k.choice i).depends, ItemWithin k P x) : (selection k u i).Within P := by
  have hdef : (selectionFromDefaults k u (k.choice i).syms (k.choice i).defaults).Within P :=
    selectionFromDefaults_within h hd fun x hx => hcond x (List.mem_append_right _ hx)
  refine Comp.within_bind (choiceTri_within hmode) fun mode => ?_
  split_ifs
  · exact Comp.within_pure
  · split
    · rename_i s hs
      refine Comp.within_bind (visibility_within (h s (hu s hs))) fun vis => ?_
      split_ifs
      · exact Comp.within_pure
      · exact hdef
    · exact hdef

end Within

end HaoosLfs.Menu
