import HaoosLfs.Menu.TreeDeps
import HaoosLfs.Menu.Choices

/-!
# What is shown (`kconfiglib.py:1040-1075, 6093-6140`)

The configuration that is read off a finalized tree. After any operations a symbol is
shown where one of its definitions is enabled by all that encloses it in the files.
-/

namespace HaoosLfs.Menu
open Memo

/-- What the files say besides the tree: how many choices there are, which of them are
optional, and which symbols have `option env` or `option defconfig_list`. -/
structure Layout where
  choices : ℕ
  auto : Text → Bool
  isOptional : ℕ → Bool
  modules : Text

section

variable {ι : Type} (layout : Layout) (order : List ι) (b : Build ι)

/-- The conditions of the prompts of an item, whose `nodes` are in the order of the files. -/
def promptsOf (item : NodeItem) : List Expr :=
  order.filterMap fun v =>
    if (b.nodes v).item = some item then (b.nodes v).prompt.map Prod.snd else none

def definedNames : List Text := (order.filterMap fun v => (b.nodes v).name).eraseDups

def symbolOf (name : Text) : Symbol where
  origType := b.choices.symType name
  prompts := promptsOf order b (.symbol name)
  defaults := (b.props name).defaults
  ranges := (b.props name).ranges
  revDep := (b.props name).revDep
  weakRevDep := (b.props name).weakRevDep
  directDep := (b.props name).directDep
  choice := b.choices.choiceOf name
  auto := layout.auto name

/-- A constant is never visible and so never a selection. -/
def choiceDefault (d : Expr × Expr) : Option (Text × Expr) :=
  match d.1 with
  | .item (.sym (.var name)) => some (name, d.2)
  | _ => none

def choiceAt (i : ℕ) : Choice where
  origType := b.choices.choiceType i
  isOptional := layout.isOptional i
  prompts := promptsOf order b (.choice i)
  defaults := (b.choices.defaults i).filterMap choiceDefault
  syms := b.choices.syms i

def kconfigOf : Kconfig where
  syms := (definedNames order b).map fun name => (name, symbolOf layout order b name)
  choices := (List.range layout.choices).map (choiceAt layout order b)
  modules := layout.modules

variable {layout order b}

theorem lookup_map {α β : Type} [BEq α] [LawfulBEq α] (l : List α) (f : α → β) (a : α) :
    (l.map fun x => (x, f x)).lookup a = if a ∈ l then some (f a) else none := by
  induction l with
  | nil => rfl
  | cons x l ih =>
    rw [List.map_cons, List.lookup_cons, ih]
    by_cases hx : a = x
    · simp [hx]
    · simp [beq_false_of_ne hx, hx]

theorem mem_definedNames {name : Text} :
    name ∈ definedNames order b ↔ ∃ v ∈ order, (b.nodes v).name = some name := by
  rw [definedNames, List.mem_eraseDups, List.mem_filterMap]

theorem name_of_item {node : ParsedNode} {name : Text} :
    node.name = some name ↔ node.item = some (.symbol name) := by
  unfold ParsedNode.name
  split
  · rename_i other heq
    rw [heq]
    simp
  · rename_i hne
    refine ⟨fun h => ?_, fun h => absurd h (hne name)⟩
    cases h

theorem prompts_kconfigOf (name : Text) :
    ((kconfigOf layout order b).symbol name).prompts = promptsOf order b (.symbol name) := by
  have hlookup := lookup_map (definedNames order b) (symbolOf layout order b) name
  change ((((definedNames order b).map fun name => (name, symbolOf layout order b name)).lookup
    name).getD undefinedSymbol).prompts = _
  rw [hlookup]
  split_ifs with hmem
  · rfl
  · have hnone : ∀ v ∈ order, ¬(b.nodes v).item = some (.symbol name) := fun v hv hi =>
      hmem (mem_definedNames.mpr ⟨v, hv, name_of_item.mpr hi⟩)
    refine (List.filterMap_eq_nil_iff.mpr fun v hv => ?_).symm
    rw [if_neg (hnone v hv)]

theorem mem_promptsOf {item : NodeItem} {e : Expr} :
    e ∈ promptsOf order b item ↔
      ∃ v ∈ order, (b.nodes v).item = some item ∧ ∃ p ∈ (b.nodes v).prompt, p.2 = e := by
  rw [promptsOf, List.mem_filterMap]
  refine exists_congr fun v => and_congr_right fun _ => ?_
  split_ifs with hi
  · simp [hi]
  · simp [hi]

end

section

variable {k : Kconfig} {u : Inputs} {env : Env}

theorem Bounded.promptValue (h : Bounded k env) (es : List Expr) (vis : ℕ) :
    (promptValue k u vis es).value env = max vis (maxOf (es.map (evalExpr k u env))) := by
  induction es generalizing vis with
  | nil => exact (Nat.max_zero vis).symm
  | cons e es ih =>
    rw [Menu.promptValue, Comp.value_bind, ih, h.exprValue, List.map_cons, maxOf, maxOf,
      List.foldr_cons, Nat.max_assoc]

theorem maxOf_ne_zero {l : List ℕ} : maxOf l ≠ 0 ↔ ∃ n ∈ l, n ≠ 0 := by
  induction l with
  | nil => simp [maxOf]
  | cons n l ih =>
    have hmax : maxOf (n :: l) ≠ 0 ↔ n ≠ 0 ∨ maxOf l ≠ 0 := by
      rw [maxOf, List.foldr_cons, ← maxOf]
      omega
    rw [hmax, ih, List.exists_mem_cons_iff]

theorem Solves.tristate (h : Solves k u env) : Tristate (evalItem k u env) (evalRel k env) where
  item_le x := h.bounded.evalExpr_le (u := u) (.item x)
  rel_le _ _ _ := relValue_le _ _
  y := by
    change (env (.tri (.const "y".toList))).1 = 2
    rw [h.eq]
    rfl
  n := h.nVal

theorem promote_ne_zero {type : Prog SymbolType} {vis : ℕ} :
    (promote vis type).value env ≠ 0 ↔ vis ≠ 0 := by
  unfold promote
  split_ifs with h1
  · rw [Comp.value_bind, Comp.value_pure]
    split_ifs <;> simp [h1]
  · exact Iff.rfl

theorem Solves.vis_ne_zero (h : Solves k u env) (name : Text) :
    (visIn env (.sym (.var name)) ≠ 0 →
      ∃ e ∈ (k.symbol name).prompts, evalExpr k u env e ≠ 0) ∧
    ((k.symbol name).choice = none → (∃ e ∈ (k.symbol name).prompts, evalExpr k u env e ≠ 0) →
      visIn env (.sym (.var name)) ≠ 0) := by
  have hvis : visIn env (.sym (.var name)) = (symbolVisibility k u (k.symbol name)).value env :=
    h.eq _
  have hmax : (promptValue k u 0 (k.symbol name).prompts).value env ≠ 0 ↔
      ∃ e ∈ (k.symbol name).prompts, evalExpr k u env e ≠ 0 := by
    rw [h.bounded.promptValue, Nat.zero_max, maxOf_ne_zero]
    simp
  rw [hvis, symbolVisibility, Comp.value_bind, Comp.value_bind, ← hmax]
  refine ⟨fun hne => ?_, fun hc hne => ?_⟩
  · split_ifs at hne
    · exact absurd rfl hne
    · exact promote_ne_zero.mp hne
  · rw [hidden, hc]
    exact promote_ne_zero.mpr hne

end

/-- One of the definitions of a symbol has a prompt whose condition holds, in menus that are
visible and with everything on that it depends on. -/
def Enabled {ι : Type} (val : Expr → ℕ) (nodes : ι → ParsedNode) (ts : List (ι × List ι))
    (name : Text) : Prop :=
  ∃ t ∈ ts, (nodes t.1).item = some (.symbol name) ∧ ∃ p ∈ (nodes t.1).prompt,
    val p.2 ≠ 0 ∧ depIn val nodes t.2 t.1 ≠ 0 ∧ visibleIn val nodes t.2 ≠ 0

theorem Finalized.enabled_iff {ι : Type} [DecidableEq ι] {top : ι} {cs list : Forest ι}
    {b b' : Build ι} (hf : Finalized .y (.node top cs .nil) b list b')
    (hp : Parsed b.nodes (.node top cs .nil)) {item : Item → ℕ} {rel : Rel → Sym → Sym → ℕ}
    (h : Tristate item rel) (name : Text) :
    (∃ e ∈ promptsOf cs.preorder b' (.symbol name), valueOf item rel e ≠ 0) ↔
      Enabled (valueOf item rel) b.nodes (Forest.paths [top] cs) name := by
  have hone : ∀ t ∈ Forest.paths [top] cs, (b.nodes t.1).item = some (.symbol name) →
      ((∃ p ∈ (b'.nodes t.1).prompt, valueOf item rel p.2 ≠ 0) ↔
        ∃ p ∈ (b.nodes t.1).prompt, valueOf item rel p.2 ≠ 0 ∧
          depIn (valueOf item rel) b.nodes t.2 t.1 ≠ 0 ∧
          visibleIn (valueOf item rel) b.nodes t.2 ≠ 0) := by
    intro t ht hi
    have hsc : (b.nodes t.1).isSymbolChoice = true := by rw [ParsedNode.isSymbolChoice, hi]
    have hprompt := (hf.settled hp h ht).prompt
    rw [hsc, if_pos rfl] at hprompt
    cases hp' : (b'.nodes t.1).prompt with
    | none =>
      cases hp0 : (b.nodes t.1).prompt with
      | none => simp
      | some p => simp [hp', hp0, evalConds, limitConds] at hprompt
    | some p' =>
      cases hp0 : (b.nodes t.1).prompt with
      | none => simp [hp', hp0, evalConds, limitConds] at hprompt
      | some p =>
        simp only [hp', hp0, evalConds, limitConds, Option.toList_some, List.map_cons, List.map_nil,
          List.cons.injEq, Prod.mk.injEq, and_true] at hprompt
        simp only [Option.mem_some_iff, exists_eq_left', hprompt.2]
        omega
  rw [Enabled]
  constructor
  · intro hex
    obtain ⟨e, he, hne⟩ := hex
    obtain ⟨v, hv, hi, p, hpr, hpe⟩ := mem_promptsOf.mp he
    obtain ⟨t, ht, rfl⟩ := Forest.exists_path [top] hv
    rw [item_of_kind (hf.kind t.1)] at hi
    exact ⟨t, ht, hi, (hone t ht hi).mp ⟨p, hpr, hpe ▸ hne⟩⟩
  · intro henabled
    obtain ⟨t, ht, hi, hex⟩ := henabled
    obtain ⟨p, hpr, hne⟩ := (hone t ht hi).mpr hex
    refine ⟨p.2, mem_promptsOf.mpr ⟨t.1, ?_, ?_, p, hpr, rfl⟩, hne⟩
    · exact Forest.mem_of_paths ht
    · rw [item_of_kind (hf.kind t.1), hi]

/-- After any operations on the configuration of a finalized tree, what is shown is what the
files enable, except that a choice can hide its own symbols. -/
theorem shown_after_run {ι : Type} [DecidableEq ι] {layout : Layout} {top : ι}
    {cs list next : Forest ι} {b b' : Build ι} {fuel : ℕ}
    (hp : Parsed b.nodes (.node top cs .nil)) (hfuel : 2 * cs.size + 2 ≤ fuel)
    (hfinal : finalizeTree fuel .y top cs .nil b = some (list, next, b'))
    {level : Item → ℕ} (hk : WellFormed (kconfigOf layout cs.preorder b'))
    (hl : Layered (kconfigOf layout cs.preorder b') level) {depth : ℕ}
    (hdepth : ∀ x, 6 * level x + 6 ≤ depth) (ops : List Op) :
    ∃ st env, run (kconfigOf layout cs.preorder b') depth initial ops = some st ∧
      Shows (kconfigOf layout cs.preorder b') depth st env ∧ ∀ name,
        (visIn env (.sym (.var name)) ≠ 0 →
          Enabled (evalExpr (kconfigOf layout cs.preorder b') st.inputs env) b.nodes
            (Forest.paths [top] cs) name) ∧
        (((kconfigOf layout cs.preorder b').symbol name).choice = none →
          Enabled (evalExpr (kconfigOf layout cs.preorder b') st.inputs env) b.nodes
            (Forest.paths [top] cs) name → visIn env (.sym (.var name)) ≠ 0) := by
  have hf := (finalized_of_run hp hfuel hfinal).2
  obtain ⟨st, hrun, hst⟩ := coherent_initial.run hk hl hdepth ops
  obtain ⟨hshows, h⟩ := hst.shows hk hl hdepth
  refine ⟨st, value hk hl hst.valid, hrun, hshows, fun name => ?_⟩
  have hvis := h.vis_ne_zero name
  rw [prompts_kconfigOf] at hvis
  have henabled := hf.enabled_iff hp h.tristate name
  exact ⟨fun hne => henabled.mp (hvis.1 hne), fun hc he => hvis.2 hc (henabled.mpr he)⟩

/-! ### The beginning of `Config.in` -/

def bookLayout : Layout where
  choices := 2
  auto _ := false
  isOptional _ := false
  modules := "MODULES".toList

def bookFinal : Build ℕ :=
  ((finalizeTree 24 .y 0 bookForest .nil bookBuild).map fun r => r.2.2).getD bookBuild

theorem finalizeTree_book :
    ∃ list, finalizeTree 24 .y 0 bookForest .nil bookBuild = some (list, .nil, bookFinal) := by
  obtain ⟨list, b', hrun, -⟩ := finalizeTree_top parsed_book fuel_parsed_book
  refine ⟨list, ?_⟩
  rw [bookFinal, hrun]
  rfl

deriving instance DecidableEq for Symbol, Choice, Kconfig

theorem kconfig_book : kconfigOf bookLayout bookForest.preorder bookFinal = bookKconfig := by
  decide +kernel

theorem shown_after_run_book :
    ∃ st env, run bookKconfig 24 initial [.setValue "BOOK_BLFS".toList (.str ['y'])] = some st ∧
      Shows bookKconfig 24 st env ∧ ∀ name,
        (visIn env (.sym (.var name)) ≠ 0 →
          Enabled (evalExpr bookKconfig st.inputs env) bookBuild.nodes
            (Forest.paths [0] bookForest) name) ∧
        ((bookKconfig.symbol name).choice = none →
          Enabled (evalExpr bookKconfig st.inputs env) bookBuild.nodes
            (Forest.paths [0] bookForest) name → visIn env (.sym (.var name)) ≠ 0) := by
  obtain ⟨list, hfinal⟩ := finalizeTree_book
  have hk : WellFormed (kconfigOf bookLayout bookForest.preorder bookFinal) :=
    kconfig_book ▸ wellFormed_book
  have hl : Layered (kconfigOf bookLayout bookForest.preorder bookFinal) bookLevel :=
    kconfig_book ▸ layered_book
  have h := shown_after_run parsed_book fuel_parsed_book hfinal hk hl depth_book
    [.setValue "BOOK_BLFS".toList (.str ['y'])]
  rw [kconfig_book] at h
  exact h

end HaoosLfs.Menu
