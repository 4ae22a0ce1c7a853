import HaoosLfs.Lib.Hoist
import HaoosLfs.Menu.Symbols

/-!
# Post-processing of the menu tree (`kconfiglib.py:3436-3587, 6250-6372`)

`_finalize_tree` hands dependencies down the tree that was parsed, collects the properties
of the symbols, makes implicit menus and takes the `if`s out.
-/

namespace HaoosLfs.Menu

inductive NodeItem where
  | symbol (name : Text)
  | choice (i : ℕ)
  | menu
  | comment
  deriving DecidableEq

/-- `MenuNode` as it is parsed: an `if` has no item. Symbols are known by their names, choices
by their numbers; `list`, `next` and `parent` are in the forest. -/
structure ParsedNode where
  item : Option NodeItem
  prompt : Option (Text × Expr)
  dep : Expr
  visibility : Expr
  defaults : List (Expr × Expr)
  ranges : List (Sym × Sym × Expr)
  selects : List (Text × Expr)
  implies : List (Text × Expr)

def ParsedNode.isIf (node : ParsedNode) : Bool := node.item.isNone

def ParsedNode.isChoice (node : ParsedNode) : Bool :=
  match node.item with
  | some (.choice _) => true
  | _ => false

/-- The class of the item is in `_SYMBOL_CHOICE`. -/
def ParsedNode.isSymbolChoice (node : ParsedNode) : Bool :=
  match node.item with
  | some (.symbol _) | some (.choice _) => true
  | _ => false

def ParsedNode.name (node : ParsedNode) : Option Text :=
  match node.item with
  | some (.symbol name) => some name
  | _ => none

/-! ### Propagation -/

/-- What a node passes to its children as their dependency: a choice stands for itself. -/
def baseDep (node : ParsedNode) : Expr :=
  match node.item with
  | some (.choice i) => .item (.choice i)
  | _ => node.dep

/-- The body of the loop in `_propagate_deps`. -/
def propagateDep (visibleIf : Expr) (parent cur : ParsedNode) : ParsedNode :=
  let dep := makeAnd cur.dep (baseDep parent)
  if cur.isSymbolChoice then
    { cur with
      dep := dep
      prompt := cur.prompt.map fun p => (p.1, makeAnd p.2 (makeAnd visibleIf dep))
      defaults := cur.defaults.map fun d => (d.1, makeAnd d.2 dep)
      ranges := cur.ranges.map fun r => (r.1, r.2.1, makeAnd r.2.2 dep)
      selects := cur.selects.map fun s => (s.1, makeAnd s.2 dep)
      implies := cur.implies.map fun s => (s.1, makeAnd s.2 dep) }
  else
    { cur with
      dep := dep
      prompt := cur.prompt.map fun p => (p.1, makeAnd p.2 dep) }

/-- The `visible if` of a menu is passed on to what is in it. -/
def visibleBelow (visibleIf : Expr) (node : ParsedNode) : Expr :=
  if node.item = some .menu then makeAnd visibleIf node.visibility else visibleIf

/-! ### Properties -/

/-- The attributes of a symbol that its nodes are copied to. -/
structure SymbolProps where
  directDep : Expr
  defaults : List (Expr × Expr)
  ranges : List (Sym × Sym × Expr)
  selects : List (Text × Expr)
  implies : List (Text × Expr)
  revDep : Expr
  weakRevDep : Expr
  deriving DecidableEq

def noProps : SymbolProps := ⟨.n, [], [], [], [], .n, .n⟩

abbrev Props := Text → SymbolProps

def SymbolProps.orRevDep (p : SymbolProps) (e : Expr) : SymbolProps :=
  { p with revDep := makeOr p.revDep e }

def SymbolProps.orWeakRevDep (p : SymbolProps) (e : Expr) : SymbolProps :=
  { p with weakRevDep := makeOr p.weakRevDep e }

def addReverse (add : SymbolProps → Expr → SymbolProps) (name : Text) (props : Props)
    (s : Text × Expr) : Props :=
  Function.update props s.1 (add (props s.1) (makeAnd (.sym name) s.2))

def SymbolProps.addOwn (p : SymbolProps) (node : ParsedNode) : SymbolProps :=
  { p with
    directDep := makeOr p.directDep node.dep
    defaults := p.defaults ++ node.defaults
    ranges := p.ranges ++ node.ranges
    selects := p.selects ++ node.selects
    implies := p.implies ++ node.implies }

def addPropsToSym (node : ParsedNode) (props : Props) : Props :=
  match node.name with
  | none => props
  | some name =>
    let props := Function.update props name ((props name).addOwn node)
    let props := node.selects.foldl (addReverse .orRevDep name) props
    node.implies.foldl (addReverse .orWeakRevDep name) props

/-- What is found out about choices: the choice and the type of each symbol, and the
attributes of each choice. -/
structure Choices where
  choiceOf : Text → Option ℕ
  symType : Text → SymbolType
  choiceType : ℕ → SymbolType
  directDep : ℕ → Expr
  defaults : ℕ → List (Expr × Expr)
  syms : ℕ → List Text

def addChoiceSym (i : ℕ) (c : Choices) (name : Text) : Choices :=
  { c with
    choiceOf := Function.update c.choiceOf name (some i)
    syms := Function.update c.syms i (c.syms i ++ [name]) }

def firstType (c : Choices) : List Text → SymbolType
  | [] => .unknown
  | name :: names => if c.symType name = .unknown then firstType c names else c.symType name

def typeChoice (c : Choices) (i : ℕ) : Choices :=
  if c.choiceType i = .unknown then
    { c with choiceType := Function.update c.choiceType i (firstType c (c.syms i)) }
  else c

def typeSym (type : SymbolType) (c : Choices) (name : Text) : Choices :=
  if c.symType name = .unknown then
    { c with symType := Function.update c.symType name type }
  else c

/-- `_finalize_choice`, for the names of the symbols in the list of the node -/
def finalizeChoice (i : ℕ) (names : List Text) (c : Choices) : Choices :=
  let c := typeChoice (names.foldl (addChoiceSym i) c) i
  (c.syms i).foldl (typeSym (c.choiceType i)) c

/-! ### Implicit menus -/

/-- `_expr_depends_on`; a comparison with y counts whether it is `=` or `!=`, as `and` binds
tighter than `or`. -/
def exprDependsOn (name : Text) : Expr → Bool
  | .item x => x = .sym (.var name)
  | .rel r v1 v2 =>
    if r = .equal ∨ r = .unequal then
      let other := if v2 = .var name then some v1 else if v1 = .var name then some v2 else none
      (r = .equal ∧ other = some (.const "m".toList)) ∨ other = some (.const "y".toList) ∨
        (r = .unequal ∧ other = some (.const "n".toList))
    else false
  | .and e1 e2 => exprDependsOn name e1 || exprDependsOn name e2
  | .not _ | .or _ _ => false

def autoMenuDep (name : Text) (node : ParsedNode) : Bool :=
  match node.prompt with
  | some p => exprDependsOn name p.2
  | none => exprDependsOn name node.dep

/-- A node without a prompt, other than a choice, does not keep its children. -/
def ParsedNode.flat (node : ParsedNode) : Bool := node.prompt.isNone && !node.isChoice

section

variable {ι : Type} [DecidableEq ι]

/-- `_flatten`; what is put behind a node is flattened when the loop comes to it. -/
def flatten (nodes : ι → ParsedNode) (list : Forest ι) : Forest ι :=
  list.hoist (fun v => (nodes v).flat) .nil

def removeIfs (nodes : ι → ParsedNode) (list : Forest ι) : Forest ι :=
  list.dropRoots fun v => (nodes v).isIf

structure Build (ι : Type) where
  nodes : ι → ParsedNode
  props : Props
  choices : Choices

def propagateDeps (visibleIf : Expr) (v : ι) (list : Forest ι) (nodes : ι → ParsedNode) :
    ι → ParsedNode :=
  list.pushRoots propagateDep visibleIf (nodes v) nodes

def closeChoice (nodes : ι → ParsedNode) (c : Choices) (v : ι) (list : Forest ι) : Choices :=
  match (nodes v).item with
  | some (.choice i) =>
    finalizeChoice i (list.roots.filterMap fun w => (nodes w).name)
      { c with
        directDep := Function.update c.directDep i (makeOr (c.directDep i) (nodes v).dep)
        defaults := Function.update c.defaults i (c.defaults i ++ (nodes v).defaults) }
  | _ => c

/-- The end of `_finalize_tree`, where the list of the node is complete. -/
def finishNode (v : ι) (list : Forest ι) (b : Build ι) : Forest ι × Build ι :=
  let list := removeIfs b.nodes (flatten b.nodes list)
  (list, { b with choices := closeChoice b.nodes b.choices v list })

mutual

/-- `_finalize_tree` of the node `v`, with its list and with what is `next` of it. What
comes back is the list and the next nodes that it has then. -/
def finalizeTree : ℕ → Expr → ι → Forest ι → Forest ι → Build ι →
    Option (Forest ι × Forest ι × Build ι)
  | 0, _, _, _, _, _ => none
  | fuel + 1, visibleIf, v, .nil, next, b => do
    match (b.nodes v).name with
    | some name =>
      let b := { b with props := addPropsToSym (b.nodes v) b.props }
      let (menu, next, b) ← autoMenu fuel visibleIf name next b
      let (list, b) := finishNode v menu b
      pure (list, next, b)
    | none =>
      let (list, b) := finishNode v .nil b
      pure (list, next, b)
  | fuel + 1, visibleIf, v, .node c cs ss, next, b => do
    let visibleIf := visibleBelow visibleIf (b.nodes v)
    let b := { b with nodes := propagateDeps visibleIf v (.node c cs ss) b.nodes }
    let (list, b) ← finalizeList fuel visibleIf (.node c cs ss) b
    let (list, b) := finishNode v list b
    pure (list, next, b)

def finalizeList : ℕ → Expr → Forest ι → Build ι → Option (Forest ι × Build ι)
  | 0, _, _, _ => none
  | _ + 1, _, .nil, b => pure (.nil, b)
  | fuel + 1, visibleIf, .node v cs ss, b => do
    let (list, next, b) ← finalizeTree fuel visibleIf v cs ss b
    let (next, b) ← finalizeList fuel visibleIf next b
    pure (.node v list next, b)

/-- The nodes that go into the implicit menu of a symbol, and those after it. -/
def autoMenu : ℕ → Expr → Text → Forest ι → Build ι → Option (Forest ι × Forest ι × Build ι)
  | 0, _, _, _, _ => none
  | _ + 1, _, _, .nil, b => pure (.nil, .nil, b)
  | fuel + 1, visibleIf, name, .node v cs ss, b =>
    if autoMenuDep name (b.nodes v) then do
      let (list, next, b) ← finalizeTree fuel visibleIf v cs ss b
      let (menu, next, b) ← autoMenu fuel visibleIf name next b
      pure (.node v list menu, next, b)
    else pure (.nil, .node v cs ss, b)

end

/-! ### What finalizing does -/

/-- What `_parse_block` makes: an `if` has no prompt, and nothing is in a symbol. -/
structure Parsed (nodes : ι → ParsedNode) (f : Forest ι) : Prop where
  nodup : f.preorder.Nodup
  ifs : ∀ x ∈ f.preorder, (nodes x).isIf = true → (nodes x).prompt = none
  symbols : ∀ t ∈ f.subtrees, (nodes t.1).name.isSome = true → t.2 = .nil

def ParsedNode.kind (node : ParsedNode) : Option NodeItem × Bool := (node.item, node.prompt.isNone)

theorem kind_propagateDep (visibleIf : Expr) (parent cur : ParsedNode) :
    (propagateDep visibleIf parent cur).kind = cur.kind := by
  rw [propagateDep]
  split_ifs
  · simp [ParsedNode.kind]
  · simp [ParsedNode.kind]

section

variable {n n' : ParsedNode} (h : n.kind = n'.kind)

include h

theorem item_of_kind : n.item = n'.item := congrArg Prod.fst h

theorem isIf_of_kind : n.isIf = n'.isIf := by
  rw [ParsedNode.isIf, item_of_kind h, ParsedNode.isIf]

theorem isChoice_of_kind : n.isChoice = n'.isChoice := by
  rw [ParsedNode.isChoice, item_of_kind h, ParsedNode.isChoice]

theorem name_of_kind : n.name = n'.name := by
  rw [ParsedNode.name, item_of_kind h, ParsedNode.name]

end

omit [DecidableEq ι] in
theorem Parsed.node_iff {nodes : ι → ParsedNode} {v : ι} {cs ss : Forest ι}
    (h : Parsed nodes (.node v cs ss)) :
    Parsed nodes cs ∧ Parsed nodes ss ∧ ((nodes v).name.isSome = true → cs = .nil) := by
  obtain ⟨-, -, hcs, hss, -⟩ := Forest.nodup_node.mp h.nodup
  refine ⟨⟨hcs, fun x hx => ?_, fun t ht => ?_⟩, ⟨hss, fun x hx => ?_, fun t ht => ?_⟩, ?_⟩
  · exact h.ifs x (Forest.mem_node.mpr (.inr (.inl hx)))
  · exact h.symbols t (List.mem_cons_of_mem _ (List.mem_append_left _ ht))
  · exact h.ifs x (Forest.mem_node.mpr (.inr (.inr hx)))
  · exact h.symbols t (List.mem_cons_of_mem _ (List.mem_append_right _ ht))
  · exact h.symbols (v, cs) List.mem_cons_self

def choicesIn (nodes : ι → ParsedNode) (list : Forest ι) : List (ι × Forest ι) :=
  list.closing fun v => (nodes v).isChoice

/-- The forest `f` was finalized to `list`: as if all dependencies had been handed down
first, then the properties been collected in the order of the file, and then the choices
been finalized as they are in the new tree. -/
structure Finalized (visibleIf : Expr) (f : Forest ι) (b : Build ι) (list : Forest ι)
    (b' : Build ι) : Prop where
  nodes : b'.nodes = f.passDown visibleBelow propagateDep visibleIf b.nodes
  props : b'.props = f.preorder.foldl (fun p v => addPropsToSym (b'.nodes v) p) b.props
  choices : b'.choices =
    (choicesIn b'.nodes list).foldl (fun c t => closeChoice b'.nodes c t.1 t.2) b.choices
  subset : list.preorder ⊆ f.preorder
  order : list.preorder.filter (fun v => !(b'.nodes v).isIf) =
    f.preorder.filter (fun v => !(b'.nodes v).isIf)
  clear : list.Clear fun v => (b'.nodes v).isIf

omit [DecidableEq ι] in
theorem closeChoice_congr {nodes nodes' : ι → ParsedNode} {v : ι} (hv : nodes v = nodes' v)
    (hname : ∀ w, (nodes w).name = (nodes' w).name) (c : Choices) (list : Forest ι) :
    closeChoice nodes c v list = closeChoice nodes' c v list := by
  simp only [closeChoice, hv, hname]

omit [DecidableEq ι] in
theorem choicesIn_congr {nodes nodes' : ι → ParsedNode}
    (h : ∀ w, (nodes w).kind = (nodes' w).kind) (list : Forest ι) :
    choicesIn nodes list = choicesIn nodes' list := by
  simp only [choicesIn, fun w => isChoice_of_kind (h w)]

section

variable {visibleIf : Expr} {f g list list' : Forest ι} {b b1 b2 : Build ι}

theorem Finalized.kind (h : Finalized visibleIf f b list b1) (x : ι) :
    (b1.nodes x).kind = (b.nodes x).kind := by
  rw [h.nodes]
  exact Forest.passDown_keeps (g := ParsedNode.kind) kind_propagateDep x

theorem Finalized.append (h1 : Finalized visibleIf f b list b1)
    (h2 : Finalized visibleIf g b1 list' b2) (hn : ∀ x ∈ f.preorder, x ∉ g.preorder) :
    Finalized visibleIf (f.append g) b (list.append list') b2 := by
  have hkind := h2.kind
  have hsame : ∀ x ∈ f.preorder, b2.nodes x = b1.nodes x := by
    intro x hx
    rw [h2.nodes, Forest.passDown_frame (hn x hx)]
  have hif : ∀ x, (b2.nodes x).isIf = (b1.nodes x).isIf := fun x => isIf_of_kind (hkind x)
  refine ⟨?_, ?_, ?_, ?_, ?_, ?_⟩
  · rw [Forest.passDown_append, ← h1.nodes, h2.nodes]
  · rw [Forest.preorder_append, List.foldl_append, h2.props, h1.props]
    congr 1
    refine List.foldl_ext _ _ _ fun p x hx => ?_
    rw [hsame x hx]
  · rw [choicesIn, Forest.closing_append, List.foldl_append, h2.choices, h1.choices]
    congr 1
    change _ = (choicesIn b2.nodes list).foldl _ _
    rw [choicesIn_congr hkind]
    refine List.foldl_ext _ _ _ fun c t ht => ?_
    exact closeChoice_congr (hsame t.1 (h1.subset (Forest.mem_closing ht).2)).symm
      (fun w => (name_of_kind (hkind w)).symm) c t.2
  · rw [Forest.preorder_append, Forest.preorder_append]
    intro x hx
    rcases List.mem_append.mp hx with hx | hx
    · exact List.mem_append_left _ (h1.subset hx)
    · exact List.mem_append_right _ (h2.subset hx)
  · have h1' := h1.order
    simp only [← hif] at h1'
    rw [Forest.preorder_append, Forest.preorder_append, List.filter_append, List.filter_append,
      h1', h2.order]
  · have h1' := h1.clear
    simp only [← hif] at h1'
    exact Forest.clear_append h1' h2.clear

theorem Finalized.finish {vis : Expr} {v : ι} {b0 : Build ι}
    (h : Finalized vis f b0 list b1)
    (hifs : ∀ x ∈ f.preorder, (b1.nodes x).isIf = true → (b1.nodes x).prompt = none) :
    ∃ list' b2, finishNode v list b1 = (list', b2) ∧
      b2.nodes = b1.nodes ∧ b2.props = b1.props ∧
      b2.choices = closeChoice b1.nodes b1.choices v list' ∧
      list'.preorder = f.preorder.filter (fun v => !(b1.nodes v).isIf) ∧
      choicesIn b1.nodes list' = choicesIn b1.nodes list := by
  have hd : ∀ x ∈ list.preorder, (b1.nodes x).isIf = true → (b1.nodes x).flat = true := by
    intro x hx hif
    have hitem : (b1.nodes x).item = none := Option.isNone_iff_eq_none.mp hif
    simp [ParsedNode.flat, ParsedNode.isChoice, hitem, hifs x (h.subset hx) hif]
  have hk : ∀ x, (b1.nodes x).isChoice = true → (b1.nodes x).flat = false := by
    intro x hx
    rw [ParsedNode.flat, hx, Bool.not_true, Bool.and_false]
  refine ⟨_, _, rfl, rfl, rfl, rfl, ?_, ?_⟩
  · have hpre := Forest.preorder_dropRoots_hoist hd h.clear .nil
    rw [h.order] at hpre
    exact hpre.trans (List.append_nil _)
  · exact (Forest.closing_dropRoots_hoist hk hd h.clear .nil).trans (List.append_nil _)

theorem Finalized.node {vis : Expr} {v : ι} {cs ab : Forest ι} {b0 : Build ι}
    (h : Finalized vis f b0 list b1) (hchoices : b0.choices = b.choices)
    (hpre : (Forest.node v cs ab).preorder = v :: f.preorder)
    (hnodes : b1.nodes =
      (Forest.node v cs ab).passDown visibleBelow propagateDep visibleIf b.nodes)
    (hprops : b1.props =
      (v :: f.preorder).foldl (fun p w => addPropsToSym (b1.nodes w) p) b.props)
    (hifs : ∀ x ∈ f.preorder, (b1.nodes x).isIf = true → (b1.nodes x).prompt = none) :
    ∃ list' b2, finishNode v list b1 = (list', b2) ∧
      Finalized visibleIf (.node v cs ab) b (.node v list' .nil) b2 := by
  obtain ⟨list', b2, hfinish, hn, hp, hc, horder, hchoice⟩ := h.finish (v := v) hifs
  have hstay : ∀ x ∈ list'.preorder, (b1.nodes x).isIf = false := by
    intro x hx
    rw [horder] at hx
    simpa using (List.mem_filter.mp hx).2
  refine ⟨list', b2, hfinish, ?_, ?_, ?_, ?_, ?_, ?_⟩
  · rw [hn, hnodes]
  · rw [hn, hp, hprops, hpre]
  · have hclosing : choicesIn b1.nodes (.node v list' .nil) =
        choicesIn b1.nodes list ++ if (b1.nodes v).isChoice then [(v, list')] else [] := by
      rw [← hchoice]
      simp [choicesIn, Forest.closing]
    rw [hn, hc, hclosing, List.foldl_append, ← hchoices, ← h.choices]
    split_ifs with hv
    · rfl
    · unfold ParsedNode.isChoice at hv
      unfold closeChoice
      cases hi : (b1.nodes v).item with
      | none => rfl
      | some item =>
        cases item with
        | choice i => simp [hi] at hv
        | symbol name => rfl
        | menu => rfl
        | comment => rfl
  · rw [hpre, Forest.preorder_node, Forest.preorder_nil, List.append_nil, horder]
    exact List.cons_subset_cons v (List.filter_subset_self _)
  · rw [hn, hpre, Forest.preorder_node, Forest.preorder_nil, List.append_nil, horder]
    simp only [List.filter_cons, List.filter_filter, Bool.and_self]
  · rw [hn]
    exact ⟨hstay, trivial⟩

end

theorem Finalized.nil (visibleIf : Expr) (b : Build ι) : Finalized visibleIf .nil b .nil b where
  nodes := rfl
  props := rfl
  choices := rfl
  subset := fun _ hx => hx
  order := rfl
  clear := trivial

/-- The nodes of `b` are those that were parsed, as far as finalizing leaves them alone. -/
def Build.From (parsed : ι → ParsedNode) (b : Build ι) : Prop :=
  ∀ x, (b.nodes x).kind = (parsed x).kind

theorem Finalized.from {parsed : ι → ParsedNode} {visibleIf : Expr} {f list : Forest ι}
    {b b' : Build ι} (h : Finalized visibleIf f b list b') (hb : b.From parsed) :
    b'.From parsed := fun x => (h.kind x).trans (hb x)

omit [DecidableEq ι] in
theorem Parsed.ifs_of {parsed : ι → ParsedNode} {f : Forest ι} {b : Build ι}
    (hp : Parsed parsed f) (hb : b.From parsed) {x : ι} (hx : x ∈ f.preorder)
    (hif : (b.nodes x).isIf = true) : (b.nodes x).prompt = none := by
  rw [isIf_of_kind (hb x)] at hif
  have hprompt : (b.nodes x).prompt.isNone = (parsed x).prompt.isNone := congrArg Prod.snd (hb x)
  rw [hp.ifs x hx hif, Option.isNone_none] at hprompt
  exact Option.isNone_iff_eq_none.mp hprompt

omit [DecidableEq ι] in
theorem Parsed.append_iff {parsed : ι → ParsedNode} {f g : Forest ι}
    (h : Parsed parsed (f.append g)) :
    Parsed parsed f ∧ Parsed parsed g ∧ ∀ x ∈ f.preorder, x ∉ g.preorder := by
  have hn := h.nodup
  rw [Forest.preorder_append] at hn
  have hpre : ∀ x, x ∈ f.preorder ∨ x ∈ g.preorder → x ∈ (f.append g).preorder := by
    intro x hx
    rw [Forest.preorder_append]
    exact List.mem_append.mpr hx
  have hsub : ∀ t, t ∈ f.subtrees ∨ t ∈ g.subtrees → t ∈ (f.append g).subtrees := by
    intro t ht
    rw [Forest.subtrees_append]
    exact List.mem_append.mpr ht
  refine ⟨⟨hn.of_append_left, fun x hx => h.ifs x (hpre x (.inl hx)),
      fun t ht => h.symbols t (hsub t (.inl ht))⟩,
    ⟨hn.of_append_right, fun x hx => h.ifs x (hpre x (.inr hx)),
      fun t ht => h.symbols t (hsub t (.inr ht))⟩, fun x hf hg => ?_⟩
  exact (List.disjoint_of_nodup_append hn) hf hg

/-- What the three parts of `_finalize_tree` do with the fuel. -/
structure Finishes (parsed : ι → ParsedNode) (fuel : ℕ) : Prop where
  tree : ∀ visibleIf v cs next b, Parsed parsed (.node v cs next) → b.From parsed →
    2 * (cs.size + next.size) + 2 ≤ fuel →
    ∃ taken next' list b', finalizeTree fuel visibleIf v cs next b = some (list, next', b') ∧
      next = taken.append next' ∧
      Finalized visibleIf (.node v cs taken) b (.node v list .nil) b'
  list : ∀ visibleIf f b, Parsed parsed f → b.From parsed → 2 * f.size + 1 ≤ fuel →
    ∃ list b', finalizeList fuel visibleIf f b = some (list, b') ∧ Finalized visibleIf f b list b'
  menu : ∀ visibleIf name f b, Parsed parsed f → b.From parsed → 2 * f.size + 1 ≤ fuel →
    ∃ taken next' menu b', autoMenu fuel visibleIf name f b = some (menu, next', b') ∧
      f = taken.append next' ∧ Finalized visibleIf taken b menu b'

theorem addPropsToSym_of_name {node : ParsedNode} (h : node.name = none) (props : Props) :
    addPropsToSym node props = props := by
  rw [addPropsToSym, h]

section

variable {parsed : ι → ParsedNode} {fuel : ℕ} (ih : Finishes parsed fuel) {visibleIf : Expr}
  {b : Build ι} (hb : b.From parsed)

include ih hb

theorem Finishes.symbol {v : ι} {next : Forest ι} (hp : Parsed parsed (.node v .nil next))
    {name : Text} (hname : (b.nodes v).name = some name) (hfuel : 2 * next.size + 1 ≤ fuel) :
    ∃ taken next' list b',
      finalizeTree (fuel + 1) visibleIf v .nil next b = some (list, next', b') ∧
      next = taken.append next' ∧
      Finalized visibleIf (.node v .nil taken) b (.node v list .nil) b' := by
  obtain ⟨-, hnext, -⟩ := hp.node_iff
  obtain ⟨taken, next', menu, b2, hmenu, rfl, h⟩ :=
    ih.menu visibleIf name next { b with props := addPropsToSym (b.nodes v) b.props } hnext hb hfuel
  obtain ⟨htaken, -, -⟩ := hnext.append_iff
  have hv : b2.nodes v = b.nodes v := by
    have hout : v ∉ taken.preorder := by
      obtain ⟨-, hvs, -⟩ := Forest.nodup_node.mp hp.nodup
      rw [Forest.preorder_append, List.mem_append, not_or] at hvs
      exact hvs.1
    rw [h.nodes, Forest.passDown_frame hout]
  have hpre : (Forest.node v .nil taken).preorder = v :: taken.preorder := rfl
  obtain ⟨list, b', hfinish, hf⟩ := h.node (b := b) rfl hpre h.nodes
    (by rw [List.foldl_cons, hv, h.props]) fun x hx => htaken.ifs_of (h.from hb) hx
  refine ⟨taken, next', list, b', ?_, rfl, hf⟩
  simp only [finalizeTree, hname, hmenu, Option.bind_eq_bind, Option.bind_some, hfinish]
  rfl

/-- A choice, a menu or an `if` hands down first and then finalizes what is in it. -/
theorem Finishes.parent {v c : ι} {cs ss next list : Forest ι}
    (hlist : list = .node c cs ss) (hp : Parsed parsed (.node v list next))
    (hfuel : 2 * list.size + 1 ≤ fuel) :
    ∃ list' b', finalizeTree (fuel + 1) visibleIf v list next b = some (list', next, b') ∧
      Finalized visibleIf (.node v list .nil) b (.node v list' .nil) b' := by
  obtain ⟨hcs, -, hsym⟩ := hp.node_iff
  have hb1 : Build.From parsed
      { b with nodes := propagateDeps (visibleBelow visibleIf (b.nodes v)) v list b.nodes } :=
    fun x => (Forest.pushRoots_keeps (g := ParsedNode.kind) kind_propagateDep _ _ _ _ x).trans
      (hb x)
  obtain ⟨list1, b2, hrun, h⟩ := ih.list (visibleBelow visibleIf (b.nodes v)) list _ hcs hb1 hfuel
  have hname : (b2.nodes v).name = none := by
    rw [name_of_kind (h.from hb1 v)]
    by_contra hne
    have hnil := hsym (Option.isSome_iff_ne_none.mpr hne)
    rw [hlist] at hnil
    cases hnil
  have hpre : (Forest.node v list .nil).preorder = v :: list.preorder := by simp
  obtain ⟨list', b', hfinish, hf⟩ := h.node (b := b) rfl hpre h.nodes
    (by rw [List.foldl_cons, addPropsToSym_of_name hname, h.props]) fun x hx =>
      hcs.ifs_of (h.from hb1) hx
  refine ⟨list', b', ?_, hf⟩
  subst hlist
  simp only [finalizeTree, hrun, Option.bind_eq_bind, Option.bind_some, hfinish]
  rfl

end

theorem finishes (parsed : ι → ParsedNode) (fuel : ℕ) : Finishes parsed fuel := by
  induction fuel with
  | zero => exact ⟨fun _ _ _ _ _ _ _ h => by omega, fun _ _ _ _ _ h => by omega,
      fun _ _ _ _ _ _ h => by omega⟩
  | succ fuel ih =>
    refine ⟨fun visibleIf v cs next b hp hb hfuel => ?_, fun visibleIf f b hp hb hfuel => ?_,
      fun visibleIf name f b hp hb hfuel => ?_⟩
    · cases cs with
      | nil =>
        cases hname : (b.nodes v).name with
        | none =>
          have hpre : (Forest.node v .nil .nil).preorder = v :: Forest.nil.preorder := rfl
          obtain ⟨list, b', hfinish, h⟩ := (Finalized.nil visibleIf b).node rfl hpre rfl
            (by simp [addPropsToSym_of_name hname]) (fun x hx => absurd hx (by simp))
          refine ⟨.nil, next, list, b', ?_, rfl, h⟩
          simp only [finalizeTree, hname, hfinish]
          rfl
        | some name =>
          rw [Forest.size] at hfuel
          exact ih.symbol hb hp hname (by omega)
      | node c cs' ss' =>
        obtain ⟨list', b', hrun, h⟩ := ih.parent hb rfl hp (by omega)
        exact ⟨.nil, next, list', b', hrun, rfl, h⟩
    · cases f with
      | nil => exact ⟨.nil, b, rfl, Finalized.nil visibleIf b⟩
      | node v cs ss =>
        rw [Forest.size] at hfuel
        obtain ⟨taken, next', list, b1, htree, rfl, h1⟩ :=
          ih.tree visibleIf v cs ss b hp hb (by omega)
        rw [Forest.size_append] at hfuel
        have hsplit : Parsed parsed ((Forest.node v cs taken).append next') := hp
        obtain ⟨-, hnext, hdisj⟩ := hsplit.append_iff
        obtain ⟨list', b2, hrun, h2⟩ := ih.list visibleIf next' b1 hnext (h1.from hb) (by omega)
        refine ⟨.node v list list', b2, ?_, h1.append h2 hdisj⟩
        simp only [finalizeList, htree, Option.bind_eq_bind, Option.bind_some, hrun]
        rfl
    · cases f with
      | nil => exact ⟨.nil, .nil, .nil, b, rfl, rfl, Finalized.nil visibleIf b⟩
      | node v cs ss =>
        rw [Forest.size] at hfuel
        by_cases hdep : autoMenuDep name (b.nodes v) = true
        · obtain ⟨taken, next', list, b1, htree, rfl, h1⟩ :=
            ih.tree visibleIf v cs ss b hp hb (by omega)
          rw [Forest.size_append] at hfuel
          have hsplit : Parsed parsed ((Forest.node v cs taken).append next') := hp
          obtain ⟨-, hnext, hdisj⟩ := hsplit.append_iff
          obtain ⟨taken', next'', menu, b2, hmenu, rfl, h2⟩ :=
            ih.menu visibleIf name next' b1 hnext (h1.from hb) (by omega)
          have hdisj' : ∀ x ∈ (Forest.node v cs taken).preorder, x ∉ taken'.preorder := by
            intro x hx ht
            refine hdisj x hx ?_
            rw [Forest.preorder_append]
            exact List.mem_append_left _ ht
          refine ⟨.node v cs (taken.append taken'), next'', .node v list menu, b2, ?_, ?_,
            h1.append h2 hdisj'⟩
          · simp only [autoMenu, hdep, if_true, htree, Option.bind_eq_bind, Option.bind_some, hmenu]
            rfl
          · rw [Forest.append, Forest.append_assoc]
        · refine ⟨.nil, .node v cs ss, .nil, b, ?_, rfl, Finalized.nil visibleIf b⟩
          rw [autoMenu, if_neg hdep]
          rfl

/-- Finalizing the tree comes to an end, and the nodes that are left are those that were
parsed, without the `if`s and in the same order. -/
theorem finalizeTree_top {b : Build ι} {top : ι} {cs : Forest ι}
    (hp : Parsed b.nodes (.node top cs .nil)) {fuel : ℕ} (hfuel : 2 * cs.size + 2 ≤ fuel) :
    ∃ list b', finalizeTree fuel .y top cs .nil b = some (list, .nil, b') ∧
      list.preorder = cs.preorder.filter (fun v => !(b.nodes v).isIf) ∧
      Finalized .y (.node top cs .nil) b (.node top list .nil) b' := by
  obtain ⟨taken, next, list, b', hrun, htaken, h⟩ :=
    (finishes b.nodes fuel).tree .y top cs .nil b hp (fun _ => rfl) (by
      rw [Forest.size, Nat.add_zero]
      exact hfuel)
  obtain ⟨rfl, rfl⟩ : taken = .nil ∧ next = .nil := by
    cases taken with
    | nil => exact ⟨rfl, htaken.symm⟩
    | node x xs ys => cases htaken
  refine ⟨list, b', hrun, ?_, h⟩
  have hif : ∀ x, (b'.nodes x).isIf = (b.nodes x).isIf := fun x => isIf_of_kind (h.kind x)
  have horder := h.order
  have hclear : ∀ x ∈ list.preorder, (b'.nodes x).isIf = false := h.clear.1
  simp only [Forest.preorder_node, Forest.preorder_nil, List.append_nil, List.filter_cons,
    Forest.filter_of_clear hclear] at horder
  split_ifs at horder
  · rw [← funext fun x => congrArg (!·) (hif x)]
    exact (List.cons.inj horder).2
  · rw [← funext fun x => congrArg (!·) (hif x)]
    exact horder

theorem finalized_of_run {b b' : Build ι} {top : ι} {cs list next : Forest ι}
    (hp : Parsed b.nodes (.node top cs .nil)) {fuel : ℕ} (hfuel : 2 * cs.size + 2 ≤ fuel)
    (hrun : finalizeTree fuel .y top cs .nil b = some (list, next, b')) :
    list.preorder = cs.preorder.filter (fun v => !(b.nodes v).isIf) ∧
      Finalized .y (.node top cs .nil) b (.node top list .nil) b' := by
  obtain ⟨list0, b0, hrun0, horder, hf⟩ := finalizeTree_top hp hfuel
  rw [hrun0] at hrun
  obtain rfl : list0 = list := congrArg Prod.fst (Option.some.inj hrun)
  obtain rfl : b0 = b' := congrArg (fun r => r.2.2) (Option.some.inj hrun)
  exact ⟨horder, hf⟩

end

/-! ### The beginning of `Config.in` -/

def symbolNode (name prompt : String) : ParsedNode :=
  ⟨some (.symbol name.toList), some (prompt.toList, .y), .y, .y, [], [], [], []⟩

/-- As `_parse_block` makes them: the main menu, the menu with the settings, a choice and its
symbols, another choice that depends on one of them, and a symbol without a prompt. -/
def bookNodes : List ParsedNode :=
  [⟨some .menu, some ("Main menu".toList, .y), .y, .y, [], [], [], []⟩,
    ⟨some .menu, some ("BOOK Settings".toList, .y), .y, .y, [], [], [], []⟩,
    ⟨some (.choice 0), some ("Use BOOK".toList, .y), .y, .y,
      [(.sym "BOOK_LFS_SYSD".toList, .y)], [], [], []⟩,
    symbolNode "BOOK_LFS" "Linux From Scratch System V",
    symbolNode "BOOK_LFS_SYSD" "Linux From Scratch systemd",
    symbolNode "BOOK_BLFS" "Beyond Linux From Scratch (see help)",
    ⟨some (.choice 1), some ("Init system".toList, .y), .sym "BOOK_BLFS".toList, .y,
      [], [], [], []⟩,
    symbolNode "BLFS_SYSV" "BLFS SysV",
    symbolNode "BLFS_SYSD" "BLFS systemd",
    ⟨some (.symbol "INITSYS".toList), none, .y, .y,
      [(.const "sysv".toList, .or (.sym "BOOK_LFS".toList) (.sym "BLFS_SYSV".toList)),
        (.const "systemd".toList, .or (.sym "BOOK_LFS_SYSD".toList) (.sym "BLFS_SYSD".toList))],
      [], [], []⟩]

def leaves : List ℕ → Forest ℕ
  | [] => .nil
  | v :: vs => .node v .nil (leaves vs)

def bookForest : Forest ℕ :=
  .node 1 (.node 2 (leaves [3, 4, 5]) (.node 6 (leaves [7, 8]) (leaves [9]))) .nil

def bookBuild : Build ℕ where
  nodes v := bookNodes.getD v (symbolNode "" "")
  props _ := noProps
  choices :=
    { choiceOf := fun _ => none
      symType := fun name => if name = "INITSYS".toList then .string else .bool
      choiceType := fun _ => .unknown
      directDep := fun _ => .n
      defaults := fun _ => []
      syms := fun _ => [] }

theorem parsed_book : Parsed bookBuild.nodes (.node 0 bookForest .nil) :=
  ⟨by decide, by decide, by decide⟩

theorem fuel_parsed_book : 2 * bookForest.size + 2 ≤ 24 := by decide

end HaoosLfs.Menu
