import HaoosLfs.Menu.Finalize

/-!
# What the finalized dependencies mean (`kconfiglib.py:3436-3587`)

The conditions that `_finalize_tree` makes have the values that the tree as it was parsed
gives them: those of the nodes that enclose a definition, whatever is simplified and
whichever implicit menus are made on the way.
-/

namespace HaoosLfs.Menu

section

variable {ι : Type} (val : Expr → ℕ) (nodes : ι → ParsedNode)

/-- A node depends on what encloses it, up to the nearest choice: its mode stands for all
that is around it. -/
def depIn : List ι → ι → ℕ
  | [], v => val (nodes v).dep
  | p :: ps, v =>
    min (val (nodes v).dep)
      (match (nodes p).item with
      | some (.choice i) => val (.item (.choice i))
      | _ => depIn ps p)

/-- The `visible if`s of the menus around a node. -/
def visibleIn : List ι → ℕ
  | [] => 2
  | p :: ps =>
    if (nodes p).item = some .menu then min (visibleIn ps) (val (nodes p).visibility)
    else visibleIn ps

end

def evalConds {α : Type} (val : Expr → ℕ) (l : List (α × Expr)) : List (α × ℕ) :=
  l.map fun d => (d.1, val d.2)

def limitConds {α : Type} (val : Expr → ℕ) (limit : ℕ) (l : List (α × Expr)) : List (α × ℕ) :=
  l.map fun d => (d.1, min (val d.2) limit)

def rangeConds (l : List (Sym × Sym × Expr)) : List ((Sym × Sym) × Expr) :=
  l.map fun r => ((r.1, r.2.1), r.2.2)

/-- The node `n` after finalizing: everything in it is limited by its dependency, and the
prompts of symbols and choices by `vis` as well. -/
structure Settled (val : Expr → ℕ) (limit vis : ℕ) (n n' : ParsedNode) : Prop where
  item : n'.item = n.item
  dep : val n'.dep = limit
  prompt : evalConds val n'.prompt.toList =
    limitConds val (if n.isSymbolChoice then min vis limit else limit) n.prompt.toList
  defaults : n.isSymbolChoice = true → evalConds val n'.defaults = limitConds val limit n.defaults
  ranges : n.isSymbolChoice = true →
    evalConds val (rangeConds n'.ranges) = limitConds val limit (rangeConds n.ranges)
  selects : n.isSymbolChoice = true → evalConds val n'.selects = limitConds val limit n.selects
  implies : n.isSymbolChoice = true → evalConds val n'.implies = limitConds val limit n.implies

section

variable {item : Item → ℕ} {rel : Rel → Sym → Sym → ℕ} (h : Tristate item rel)

include h

theorem Tristate.evalConds_and {α : Type} (dep : Expr) (l : List (α × Expr)) :
    evalConds (valueOf item rel) (l.map fun d => (d.1, Menu.makeAnd d.2 dep)) =
      limitConds (valueOf item rel) (valueOf item rel dep) l := by
  rw [evalConds, limitConds, List.map_map]
  refine List.map_congr_left fun d _ => ?_
  exact congrArg (Prod.mk d.1) (h.makeAnd d.2 dep)

theorem Tristate.propagateDep_dep (vis : Expr) (parent cur : ParsedNode) :
    valueOf item rel (propagateDep vis parent cur).dep =
      min (valueOf item rel cur.dep) (valueOf item rel (baseDep parent)) := by
  rw [propagateDep]
  split_ifs
  · exact h.makeAnd _ _
  · exact h.makeAnd _ _

theorem Tristate.settled_propagateDep (vis : Expr) (parent cur : ParsedNode) :
    Settled (valueOf item rel)
      (min (valueOf item rel cur.dep) (valueOf item rel (baseDep parent)))
      (valueOf item rel vis) cur (propagateDep vis parent cur) := by
  have hdep := h.makeAnd cur.dep (baseDep parent)
  rw [← hdep]
  cases hsc : cur.isSymbolChoice with
  | true =>
    have heq : propagateDep vis parent cur = _ := if_pos hsc
    rw [heq]
    refine ⟨rfl, rfl, ?_, fun _ => h.evalConds_and _ _, fun _ => ?_,
      fun _ => h.evalConds_and _ _, fun _ => h.evalConds_and _ _⟩
    · rw [hsc, if_pos rfl, ← h.makeAnd]
      cases cur.prompt with
      | none => rfl
      | some p => exact h.evalConds_and _ [p]
    · simp only [rangeConds, List.map_map, Function.comp_def, evalConds, limitConds, h.makeAnd]
  | false =>
    have heq : propagateDep vis parent cur = _ := if_neg (by rw [hsc]; exact Bool.false_ne_true)
    rw [heq]
    refine ⟨rfl, rfl, ?_, fun hf => ?_, fun hf => ?_, fun hf => ?_, fun hf => ?_⟩
    · rw [hsc, if_neg Bool.false_ne_true]
      cases cur.prompt with
      | none => rfl
      | some p => exact h.evalConds_and _ [p]
    all_goals
      rw [hsc] at hf
      cases hf

variable {ι : Type} (nodes : ι → ParsedNode)

theorem Tristate.visibleBelow (vis : Expr) (node : ParsedNode) :
    valueOf item rel (visibleBelow vis node) =
      if node.item = some .menu then min (valueOf item rel vis) (valueOf item rel node.visibility)
      else valueOf item rel vis := by
  rw [Menu.visibleBelow]
  split_ifs
  · exact h.makeAnd _ _
  · rfl

def nodeIn (nodes : ι → ParsedNode) : List ι → ι → ParsedNode :=
  Forest.nodeAt Menu.visibleBelow propagateDep .y nodes

def visibleTo (nodes : ι → ParsedNode) : List ι → Expr :=
  Forest.attrAt Menu.visibleBelow propagateDep .y nodes

omit h in
theorem item_nodeIn (ps : List ι) (v : ι) : (nodeIn nodes ps v).item = (nodes v).item :=
  item_of_kind (Forest.nodeAt_keeps (g := ParsedNode.kind) kind_propagateDep _ _ _ _)

omit h in
theorem visibility_nodeIn (ps : List ι) (v : ι) :
    (nodeIn nodes ps v).visibility = (nodes v).visibility := by
  refine Forest.nodeAt_keeps (g := ParsedNode.visibility) (fun vis parent cur => ?_) _ _ _ _
  rw [propagateDep]
  split_ifs
  · rfl
  · rfl

theorem Tristate.visibleTo (ps : List ι) :
    valueOf item rel (visibleTo nodes ps) = visibleIn (valueOf item rel) nodes ps := by
  induction ps with
  | nil => exact h.y
  | cons p ps ih =>
    change valueOf item rel (Menu.visibleBelow (Menu.visibleTo nodes ps) (nodeIn nodes ps p)) = _
    rw [h.visibleBelow, item_nodeIn, visibility_nodeIn, ih]
    rfl

omit h in
theorem baseDep_nodeIn (ps : List ι) (p v : ι)
    (ih : valueOf item rel (nodeIn nodes ps p).dep = depIn (valueOf item rel) nodes ps p) :
    min (valueOf item rel (nodes v).dep) (valueOf item rel (baseDep (nodeIn nodes ps p))) =
      depIn (valueOf item rel) nodes (p :: ps) v := by
  rw [baseDep, item_nodeIn, depIn, ← ih]
  cases (nodes p).item with
  | none => rfl
  | some x =>
    cases x with
    | choice i => rfl
    | symbol name => rfl
    | menu => rfl
    | comment => rfl

theorem Tristate.dep_nodeIn (ps : List ι) (v : ι) :
    valueOf item rel (nodeIn nodes ps v).dep = depIn (valueOf item rel) nodes ps v := by
  induction ps generalizing v with
  | nil => rfl
  | cons p ps ih =>
    change valueOf item rel (propagateDep _ (nodeIn nodes ps p) (nodes v)).dep = _
    rw [h.propagateDep_dep, baseDep_nodeIn nodes ps p v (ih p)]

theorem Tristate.settled_nodeIn (p : ι) (ps : List ι) (v : ι) :
    Settled (valueOf item rel) (depIn (valueOf item rel) nodes (p :: ps) v)
      (visibleIn (valueOf item rel) nodes (p :: ps)) (nodes v) (nodeIn nodes (p :: ps) v) := by
  rw [← baseDep_nodeIn nodes ps p v (h.dep_nodeIn nodes ps p), ← h.visibleTo]
  exact h.settled_propagateDep _ _ _

end

section

variable {ι : Type} [DecidableEq ι]

theorem Finalized.nodeIn {top : ι} {cs list : Forest ι} {b b' : Build ι}
    (hf : Finalized .y (.node top cs .nil) b list b') (hp : Parsed b.nodes (.node top cs .nil))
    {t : ι × List ι} (ht : t ∈ Forest.paths [] (.node top cs .nil)) :
    b'.nodes t.1 = Menu.nodeIn b.nodes t.2 t.1 := by
  have hroots : ∀ x ∈ (Forest.node top cs .nil).roots, b.nodes x = Menu.nodeIn b.nodes [] x :=
    fun x _ => rfl
  rw [hf.nodes]
  exact Forest.passDown_eq hp.nodup hroots (fun x _ _ => rfl) ht

theorem Finalized.settled {top : ι} {cs list : Forest ι} {b b' : Build ι}
    (hf : Finalized .y (.node top cs .nil) b list b') (hp : Parsed b.nodes (.node top cs .nil))
    {item : Item → ℕ} {rel : Rel → Sym → Sym → ℕ} (h : Tristate item rel) {t : ι × List ι}
    (ht : t ∈ Forest.paths [top] cs) :
    Settled (valueOf item rel) (depIn (valueOf item rel) b.nodes t.2 t.1)
      (visibleIn (valueOf item rel) b.nodes t.2) (b.nodes t.1) (b'.nodes t.1) := by
  have hmem : t ∈ Forest.paths [] (.node top cs .nil) := by
    rw [Forest.paths]
    exact List.mem_cons_of_mem _ (List.mem_append_left _ ht)
  obtain ⟨p, ps, hps⟩ := Forest.paths_cons ht
  rw [hf.nodeIn hp hmem, hps]
  exact h.settled_nodeIn b.nodes p ps t.1

/-- Whatever implicit menus are made, finalizing keeps the nodes that are no `if`s in their
order, and limits each definition by what encloses it in the tree that was parsed. -/
theorem finalizeTree_settled {b : Build ι} {top : ι} {cs : Forest ι}
    (hp : Parsed b.nodes (.node top cs .nil)) {fuel : ℕ} (hfuel : 2 * cs.size + 2 ≤ fuel) :
    ∃ list b', finalizeTree fuel .y top cs .nil b = some (list, .nil, b') ∧
      list.preorder = cs.preorder.filter (fun v => !(b.nodes v).isIf) ∧
      ∀ item rel, Tristate item rel → ∀ t ∈ Forest.paths [top] cs,
        Settled (valueOf item rel) (depIn (valueOf item rel) b.nodes t.2 t.1)
          (visibleIn (valueOf item rel) b.nodes t.2) (b.nodes t.1) (b'.nodes t.1) := by
  obtain ⟨list, b', hrun, horder, hf⟩ := finalizeTree_top hp hfuel
  exact ⟨list, b', hrun, horder, fun item rel h t ht => hf.settled hp h ht⟩

theorem finalizeTree_settled_book :
    ∃ list b', finalizeTree 24 .y 0 bookForest .nil bookBuild = some (list, .nil, b') ∧
      list.preorder = bookForest.preorder.filter (fun v => !(bookBuild.nodes v).isIf) ∧
      ∀ item rel, Tristate item rel → ∀ t ∈ Forest.paths [0] bookForest,
        Settled (valueOf item rel) (depIn (valueOf item rel) bookBuild.nodes t.2 t.1)
          (visibleIn (valueOf item rel) bookBuild.nodes t.2) (bookBuild.nodes t.1)
          (b'.nodes t.1) :=
  finalizeTree_settled parsed_book fuel_parsed_book

end

/-! ### Properties of the symbols -/

def maxOf (l : List ℕ) : ℕ := l.foldr max 0

theorem maxOf_append (l l' : List ℕ) : maxOf (l ++ l') = max (maxOf l) (maxOf l') := by
  induction l with
  | nil => exact (Nat.zero_max _).symm
  | cons m l ih => rw [List.cons_append, maxOf, List.foldr_cons, ← maxOf, ih, maxOf, maxOf, maxOf,
      List.foldr_cons, Nat.max_assoc]

theorem addReverse_apply (add : SymbolProps → Expr → SymbolProps) (name : Text) (props : Props)
    (l : List (Text × Expr)) (target : Text) :
    l.foldl (addReverse add name) props target =
      (l.filter fun s => s.1 = target).foldl (fun p s => add p (makeAnd (.sym name) s.2))
        (props target) := by
  induction l generalizing props with
  | nil => rfl
  | cons s l ih =>
    rw [List.foldl_cons, ih, List.filter_cons]
    by_cases hs : s.1 = target
    · rw [if_pos (decide_eq_true hs), List.foldl_cons, addReverse, hs, Function.update_self]
    · rw [if_neg (by simpa using hs), addReverse, Function.update_of_ne (Ne.symm hs)]

theorem foldl_keeps {α β γ : Type} {g : α → β} {f : α → γ → α} (hf : ∀ a c, g (f a c) = g a)
    (l : List γ) (a : α) : g (l.foldl f a) = g a := by
  induction l generalizing a with
  | nil => rfl
  | cons c l ih => rw [List.foldl_cons, ih, hf]

theorem addPropsToSym_own {β : Type} {g : SymbolProps → β}
    (hrev : ∀ p e, g (p.orRevDep e) = g p) (hweak : ∀ p e, g (p.orWeakRevDep e) = g p)
    (node : ParsedNode) (props : Props) (target : Text) :
    g (addPropsToSym node props target) =
      g (if node.name = some target then (props target).addOwn node else props target) := by
  rw [addPropsToSym]
  cases hname : node.name with
  | none => rw [if_neg (by simp)]
  | some name =>
    simp only [addReverse_apply]
    rw [foldl_keeps fun p s => hweak p _, foldl_keeps fun p s => hrev p _]
    by_cases ht : name = target
    · rw [if_pos (congrArg some ht), ht, Function.update_self]
    · rw [if_neg fun he => ht (Option.some.inj he), Function.update_of_ne (Ne.symm ht)]

section

variable {item : Item → ℕ} {rel : Rel → Sym → Sym → ℕ} (h : Tristate item rel)

def reverseOf (val : Expr → ℕ) (which : ParsedNode → List (Text × Expr)) (target : Text)
    (node : ParsedNode) : List ℕ :=
  match node.name with
  | none => []
  | some name =>
    ((which node).filter fun s => s.1 = target).map fun s => min (val (.sym name)) (val s.2)

include h

theorem Tristate.foldl_reverse {add : SymbolProps → Expr → SymbolProps} {get : SymbolProps → Expr}
    (hadd : ∀ p e, get (add p e) = Menu.makeOr (get p) e) (name : Text) (l : List (Text × Expr))
    (p : SymbolProps) :
    valueOf item rel (get (l.foldl (fun p s => add p (Menu.makeAnd (.sym name) s.2)) p)) =
      max (valueOf item rel (get p))
        (maxOf (l.map fun s => min (valueOf item rel (.sym name)) (valueOf item rel s.2))) := by
  induction l generalizing p with
  | nil => exact (Nat.max_zero _).symm
  | cons s l ih =>
    rw [List.foldl_cons, ih, hadd, h.makeOr, h.makeAnd, List.map_cons, maxOf, maxOf,
      List.foldr_cons,
      Nat.max_assoc]

omit h in
theorem update_addOwn {β : Type} {g : SymbolProps → β} (hg : ∀ p node, g (p.addOwn node) = g p)
    (props : Props) (name target : Text) (node : ParsedNode) :
    g (Function.update props name ((props name).addOwn node) target) = g (props target) := by
  by_cases ht : target = name
  · rw [ht, Function.update_self, hg]
  · rw [Function.update_of_ne ht]

theorem Tristate.addPropsToSym_revDep (node : ParsedNode) (props : Props) (target : Text) :
    valueOf item rel (addPropsToSym node props target).revDep =
      max (valueOf item rel (props target).revDep)
        (maxOf (reverseOf (valueOf item rel) ParsedNode.selects target node)) := by
  rw [addPropsToSym, reverseOf]
  cases node.name with
  | none => exact (Nat.max_zero _).symm
  | some name =>
    have hkeep : ∀ (p : SymbolProps) (s : Text × Expr),
        (p.orWeakRevDep (Menu.makeAnd (.sym name) s.2)).revDep = p.revDep := fun _ _ => rfl
    have hadd : ∀ (p : SymbolProps) e, (p.orRevDep e).revDep = Menu.makeOr p.revDep e :=
      fun _ _ => rfl
    simp only [addReverse_apply]
    rw [foldl_keeps (g := SymbolProps.revDep) hkeep, h.foldl_reverse hadd,
      update_addOwn (g := SymbolProps.revDep) fun _ _ => rfl]

theorem Tristate.addPropsToSym_weakRevDep (node : ParsedNode) (props : Props) (target : Text) :
    valueOf item rel (addPropsToSym node props target).weakRevDep =
      max (valueOf item rel (props target).weakRevDep)
        (maxOf (reverseOf (valueOf item rel) ParsedNode.implies target node)) := by
  rw [addPropsToSym, reverseOf]
  cases node.name with
  | none => exact (Nat.max_zero _).symm
  | some name =>
    have hkeep : ∀ (p : SymbolProps) (s : Text × Expr),
        (p.orRevDep (Menu.makeAnd (.sym name) s.2)).weakRevDep = p.weakRevDep := fun _ _ => rfl
    have hadd : ∀ (p : SymbolProps) e,
        (p.orWeakRevDep e).weakRevDep = Menu.makeOr p.weakRevDep e := fun _ _ => rfl
    simp only [addReverse_apply]
    rw [h.foldl_reverse hadd, foldl_keeps (g := SymbolProps.weakRevDep) hkeep,
      update_addOwn (g := SymbolProps.weakRevDep) fun _ _ => rfl]

end

def definitions {ι : Type} (nodes : ι → ParsedNode) (target : Text) (ts : List (ι × List ι)) :
    List (ι × List ι) :=
  ts.filter fun t => (nodes t.1).name = some target

/-- The selects of the symbol `target` among nodes with their paths, or the implies, each
limited by what encloses it. -/
def reverseIn {ι : Type} (val : Expr → ℕ) (nodes : ι → ParsedNode)
    (which : ParsedNode → List (Text × Expr)) (target : Text) (t : ι × List ι) : List ℕ :=
  match (nodes t.1).name with
  | none => []
  | some name => ((which (nodes t.1)).filter fun s => s.1 = target).map fun s =>
      min (val (.sym name)) (min (val s.2) (depIn val nodes t.2 t.1))

/-- What the nodes `ts` add to the properties `p` of a symbol: it is enabled where one of its
definitions is, and what selects it does so where that is enabled. -/
structure Collected {ι : Type} (val : Expr → ℕ) (nodes : ι → ParsedNode) (target : Text)
    (ts : List (ι × List ι)) (p p' : SymbolProps) : Prop where
  directDep : val p'.directDep = max (val p.directDep)
    (maxOf ((definitions nodes target ts).map fun t => depIn val nodes t.2 t.1))
  defaults : evalConds val p'.defaults = evalConds val p.defaults ++
    (definitions nodes target ts).flatMap fun t =>
      limitConds val (depIn val nodes t.2 t.1) (nodes t.1).defaults
  ranges : evalConds val (rangeConds p'.ranges) = evalConds val (rangeConds p.ranges) ++
    (definitions nodes target ts).flatMap fun t =>
      limitConds val (depIn val nodes t.2 t.1) (rangeConds (nodes t.1).ranges)
  revDep : val p'.revDep =
    max (val p.revDep) (maxOf (ts.flatMap (reverseIn val nodes ParsedNode.selects target)))
  weakRevDep : val p'.weakRevDep =
    max (val p.weakRevDep) (maxOf (ts.flatMap (reverseIn val nodes ParsedNode.implies target)))

section

variable {ι : Type} {val : Expr → ℕ} {nodes : ι → ParsedNode} {target : Text}
  {ts ts' : List (ι × List ι)} {p p' p'' : SymbolProps}

theorem definitions_append : definitions nodes target (ts ++ ts') =
    definitions nodes target ts ++ definitions nodes target ts' := List.filter_append ..

theorem Collected.nil : Collected val nodes target [] p p where
  directDep := (Nat.max_zero _).symm
  defaults := (List.append_nil _).symm
  ranges := (List.append_nil _).symm
  revDep := (Nat.max_zero _).symm
  weakRevDep := (Nat.max_zero _).symm

theorem Collected.append (h1 : Collected val nodes target ts p p')
    (h2 : Collected val nodes target ts' p' p'') :
    Collected val nodes target (ts ++ ts') p p'' where
  directDep := by
    rw [h2.directDep, h1.directDep, definitions_append, List.map_append, maxOf_append,
      Nat.max_assoc]
  defaults := by
    rw [h2.defaults, h1.defaults, definitions_append, List.flatMap_append, List.append_assoc]
  ranges := by
    rw [h2.ranges, h1.ranges, definitions_append, List.flatMap_append, List.append_assoc]
  revDep := by rw [h2.revDep, h1.revDep, List.flatMap_append, maxOf_append, Nat.max_assoc]
  weakRevDep := by
    rw [h2.weakRevDep, h1.weakRevDep, List.flatMap_append, maxOf_append, Nat.max_assoc]

theorem reverse_conds (a limit : ℕ) (l l' : List (Text × Expr))
    (h : evalConds val l' = limitConds val limit l) :
    ((l'.filter fun s => s.1 = target).map fun s => min a (val s.2)) =
      (l.filter fun s => s.1 = target).map fun s => min a (min (val s.2) limit) := by
  have hfilter := congrArg (fun c : List (Text × ℕ) =>
    (c.filter fun s => s.1 = target).map fun s => min a s.2) h
  simp only [evalConds, limitConds, List.filter_map, List.map_map] at hfilter
  exact hfilter

end

section

variable {item : Item → ℕ} {rel : Rel → Sym → Sym → ℕ} (h : Tristate item rel) {ι : Type}
  {nodes nodes' : ι → ParsedNode}

include h

theorem Tristate.collected_one {t : ι × List ι} {vis : ℕ}
    (hset : Settled (valueOf item rel) (depIn (valueOf item rel) nodes t.2 t.1) vis (nodes t.1)
      (nodes' t.1)) (props : Props) (target : Text) :
    Collected (valueOf item rel) nodes target [t] (props target)
      (addPropsToSym (nodes' t.1) props target) := by
  have hname : (nodes' t.1).name = (nodes t.1).name := by
    rw [ParsedNode.name, hset.item, ParsedNode.name]
  have hsc : ∀ name, (nodes t.1).name = some name → (nodes t.1).isSymbolChoice = true := by
    intro name hn
    unfold ParsedNode.name at hn
    unfold ParsedNode.isSymbolChoice
    split at hn
    · rename_i heq
      rw [heq]
    · cases hn
  have hrev : reverseOf (valueOf item rel) ParsedNode.selects target (nodes' t.1) =
      reverseIn (valueOf item rel) nodes ParsedNode.selects target t := by
    rw [reverseOf, reverseIn, hname]
    cases hn : (nodes t.1).name with
    | none => rfl
    | some name => exact reverse_conds _ _ _ _ (hset.selects (hsc name hn))
  have hweak : reverseOf (valueOf item rel) ParsedNode.implies target (nodes' t.1) =
      reverseIn (valueOf item rel) nodes ParsedNode.implies target t := by
    rw [reverseOf, reverseIn, hname]
    cases hn : (nodes t.1).name with
    | none => rfl
    | some name => exact reverse_conds _ _ _ _ (hset.implies (hsc name hn))
  have hdef : definitions nodes target [t] =
      if (nodes t.1).name = some target then [t] else [] := by
    rw [definitions, List.filter_cons]
    split_ifs <;> simp_all
  refine ⟨?_, ?_, ?_, ?_, ?_⟩
  · rw [addPropsToSym_own (g := SymbolProps.directDep) (fun _ _ => rfl) (fun _ _ => rfl), hname,
      hdef]
    split_ifs
    · rw [SymbolProps.addOwn, h.makeOr, hset.dep]
      simp [maxOf]
    · exact (Nat.max_zero _).symm
  · rw [addPropsToSym_own (g := SymbolProps.defaults) (fun _ _ => rfl) (fun _ _ => rfl), hname,
      hdef]
    split_ifs with hn
    · rw [SymbolProps.addOwn, List.flatMap_singleton, ← hset.defaults (hsc target hn)]
      exact List.map_append
    · exact (List.append_nil _).symm
  · rw [addPropsToSym_own (g := SymbolProps.ranges) (fun _ _ => rfl) (fun _ _ => rfl), hname, hdef]
    split_ifs with hn
    · rw [SymbolProps.addOwn, List.flatMap_singleton, ← hset.ranges (hsc target hn)]
      simp [evalConds, rangeConds]
    · exact (List.append_nil _).symm
  · rw [h.addPropsToSym_revDep, hrev, List.flatMap_singleton]
  · rw [h.addPropsToSym_weakRevDep, hweak, List.flatMap_singleton]

theorem Tristate.collected {ts : List (ι × List ι)}
    (hset : ∀ t ∈ ts, ∃ vis, Settled (valueOf item rel) (depIn (valueOf item rel) nodes t.2 t.1) vis
      (nodes t.1) (nodes' t.1)) (props : Props) (target : Text) :
    Collected (valueOf item rel) nodes target ts (props target)
      ((ts.map Prod.fst).foldl (fun p v => addPropsToSym (nodes' v) p) props target) := by
  induction ts generalizing props with
  | nil => exact Collected.nil
  | cons t ts ih =>
    obtain ⟨vis, ht⟩ := hset t List.mem_cons_self
    exact (h.collected_one ht props target).append
      (ih (fun t' ht' => hset t' (List.mem_cons_of_mem _ ht')) _)

end

/-- The properties that finalizing collects for a symbol have the values that its definitions
give them where they stand in the tree that was parsed: it depends on any of them, and is
selected with the value of what selects it and of what encloses the select. -/
theorem finalizeTree_collected {ι : Type} [DecidableEq ι] {b : Build ι} {top : ι} {cs : Forest ι}
    (hp : Parsed b.nodes (.node top cs .nil)) (htop : (b.nodes top).item = some .menu) {fuel : ℕ}
    (hfuel : 2 * cs.size + 2 ≤ fuel) :
    ∃ list b', finalizeTree fuel .y top cs .nil b = some (list, .nil, b') ∧
      ∀ item rel, Tristate item rel → ∀ name,
        Collected (valueOf item rel) b.nodes name (Forest.paths [top] cs) (b.props name)
          (b'.props name) := by
  obtain ⟨list, b', hrun, -, hf⟩ := finalizeTree_top hp hfuel
  refine ⟨list, b', hrun, fun item rel h name => ?_⟩
  have hname : (b'.nodes top).name = none := by
    rw [name_of_kind (hf.kind top), ParsedNode.name, htop]
  rw [hf.props, Forest.preorder_node, Forest.preorder_nil, List.append_nil, List.foldl_cons,
    addPropsToSym_of_name hname, ← Forest.paths_map_fst [top]]
  exact h.collected (fun t ht => ⟨_, hf.settled hp h ht⟩) b.props name

theorem finalizeTree_collected_book :
    ∃ list b', finalizeTree 24 .y 0 bookForest .nil bookBuild = some (list, .nil, b') ∧
      ∀ item rel, Tristate item rel → ∀ name,
        Collected (valueOf item rel) bookBuild.nodes name (Forest.paths [0] bookForest)
          (bookBuild.props name) (b'.props name) :=
  finalizeTree_collected parsed_book rfl fuel_parsed_book

end HaoosLfs.Menu
