import HaoosLfs.Kconfiglib.Token
import HaoosLfs.Lib.Loop

/-!
# Loading a Kconfig file (`kconfiglib.py`)

Of the statements that `_parse_block` and `_parse_properties` accept, those that
occur in `cmd.txt`: menus, entries with a boolean prompt, dependencies on one
symbol, and defaults. Any other statement is refused.
-/

namespace HaoosLfs.Kconfiglib
open Text

/-! ### Expressions -/

inductive Expr where
  | sym (name : Text)
  | const (name : Text)
  | and (e1 e2 : Expr)
  | or (e1 e2 : Expr)
  deriving DecidableEq

def Expr.y : Expr := .const "y".toList
def Expr.n : Expr := .const "n".toList
def Expr.m : Expr := .const "m".toList

def makeAnd (e1 e2 : Expr) : Expr :=
  if e1 = .y then e2
  else if e2 = .y then e1
  else if e1 = .n ∨ e2 = .n then .n
  else .and e1 e2

def makeOr (e1 e2 : Expr) : Expr :=
  if e1 = .n then e2
  else if e2 = .n then e1
  else if e1 = .y ∨ e2 = .y then .y
  else .or e1 e2

def exprItems : Expr → List Text
  | .sym s => [s]
  | .const s => [s]
  | .and e1 e2 | .or e1 e2 => exprItems e1 ++ exprItems e2

/-- The symbols that `_make_depend_on` adds a dependent to: not the constants. -/
def exprSyms : Expr → List Text
  | .sym s => [s]
  | .const _ => []
  | .and e1 e2 | .or e1 e2 => exprSyms e1 ++ exprSyms e2

/-- `expr_value`, with the values 0, 1 and 2 for `n`, `m` and `y`. -/
def exprValue (value : Text → ℕ) : Expr → ℕ
  | .sym s => value s
  | .const s => if s = "y".toList then 2 else if s = "m".toList then 1 else 0
  | .and e1 e2 => min (exprValue value e1) (exprValue value e2)
  | .or e1 e2 => max (exprValue value e1) (exprValue value e2)

theorem exprValue_le {value : Text → ℕ} (h : ∀ s, value s ≤ 2) (e : Expr) :
    exprValue value e ≤ 2 := by
  induction e with
  | sym s => exact h s
  | const s =>
    unfold exprValue
    split_ifs <;> omega
  | and e1 e2 ih1 ih2 =>
    unfold exprValue
    omega
  | or e1 e2 ih1 ih2 =>
    unfold exprValue
    omega

theorem exprValue_makeAnd {value : Text → ℕ} (h : ∀ s, value s ≤ 2) (e1 e2 : Expr) :
    exprValue value (makeAnd e1 e2) = min (exprValue value e1) (exprValue value e2) := by
  have h1 := exprValue_le h e1
  have h2 := exprValue_le h e2
  have hy : exprValue value .y = 2 := rfl
  have hn : exprValue value .n = 0 := rfl
  unfold makeAnd
  split_ifs with hy1 hy2 hn12
  · rw [hy1, hy]
    omega
  · rw [hy2, hy]
    omega
  · rcases hn12 with hn1 | hn2
    · rw [hn1, hn]
      omega
    · rw [hn2, hn]
      omega
  · rfl

/-! ### Parsing -/

structure MenuNode where
  name : Text
  dep : Expr
  deriving DecidableEq

/-- `menus` counts the open menus; `inConfig` tells that properties belong to the
last node. The nodes are kept newest first. -/
structure Parser where
  menus : ℕ
  inConfig : Bool
  nodes : List MenuNode

/-- `_parse_factor`, on one token: `m` is rewritten to `m && MODULES`. -/
def parseFactor : Token → Option Expr
  | .sym s => some (.sym s)
  | .const s => some (if s = "m".toList then .and .m (.sym "MODULES".toList) else .const s)
  | _ => none

def addDep (e : Expr) : List MenuNode → Option (List MenuNode)
  | [] => none
  | node :: nodes => some ({ node with dep := makeAnd node.dep e } :: nodes)

def parseLine (p : Parser) : List Token → Option Parser
  | [] => some p
  | [.keyword .menu, .str _] => some { p with menus := p.menus + 1, inConfig := false }
  | [.keyword .endmenu] =>
    if p.menus = 0 then none else some { p with menus := p.menus - 1, inConfig := false }
  | [.keyword .config, .sym s] => some { p with inConfig := true, nodes := ⟨s, .y⟩ :: p.nodes }
  | [.keyword .bool, .str _] => if p.inConfig then some p else none
  | [.keyword .depends, .keyword .on, t] =>
    if p.inConfig then
      (parseFactor t).bind fun e => (addDep e p.nodes).map fun nodes => { p with nodes := nodes }
    else none
  | [.keyword .default, t] => if p.inConfig && (parseFactor t).isSome then some p else none
  | _ => none

theorem parseLine_depends (menus : ℕ) (node : MenuNode) (nodes : List MenuNode) (t : Token) :
    parseLine ⟨menus, true, node :: nodes⟩ [.keyword .depends, .keyword .on, t] =
      (parseFactor t).map fun e =>
        ⟨menus, true, { node with dep := makeAnd node.dep e } :: nodes⟩ := by
  cases h : parseFactor t with
  | none => simp [parseLine, h]
  | some e => simp [parseLine, h, addDep]

def readLine (p : Parser) (line : Text) : Option Parser := (lexLine line).bind (parseLine p)

/-- The nodes in the order of the file; every menu must be closed. -/
def parseText (text : Text) : Option (List MenuNode) :=
  ((readLines text).foldlM readLine ⟨0, false, []⟩).bind fun p =>
    if p.menus = 0 then some p.nodes.reverse else none

/-! ### Symbols -/

structure Kconfig where
  nodes : List MenuNode
  deriving DecidableEq

def orderedUnique (l : List Text) : List Text := l.reverse.dedup.reverse

def Kconfig.uniqueDefinedSyms (k : Kconfig) : List Text :=
  orderedUnique (k.nodes.map MenuNode.name)

def Kconfig.symNodes (k : Kconfig) (s : Text) : List MenuNode :=
  k.nodes.filter fun node => node.name = s

def Kconfig.directDep (k : Kconfig) (s : Text) : Expr :=
  (k.symNodes s).foldl (fun e node => makeOr e node.dep) .n

def Kconfig.dependsOn (k : Kconfig) (s : Text) : List Text :=
  (k.symNodes s).flatMap fun node => exprSyms node.dep

def Kconfig.dependents (k : Kconfig) (s : Text) : List Text :=
  k.uniqueDefinedSyms.filter fun t => s ∈ k.dependsOn t

/-- A file with a dependency loop is refused. -/
def load (text : Text) : Option Kconfig :=
  (parseText text).bind fun nodes =>
    let k : Kconfig := ⟨nodes⟩
    if Loop.loopFree k.dependents k.uniqueDefinedSyms then some k else none

theorem mem_uniqueDefinedSyms {k : Kconfig} {s : Text} :
    s ∈ k.uniqueDefinedSyms ↔ ∃ node ∈ k.nodes, node.name = s := by
  simp [Kconfig.uniqueDefinedSyms, orderedUnique]

theorem nodup_uniqueDefinedSyms (k : Kconfig) : k.uniqueDefinedSyms.Nodup :=
  List.nodup_reverse.mpr (List.nodup_dedup _)

/-! ### Dependencies of several definitions -/

theorem foldl_makeOr {nodes : List MenuNode} (h : ∀ node ∈ nodes, node.dep ≠ .n) {e : Expr}
    (hn : e ≠ .n) :
    exprItems (nodes.foldl (fun e node => makeOr e node.dep) e) =
      if e = .y ∨ ∃ node ∈ nodes, node.dep = .y then ["y".toList]
      else exprItems e ++ nodes.flatMap fun node => exprItems node.dep := by
  induction nodes generalizing e with
  | nil =>
    by_cases hy : e = .y
    · simp [hy, Expr.y, exprItems]
    · simp [hy]
  | cons node nodes ih =>
    have hrest := fun node hn => h node (List.mem_cons_of_mem _ hn)
    have hdep := h node List.mem_cons_self
    rw [List.foldl_cons]
    by_cases hy : e = .y ∨ node.dep = .y
    · have hor : makeOr e node.dep = .y := by
        rw [makeOr, if_neg hn, if_neg hdep, if_pos hy]
      have hex : e = .y ∨ ∃ node' ∈ node :: nodes, node'.dep = .y :=
        hy.imp_right fun h => ⟨node, List.mem_cons_self, h⟩
      have hyn : Expr.y ≠ Expr.n := by decide
      rw [hor, ih hrest hyn, if_pos (.inl rfl), if_pos hex]
    · have hor : makeOr e node.dep = .or e node.dep := by
        rw [makeOr, if_neg hn, if_neg hdep, if_neg hy]
      have horn : Expr.or e node.dep ≠ Expr.n := nofun
      have hory : Expr.or e node.dep ≠ Expr.y := nofun
      rw [not_or] at hy
      rw [hor, ih hrest horn]
      simp [hy.1, hy.2, hory, exprItems]

theorem exprItems_directDep {k : Kconfig} {s : Text} (hne : k.symNodes s ≠ [])
    (h : ∀ node ∈ k.symNodes s, node.dep ≠ .n) :
    exprItems (k.directDep s) =
      if ∃ node ∈ k.symNodes s, node.dep = .y then ["y".toList]
      else (k.symNodes s).flatMap fun node => exprItems node.dep := by
  unfold Kconfig.directDep
  cases hs : k.symNodes s with
  | nil => exact absurd hs hne
  | cons node nodes =>
    rw [hs] at h
    have hfirst : makeOr .n node.dep = node.dep := by rw [makeOr, if_pos rfl]
    rw [List.foldl_cons, hfirst, foldl_makeOr (fun node hn => h node (List.mem_cons_of_mem _ hn))
      (h node List.mem_cons_self)]
    simp

/-! ### Loops -/

/-- The search for loops finds one exactly when a symbol depends on itself. -/
theorem loopFree_dependents_iff (k : Kconfig) :
    Loop.loopFree k.dependents k.uniqueDefinedSyms ↔
      ∀ s ∈ k.uniqueDefinedSyms, ¬ Relation.TransGen (fun a b => b ∈ k.dependsOn a) s s := by
  have hclosed : ∀ s, k.dependents s ⊆ k.uniqueDefinedSyms :=
    fun s t ht => List.mem_of_mem_filter ht
  rw [Loop.loopFree_iff hclosed]
  have hleads : ∀ a b, Loop.Leads k.dependents a b ↔ a ∈ k.dependsOn b := by
    intro a b
    simp only [Loop.Leads, Kconfig.dependents, List.mem_filter, decide_eq_true_eq,
      mem_uniqueDefinedSyms]
    constructor
    · exact fun h => h.2
    · intro h
      refine ⟨?_, h⟩
      obtain ⟨node, hn, -⟩ := List.mem_flatMap.mp h
      obtain ⟨hmem, hname⟩ := List.mem_filter.mp hn
      exact ⟨node, hmem, by simpa using hname⟩
  have hrel : Loop.Leads k.dependents = Function.swap fun a b => b ∈ k.dependsOn a := by
    funext a b
    exact propext (hleads a b)
  rw [hrel]
  exact forall₂_congr fun s _ => not_congr Relation.transGen_swap

end HaoosLfs.Kconfiglib
