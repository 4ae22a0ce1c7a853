import HaoosLfs.Lib.Memo
import HaoosLfs.Lib.PyInt
import HaoosLfs.Menu.Expr

/-!
# Symbols, choices and how their values are computed (`kconfiglib.py:4140-4330, 4985-5250`)

The cached attributes of a symbol or a choice are the slots of `Memo`, the methods that
compute them are its computations. Warnings are left out.
-/

namespace HaoosLfs.Menu
open Memo

inductive SymbolType where
  | unknown | bool | tristate | string | int | hex
  deriving DecidableEq

/-- After `_finalize_tree`: `prompts` are the conditions of the prompts in `nodes`, and
`auto` marks the symbols with `option env` or `option defconfig_list`. -/
structure Symbol where
  origType : SymbolType
  prompts : List Expr
  defaults : List (Expr × Expr)
  ranges : List (Sym × Sym × Expr)
  revDep : Expr
  weakRevDep : Expr
  directDep : Expr
  choice : Option ℕ
  auto : Bool

structure Choice where
  origType : SymbolType
  isOptional : Bool
  prompts : List Expr
  defaults : List (Text × Expr)
  syms : List Text

/-- `syms` are the `unique_defined_syms`, `choices` the `unique_choices`. -/
structure Kconfig where
  syms : List (Text × Symbol)
  choices : List Choice
  modules : Text

/-- `Symbol()`, for a symbol that is used and not defined. -/
def undefinedSymbol : Symbol := ⟨.unknown, [], [], [], .n, .n, .n, none, false⟩

def noChoice : Choice := ⟨.unknown, false, [], [], []⟩

def Kconfig.symbol (k : Kconfig) (name : Text) : Symbol :=
  (k.syms.lookup name).getD undefinedSymbol

def Kconfig.choice (k : Kconfig) (i : ℕ) : Choice := k.choices.getD i noChoice

def Kconfig.origType (k : Kconfig) : Sym → SymbolType
  | .var name => (k.symbol name).origType
  | .const name => if name ∈ Kconfiglib.triNames then .tristate else .unknown

def typeToBase : SymbolType → ℕ
  | .hex => 16
  | .int => 10
  | _ => 0

/-- `TRI_TO_STR` and `STR_TO_TRI` -/
def triToStr (v : ℕ) : Text := if v = 0 then ['n'] else if v = 1 then ['m'] else ['y']

def strToTri : Text → Option ℕ
  | ['n'] => some 0
  | ['m'] => some 1
  | ['y'] => some 2
  | _ => none

/-! ### User values -/

inductive UserValue where
  | tri (v : ℕ)
  | str (s : Text)
  deriving DecidableEq

/-- The `user_value` of the symbols and the choices, and the `user_selection`. -/
structure Inputs where
  userValue : Text → Option UserValue
  mode : ℕ → Option ℕ
  userSelection : ℕ → Option Text

def Inputs.tri (u : Inputs) (name : Text) : Option ℕ :=
  match u.userValue name with
  | some (.tri v) => some v
  | _ => none

def Inputs.str (u : Inputs) (name : Text) : Option Text :=
  match u.userValue name with
  | some (.str s) => some s
  | _ => none

/-! ### The cached attributes -/

inductive Slot where
  | vis (x : Item)
  | tri (s : Sym)
  | str (s : Sym)
  | assignable (x : Item)
  | selection (i : ℕ)
  deriving DecidableEq

/-- The Boolean is `_write_to_conf`, which is set where the value is computed. -/
@[reducible] def Value : Slot → Type
  | .vis _ => ℕ
  | .tri _ => ℕ × Bool
  | .str _ => Text × Bool
  | .assignable _ => List ℕ
  | .selection _ => Option Text

abbrev Prog := Comp Value

def get (s : Slot) : Prog (Value s) := Comp.get s

def visibility (x : Item) : Prog ℕ := get (.vis x)
def triOf (s : Sym) : Prog ℕ := Prod.fst <$> get (.tri s)
def strOf (s : Sym) : Prog Text := Prod.fst <$> get (.str s)

section

variable (k : Kconfig) (u : Inputs)

def modulesTri : Prog ℕ := triOf (.var k.modules)

/-- `type` of a choice -/
def choiceType (c : Choice) : Prog SymbolType := do
  if c.origType = .tristate then
    let m ← modulesTri k
    pure (if m = 0 then .bool else .tristate)
  else pure c.origType

/-- The mode that is asked for: like a select of the choice with m. -/
def wantedMode (c : Choice) (mode : Option ℕ) : ℕ :=
  let val := if c.isOptional then 0 else 1
  match mode with
  | some v => max val v
  | none => val

def promoteMode (c : Choice) (val : ℕ) : Prog ℕ :=
  if val = 1 then do
    let t ← choiceType k c
    pure (if t = .bool then 2 else val)
  else pure val

def choiceTri (i : ℕ) : Prog ℕ := do
  let vis ← visibility (.choice i)
  promoteMode k (k.choice i) (min (wantedMode (k.choice i) (u.mode i)) vis)

/-- `tri_value` of what stands in an expression -/
def itemTri : Item → Prog ℕ
  | .sym s => triOf s
  | .choice i => choiceTri k u i

/-- `_sym_to_num`, or nothing for a `ValueError` -/
def symToNum (s : Sym) : Prog (Option ℤ) :=
  if k.origType s = .bool ∨ k.origType s = .tristate then do
    let v ← triOf s
    pure (some (v : ℤ))
  else do
    let v ← strOf s
    pure (PyInt.parseInt (typeToBase (k.origType s)) v)

def compare (v1 v2 : Sym) : Prog ℤ := do
  let byText : Prog ℤ := do
    let s1 ← strOf v1
    let s2 ← strOf v2
    pure (strcmp s1 s2)
  if k.origType v1 = .string ∧ k.origType v2 = .string then byText
  else
    match ← symToNum k v1 with
    | none => byText
    | some n1 =>
      match ← symToNum k v2 with
      | none => byText
      | some n2 => pure (n1 - n2)

def exprValue : Expr → Prog ℕ
  | .item x => itemTri k u x
  | .not e => do
    let v ← exprValue e
    pure (2 - v)
  | .and e1 e2 => do
    let v1 ← exprValue e1
    if v1 = 0 then pure 0
    else do
      let v2 ← exprValue e2
      pure (min v1 v2)
  | .or e1 e2 => do
    let v1 ← exprValue e1
    if v1 = 2 then pure 2
    else do
      let v2 ← exprValue e2
      pure (max v1 v2)
  | .rel r v1 v2 => do
    let comp ← compare k v1 v2
    pure (relValue r comp)

/-! ### Visibility -/

/-- The loop over the prompts in `_visibility`. -/
def promptValue : ℕ → List Expr → Prog ℕ
  | vis, [] => pure vis
  | vis, e :: es => do
    let v ← exprValue k u e
    promptValue (max vis v) es

def ownMode (sym : Symbol) : Prog ℕ :=
  match sym.choice with
  | some i => choiceTri k u i
  | none => pure 0

/-- `type` of a symbol -/
def symbolType (sym : Symbol) : Prog SymbolType := do
  if sym.origType = .tristate then
    let mode ← ownMode k u sym
    if mode = 2 then pure .bool
    else do
      let m ← modulesTri k
      pure (if m = 0 then .bool else .tristate)
  else pure sym.origType

/-- The end of `_visibility`: m is promoted to y for what is not a tristate. -/
def promote (vis : ℕ) (type : Prog SymbolType) : Prog ℕ := do
  if vis = 1 then
    let t ← type
    pure (if t = .tristate then 1 else 2)
  else pure vis

/-- A choice hides its symbols: those that are no tristates outside y mode, and those
with m visibility in y mode. -/
def hidden (sym : Symbol) (vis : ℕ) : Prog Bool :=
  match sym.choice with
  | none => pure false
  | some i =>
    if sym.origType ≠ .tristate then
      if (k.choice i).origType = .tristate then do
        let mode ← choiceTri k u i
        pure (decide (mode ≠ 2))
      else pure false
    else if vis = 1 then do
      let mode ← choiceTri k u i
      pure (decide (mode = 2))
    else pure false

def symbolVisibility (sym : Symbol) : Prog ℕ := do
  let vis ← promptValue k u 0 sym.prompts
  let hide ← hidden k u sym vis
  if hide then pure 0 else promote vis (symbolType k u sym)

def choiceVisibility (c : Choice) : Prog ℕ := do
  let vis ← promptValue k u 0 c.prompts
  promote vis (choiceType k c)

/-! ### Values -/

/-- The first default whose condition holds, with the value of the condition. -/
def activeDefault : List (Expr × Expr) → Prog (Option (Expr × ℕ))
  | [] => pure none
  | (e, cond) :: rest => do
    let c ← exprValue k u cond
    if c ≠ 0 then pure (some (e, c)) else activeDefault rest

/-- The value of a default of a string, an int or a hex, which is a single symbol:
`_check_sym_sanity` refuses others. -/
def defaultStr (defaults : List (Expr × Expr)) : Prog (Option Text) := do
  match ← activeDefault k u defaults with
  | some (.item (.sym s), _) => do
    let v ← strOf s
    pure (some v)
  | _ => pure none

def activeRange (base : ℕ) : List (Sym × Sym × Expr) → Prog (Option (ℤ × ℤ))
  | [] => pure none
  | (low, high, cond) :: rest => do
    let c ← exprValue k u cond
    if c ≠ 0 then do
      let l ← strOf low
      let h ← strOf high
      pure (some ((PyInt.parseInt base l).getD 0, (PyInt.parseInt base h).getD 0))
    else activeRange base rest

def inRange (range : Option (ℤ × ℤ)) (v : ℤ) : Bool :=
  match range with
  | some (low, high) => low ≤ v ∧ v ≤ high
  | none => true

def numToStr (type : SymbolType) (v : ℤ) : Text :=
  if type = .int then PyInt.str v else PyInt.hex v

/-- A default is rewritten when it is outside the range. -/
def clamp (type : SymbolType) (range : Option (ℤ × ℤ)) (val : Text) : Text :=
  let v := (PyInt.parseInt (typeToBase type) val).getD 0
  match range with
  | some (low, high) =>
    if v < low then numToStr type low
    else if v > high then numToStr type high
    else val
  | none => val

/-- A user value that is used: the symbol is visible and the value in range. -/
def userNumber (type : SymbolType) (vis : ℕ) (range : Option (ℤ × ℤ)) (user : Option Text) :
    Option Text :=
  match user with
  | some val =>
    if vis ≠ 0 ∧ val ≠ [] ∧ inRange range ((PyInt.parseInt (typeToBase type) val).getD 0) then
      some val
    else none
  | none => none

def numberDefault (sym : Symbol) (vis : ℕ) (range : Option (ℤ × ℤ)) : Prog (Text × Bool) := do
  let d ← defaultStr k u sym.defaults
  pure (clamp sym.origType range (d.getD []), vis ≠ 0 || d.isSome)

def numberValue (name : Text) (sym : Symbol) : Prog (Text × Bool) := do
  let vis ← visibility (.sym (.var name))
  let range ← activeRange k u (typeToBase sym.origType) sym.ranges
  match userNumber sym.origType vis range (u.str name) with
  | some val => pure (val, vis ≠ 0)
  | none => numberDefault k u sym vis range

def stringValue (name : Text) (sym : Symbol) : Prog (Text × Bool) := do
  let vis ← visibility (.sym (.var name))
  if (u.str name).isSome ∧ vis ≠ 0 then pure ((u.str name).getD [], true)
  else do
    let d ← defaultStr k u sym.defaults
    pure (d.getD [], vis ≠ 0 || d.isSome)

def strValue : Sym → Prog (Text × Bool)
  | .const name =>
    if name ∈ Kconfiglib.triNames then do
      let v ← get (.tri (.const name))
      pure (triToStr v.1, v.2)
    else pure (name, false)
  | .var name =>
    let sym := k.symbol name
    match sym.origType with
    | .bool | .tristate => do
      let v ← get (.tri (.var name))
      pure (triToStr v.1, v.2)
    | .unknown => pure (name, false)
    | .string => do
      let v ← stringValue k u name sym
      pure (v.1, v.2 && !sym.auto)
    | .int | .hex => do
      let v ← numberValue k u name sym
      pure (v.1, v.2 && !sym.auto)

/-- A bool, or a tristate that is implied with y, cannot be m. -/
def notM (sym : Symbol) : Prog Bool := do
  let t ← symbolType k u sym
  if t = .bool then pure true
  else do
    let weak ← exprValue k u sym.weakRevDep
    pure (decide (weak = 2))

/-- The value from the defaults, with the visibility `vis`. -/
def defaultTri (sym : Symbol) (vis : ℕ) : Prog (ℕ × Bool) := do
  match ← activeDefault k u sym.defaults with
  | some (e, c) => do
    let v ← exprValue k u e
    pure (min v c, vis ≠ 0 || min v c ≠ 0)
  | none => pure (0, vis ≠ 0)

/-- Implies count where the direct dependencies are met. -/
def withWeak (sym : Symbol) (r : ℕ × Bool) : Prog (ℕ × Bool) := do
  let weak ← exprValue k u sym.weakRevDep
  if weak = 0 then pure r
  else do
    let dep ← exprValue k u sym.directDep
    pure (if dep ≠ 0 then (max weak r.1, true) else r)

/-- The user value of a visible symbol, or what it gets without one. -/
def ownTri (name : Text) (sym : Symbol) (vis : ℕ) : Prog (ℕ × Bool) :=
  if (u.tri name).isSome ∧ vis ≠ 0 then pure (min ((u.tri name).getD 0) vis, true)
  else do
    let r ← defaultTri k u sym vis
    withWeak k u sym r

/-- Selects take precedence; that the direct dependencies are below is only a warning. -/
def withRev (sym : Symbol) (r : ℕ × Bool) : Prog (ℕ × Bool) := do
  let rev ← exprValue k u sym.revDep
  if rev = 0 then pure r
  else do
    let _ ← exprValue k u sym.directDep
    pure (max rev r.1, true)

def promoteTri (sym : Symbol) (r : ℕ × Bool) : Prog (ℕ × Bool) :=
  if r.1 = 1 then do
    let noM ← notM k u sym
    pure (if noM then 2 else 1, r.2)
  else pure r

def plainTri (name : Text) (sym : Symbol) : Prog (ℕ × Bool) := do
  let vis ← visibility (.sym (.var name))
  let own ← ownTri k u name sym vis
  let r ← withRev k u sym own
  promoteTri k u sym r

def choiceSymbolTri (name : Text) (i : ℕ) : Prog (ℕ × Bool) := do
  let vis ← visibility (.sym (.var name))
  if vis = 2 then do
    let sel ← get (.selection i)
    pure (if sel = some name then 2 else 0, true)
  else pure (if vis ≠ 0 ∧ (u.tri name).getD 0 ≠ 0 then 1 else 0, vis ≠ 0)

def triValue (s : Sym) : Prog (ℕ × Bool) :=
  match s with
  | .const name => pure ((strToTri name).getD 0, false)
  | .var name =>
    let sym := k.symbol name
    if sym.origType = .bool ∨ sym.origType = .tristate then
      match sym.choice with
      | none => plainTri k u name sym
      | some i => choiceSymbolTri u name i
    else pure (0, false)

/-! ### Selections and what can be assigned -/

def firstVisible : List Text → Prog (Option Text)
  | [] => pure none
  | name :: rest => do
    let vis ← visibility (.sym (.var name))
    if vis ≠ 0 then pure (some name) else firstVisible rest

def selectionFromDefaults (syms : List Text) : List (Text × Expr) → Prog (Option Text)
  | [] => firstVisible syms
  | (name, cond) :: rest => do
    let c ← exprValue k u cond
    if c = 0 then selectionFromDefaults syms rest
    else do
      let vis ← visibility (.sym (.var name))
      if vis ≠ 0 then pure (some name) else selectionFromDefaults syms rest

def selection (i : ℕ) : Prog (Option Text) := do
  let mode ← choiceTri k u i
  if mode ≠ 2 then pure none
  else
    let c := k.choice i
    match u.userSelection i with
    | some name => do
      let vis ← visibility (.sym (.var name))
      if vis ≠ 0 then pure (some name) else selectionFromDefaults k u c.syms c.defaults
    | none => selectionFromDefaults k u c.syms c.defaults

/-- With y and with m visibility, for a symbol that is selected with `rev`. -/
def assignableY (sym : Symbol) (rev : ℕ) : Prog (List ℕ) :=
  if sym.choice.isSome ∨ rev = 2 then pure [2]
  else do
    let noM ← notM k u sym
    pure (match rev, noM with
      | 0, true => [0, 2]
      | 0, false => [0, 1, 2]
      | _, true => [2]
      | _, false => [1, 2])

def assignableM (sym : Symbol) (rev : ℕ) : Prog (List ℕ) :=
  if rev = 0 then do
    let weak ← exprValue k u sym.weakRevDep
    pure (if weak ≠ 2 then [0, 1] else [0, 2])
  else pure (if rev = 2 then [2] else [1])

def symbolAssignable (s : Sym) : Prog (List ℕ) :=
  match s with
  | .const _ => pure []
  | .var name =>
    let sym := k.symbol name
    if sym.origType = .bool ∨ sym.origType = .tristate then do
      let vis ← visibility (.sym s)
      if vis = 0 then pure []
      else do
        let rev ← exprValue k u sym.revDep
        if vis = 2 then assignableY k u sym rev else assignableM k u sym rev
    else pure []

def choiceAssignable (i : ℕ) : Prog (List ℕ) := do
  let c := k.choice i
  let vis ← visibility (.choice i)
  if vis = 0 then pure []
  else if vis = 2 then do
    let t ← choiceType k c
    pure (if c.isOptional then (if t = .bool then [0, 2] else [0, 1, 2])
      else (if t = .bool then [2] else [1, 2]))
  else pure (if c.isOptional then [0, 1] else [1])

def compute : (s : Slot) → Prog (Value s)
  | .vis (.sym (.const _)) => pure 0
  | .vis (.sym (.var name)) => symbolVisibility k u (k.symbol name)
  | .vis (.choice i) => choiceVisibility k u (k.choice i)
  | .tri s => triValue k u s
  | .str s => strValue k u s
  | .assignable (.sym s) => symbolAssignable k u s
  | .assignable (.choice i) => choiceAssignable k i
  | .selection i => selection k u i

end

end HaoosLfs.Menu
