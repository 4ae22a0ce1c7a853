import HaoosLfs.Kconfiglib.Load

/-!
# Expressions (`kconfiglib.py`)

All expressions that `_parse_expr` makes, with the symbols and choices in them.
-/

namespace HaoosLfs.Menu

/-- A symbol is known by its name; a quoted one, and `n`, `m` and `y`, is constant. -/
inductive Sym where
  | var (name : Text)
  | const (name : Text)
  deriving DecidableEq

/-- Choices are numbered in the order of `unique_choices`. -/
inductive Item where
  | sym (s : Sym)
  | choice (i : ℕ)
  deriving DecidableEq

inductive Rel where
  | equal | unequal | less | lessEqual | greater | greaterEqual
  deriving DecidableEq

inductive Expr where
  | item (x : Item)
  | not (e : Expr)
  | and (e1 e2 : Expr)
  | or (e1 e2 : Expr)
  | rel (r : Rel) (v1 v2 : Sym)
  deriving DecidableEq

namespace Expr

def sym (name : Text) : Expr := .item (.sym (.var name))
def const (name : Text) : Expr := .item (.sym (.const name))
def y : Expr := const "y".toList
def n : Expr := const "n".toList
def m : Expr := const "m".toList

end Expr

def makeAnd (e1 e2 : Expr) : Expr :=
  if e1 = .y then e2
  else if e2 = .y then e1
  else if e1 = .n ∨ e2 = .n then .n
  else .and e1 e2

def makeOr (e1 e2 : Expr) : Expr :=
  if e1 = .n then e2
  else if e2 = .n then e1
  else if e1 = .y ∨ e2 = .y then .y
  else .or e1 e2

def exprItems : Expr → List Item
  | .item x => [x]
  | .not e => exprItems e
  | .and e1 e2 | .or e1 e2 => exprItems e1 ++ exprItems e2
  | .rel _ v1 v2 => [.sym v1, .sym v2]

/-- `split_expr(expr, AND)` -/
def splitAnd : Expr → List Expr
  | .and e1 e2 => splitAnd e1 ++ splitAnd e2
  | e => [e]

/-! ### Values -/

/-- `_strcmp` compares code points. -/
def strcmp (s1 s2 : Text) : ℤ := if s1 < s2 then -1 else if s2 < s1 then 1 else 0

/-- The value of a relation whose operands compare like `comp` and 0. -/
def relValue (r : Rel) (comp : ℤ) : ℕ :=
  match r with
  | .equal => if comp = 0 then 2 else 0
  | .unequal => if comp ≠ 0 then 2 else 0
  | .less => if comp < 0 then 2 else 0
  | .lessEqual => if comp ≤ 0 then 2 else 0
  | .greater => if comp > 0 then 2 else 0
  | .greaterEqual => if comp ≥ 0 then 2 else 0

def valueOf (item : Item → ℕ) (rel : Rel → Sym → Sym → ℕ) : Expr → ℕ
  | .item x => item x
  | .not e => 2 - valueOf item rel e
  | .and e1 e2 => min (valueOf item rel e1) (valueOf item rel e2)
  | .or e1 e2 => max (valueOf item rel e1) (valueOf item rel e2)
  | .rel r v1 v2 => rel r v1 v2

theorem relValue_le (r : Rel) (comp : ℤ) : relValue r comp ≤ 2 := by
  cases r <;> simp only [relValue] <;> split_ifs <;> omega

section

variable {item : Item → ℕ} {rel : Rel → Sym → Sym → ℕ}

theorem valueOf_le (hitem : ∀ x, item x ≤ 2) (hrel : ∀ r v1 v2, rel r v1 v2 ≤ 2) (e : Expr) :
    valueOf item rel e ≤ 2 := by
  induction e with
  | item x => exact hitem x
  | not e ih =>
    rw [valueOf]
    omega
  | and e1 e2 ih1 ih2 =>
    rw [valueOf]
    omega
  | or e1 e2 ih1 ih2 =>
    rw [valueOf]
    omega
  | rel r v1 v2 => exact hrel r v1 v2

/-- The values of the constants, and the bounds that the simplifications rely on. -/
structure Tristate (item : Item → ℕ) (rel : Rel → Sym → Sym → ℕ) : Prop where
  item_le : ∀ x, item x ≤ 2
  rel_le : ∀ r v1 v2, rel r v1 v2 ≤ 2
  y : valueOf item rel .y = 2
  n : valueOf item rel .n = 0

theorem Tristate.le (h : Tristate item rel) (e : Expr) : valueOf item rel e ≤ 2 :=
  valueOf_le h.item_le h.rel_le e

theorem Tristate.makeAnd (h : Tristate item rel) (e1 e2 : Expr) :
    valueOf item rel (makeAnd e1 e2) = min (valueOf item rel e1) (valueOf item rel e2) := by
  have h1 := h.le e1
  have h2 := h.le e2
  have hy := h.y
  have hn := h.n
  unfold Menu.makeAnd
  split_ifs with hy1 hy2 hn12
  · rw [hy1, hy]
    omega
  · rw [hy2, hy]
    omega
  · rcases hn12 with hn1 | hn2
    · rw [hn1, hn]
      omega
    · rw [hn2, hn]
      omega
  · rfl

theorem Tristate.makeOr (h : Tristate item rel) (e1 e2 : Expr) :
    valueOf item rel (makeOr e1 e2) = max (valueOf item rel e1) (valueOf item rel e2) := by
  have h1 := h.le e1
  have h2 := h.le e2
  have hy := h.y
  have hn := h.n
  unfold Menu.makeOr
  split_ifs with hn1 hn2 hy12
  · rw [hn1, hn]
    omega
  · rw [hn2, hn]
    omega
  · rcases hy12 with hy1 | hy2
    · rw [hy1, hy]
      omega
    · rw [hy2, hy]
      omega
  · rfl

end

end HaoosLfs.Menu
