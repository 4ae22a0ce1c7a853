import HaoosLfs.Kconfiglib.Token
import HaoosLfs.Menu.ConfigFile

/-!
# Parsing expressions (`kconfiglib.py:1844-1874, 2266-2400, 2593-2624, 3251-3340`)

A condition, or the argument of `eval_string`: `_tokenize` takes the text apart, and
`_parse_expr` reads the tokens from the left. A text with a dollar may call macros and is
refused here.
-/

namespace HaoosLfs.Menu

inductive ExprToken where
  | sym (s : Sym)
  | rel (r : Rel)
  | not | and | or | openParen | closeParen
  deriving DecidableEq

/-! ### Tokens -/

/-- `_expand_str`, after the opening quote: the string and what follows it. -/
def readString (quote : Char) : Text → Option (Text × Text)
  | [] => none
  | [c] => if c = quote then some ([], []) else none
  | c :: d :: s =>
    if c = quote then some ([], d :: s)
    else if c = '\\' then (readString quote s).map fun r => (d :: r.1, r.2)
    else (readString quote (d :: s)).map fun r => (c :: r.1, r.2)

def operator : Text → Option (ExprToken × Text)
  | '&' :: '&' :: s => some (.and, s)
  | '|' :: '|' :: s => some (.or, s)
  | '=' :: s => some (.rel .equal, s)
  | '!' :: '=' :: s => some (.rel .unequal, s)
  | '!' :: s => some (.not, s)
  | '(' :: s => some (.openParen, s)
  | ')' :: s => some (.closeParen, s)
  | '<' :: '=' :: s => some (.rel .lessEqual, s)
  | '<' :: s => some (.rel .less, s)
  | '>' :: '=' :: s => some (.rel .greaterEqual, s)
  | '>' :: s => some (.rel .greater, s)
  | _ => none

def wordSym (word : Text) : Sym := if word ∈ Kconfiglib.triNames then .const word else .var word

/-- A keyword is never part of an expression: `_parse_expr` refuses it wherever it stands. -/
def lexExpr : ℕ → Text → Option (List ExprToken)
  | _, [] => some []
  | 0, _ :: _ => none
  | fuel + 1, c :: s =>
    if Kconfiglib.symChar c then
      let word := c :: s.takeWhile Kconfiglib.symChar
      if (Kconfiglib.getKeyword word).isSome then none
      else
        (lexExpr fuel ((s.dropWhile Kconfiglib.symChar).dropWhile Text.isSpace)).map fun ts =>
          .sym (wordSym word) :: ts
    else if c = '"' ∨ c = '\'' then
      (readString c s).bind fun r =>
        (lexExpr fuel (r.2.dropWhile PyInt.isSpace)).map fun ts => .sym (.const r.1) :: ts
    else if c = '#' then some []
    else
      (operator (c :: s)).bind fun r =>
        (lexExpr fuel (r.2.dropWhile PyInt.isSpace)).map fun ts => r.1 :: ts

/-- For texts without `$`, which `_tokenize` expands first. -/
def tokenize (s : Text) : Option (List ExprToken) :=
  if '$' ∈ s then none else lexExpr s.length (s.dropWhile Text.isSpace)

/-! ### Expressions -/

section

variable (transformM : Bool) (modules : Text)

/-- `m` is rewritten to `m && MODULES`. -/
def plainSym (s : Sym) : Expr :=
  if transformM ∧ s = .const "m".toList then .and .m (.sym modules) else .item (.sym s)

mutual

def parseExpr : ℕ → List ExprToken → Option (Expr × List ExprToken)
  | 0, _ => none
  | fuel + 1, ts =>
    (parseAndExpr fuel ts).bind fun r =>
      match r.2 with
      | .or :: rest => (parseExpr fuel rest).map fun r' => (.or r.1 r'.1, r'.2)
      | _ => some r

def parseAndExpr : ℕ → List ExprToken → Option (Expr × List ExprToken)
  | 0, _ => none
  | fuel + 1, ts =>
    (parseFactor fuel ts).bind fun r =>
      match r.2 with
      | .and :: rest => (parseAndExpr fuel rest).map fun r' => (.and r.1 r'.1, r'.2)
      | _ => some r

def parseFactor : ℕ → List ExprToken → Option (Expr × List ExprToken)
  | 0, _ => none
  | fuel + 1, ts =>
    match ts with
    | .sym s :: .rel r :: .sym v :: rest => some (.rel r s v, rest)
    | .sym _ :: .rel _ :: _ => none
    | .sym s :: rest => some (plainSym transformM modules s, rest)
    | .not :: rest => (parseFactor fuel rest).map fun r => (.not r.1, r.2)
    | .openParen :: rest =>
      (parseExpr fuel rest).bind fun r =>
        match r.2 with
        | .closeParen :: rest' => some (r.1, rest')
        | _ => none
    | _ => none

end

/-- `_expect_expr_and_eol`; each token takes at most three calls. -/
def parseTokens (ts : List ExprToken) : Option Expr :=
  (parseExpr transformM modules (3 * ts.length + 1) ts).bind fun r =>
    if r.2 = [] then some r.1 else none

end

/-- The condition that `s` is, as `eval_string` reads it. -/
def parseString (modules : Text) (s : Text) : Option Expr :=
  (tokenize s).bind (parseTokens true modules)

example : parseString "MODULES".toList "A && !B || C = \"x y\"".toList =
    some (.or (.and (.sym "A".toList) (.not (.sym "B".toList)))
      (.rel .equal (.var "C".toList) (.const "x y".toList))) := by
  decide +kernel

end HaoosLfs.Menu
