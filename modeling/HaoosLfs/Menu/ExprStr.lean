import HaoosLfs.Menu.ParseExpr

/-!
# Printing expressions (`kconfiglib.py:5843-5912, 6142-6147`)

`expr_str` puts parentheses around the operands where `&&` and `||` meet. What it prints
for an expression that was parsed is parsed again, as an expression that has the same
symbols and the same value.
-/

namespace HaoosLfs.Menu

def relStr : Rel → Text
  | .equal => "=".toList
  | .unequal => "!=".toList
  | .less => "<".toList
  | .lessEqual => "<=".toList
  | .greater => ">".toList
  | .greaterEqual => ">=".toList

def symStr : Sym → Text
  | .var name => name
  | .const name => if name ∈ Kconfiglib.triNames then name else '"' :: (escape name ++ ['"'])

/-- `standard_sc_expr_str`; names of choices are left out. -/
def itemStr : Item → Text
  | .sym s => symStr s
  | .choice _ => "<choice>".toList

def Expr.isItem : Expr → Bool
  | .item _ => true
  | _ => false

def Expr.isAnd : Expr → Bool
  | .and _ _ => true
  | _ => false

def Expr.isOr : Expr → Bool
  | .or _ _ => true
  | _ => false

def parenthesize (b : Bool) (s : Text) : Text := if b then '(' :: (s ++ [')']) else s

def exprStr : Expr → Text
  | .item x => itemStr x
  | .not e => '!' :: parenthesize (!e.isItem) (exprStr e)
  | .and e1 e2 =>
    parenthesize e1.isOr (exprStr e1) ++ (" && ".toList ++ parenthesize e2.isOr (exprStr e2))
  | .or e1 e2 =>
    parenthesize e1.isAnd (exprStr e1) ++ (" || ".toList ++ parenthesize e2.isAnd (exprStr e2))
  | .rel r v1 v2 => symStr v1 ++ (' ' :: (relStr r ++ ' ' :: symStr v2))

/-! ### The tokens of what is printed -/

def inParens (b : Bool) (ts : List ExprToken) : List ExprToken :=
  if b then .openParen :: (ts ++ [.closeParen]) else ts

def itemToken : Item → List ExprToken
  | .sym s => [.sym s]
  | .choice _ => []

def exprTokens : Expr → List ExprToken
  | .item x => itemToken x
  | .not e => .not :: inParens (!e.isItem) (exprTokens e)
  | .and e1 e2 => inParens e1.isOr (exprTokens e1) ++ .and :: inParens e2.isOr (exprTokens e2)
  | .or e1 e2 => inParens e1.isAnd (exprTokens e1) ++ .or :: inParens e2.isAnd (exprTokens e2)
  | .rel r v1 v2 => [.sym v1, .rel r, .sym v2]

def andAppend : Expr → Expr → Expr
  | .and e1 e2, e => .and e1 (andAppend e2 e)
  | e1, e => .and e1 e

def orAppend : Expr → Expr → Expr
  | .or e1 e2, e => .or e1 (orAppend e2 e)
  | e1, e => .or e1 e

def regroup : Expr → Expr
  | .item x => .item x
  | .not e => .not (regroup e)
  | .and e1 e2 => andAppend (regroup e1) (regroup e2)
  | .or e1 e2 => orAppend (regroup e1) (regroup e2)
  | .rel r v1 v2 => .rel r v1 v2

theorem andAppend_of_not_and {e1 : Expr} (h : e1.isAnd = false) (e : Expr) :
    andAppend e1 e = .and e1 e := by
  cases e1 with
  | and e2 e3 => cases h
  | item x => rfl
  | not e2 => rfl
  | or e2 e3 => rfl
  | rel r v1 v2 => rfl

theorem orAppend_of_not_or {e1 : Expr} (h : e1.isOr = false) (e : Expr) :
    orAppend e1 e = .or e1 e := by
  cases e1 with
  | or e2 e3 => cases h
  | item x => rfl
  | not e2 => rfl
  | and e2 e3 => rfl
  | rel r v1 v2 => rfl

theorem andAppend_assoc (e1 e2 e3 : Expr) :
    andAppend (andAppend e1 e2) e3 = andAppend e1 (andAppend e2 e3) := by
  induction e1 with
  | and e4 e5 ih4 ih5 => rw [andAppend, andAppend, andAppend, ih5]
  | item x => rfl
  | not e ih => rfl
  | or e4 e5 ih4 ih5 => rfl
  | rel r v1 v2 => rfl

theorem orAppend_assoc (e1 e2 e3 : Expr) :
    orAppend (orAppend e1 e2) e3 = orAppend e1 (orAppend e2 e3) := by
  induction e1 with
  | or e4 e5 ih4 ih5 => rw [orAppend, orAppend, orAppend, ih5]
  | item x => rfl
  | not e ih => rfl
  | and e4 e5 ih4 ih5 => rfl
  | rel r v1 v2 => rfl

theorem isOr_andAppend (e1 e2 : Expr) : (andAppend e1 e2).isOr = false := by
  cases e1 <;> rfl

theorem isAnd_orAppend (e1 e2 : Expr) : (orAppend e1 e2).isAnd = false := by
  cases e1 <;> rfl

/-! ### Parsing the tokens -/

/-- `p` reads an expression from the front of `ts`, with the fuel that the tokens give. -/
def Parses (p : ℕ → List ExprToken → Option (Expr × List ExprToken)) (k : ℕ)
    (ts : List ExprToken) (e : Expr) (rest : List ExprToken) : Prop :=
  rest.length < ts.length ∧
    ∀ fuel, 3 * ts.length ≤ fuel + 3 * rest.length + k → p fuel ts = some (e, rest)

section

variable {modules : Text} {ts ts' rest : List ExprToken} {e e' : Expr}

theorem Parses.sym {s : Sym} (h : ∀ r, rest.head? ≠ some (.rel r)) :
    Parses (parseFactor false modules) 2 (.sym s :: rest) (.item (.sym s)) rest := by
  refine ⟨by simp, fun fuel hfuel => ?_⟩
  obtain ⟨fuel, rfl⟩ : ∃ n, fuel = n + 1 := ⟨fuel - 1, by rw [List.length_cons] at hfuel; omega⟩
  unfold parseFactor
  cases rest with
  | nil => rfl
  | cons t rest =>
    cases t with
    | rel r => exact absurd rfl (h r)
    | sym s' => rfl
    | not => rfl
    | and => rfl
    | or => rfl
    | openParen => rfl
    | closeParen => rfl

theorem Parses.rel (r : Rel) (v1 v2 : Sym) (rest : List ExprToken) :
    Parses (parseFactor false modules) 2 (.sym v1 :: .rel r :: .sym v2 :: rest) (.rel r v1 v2)
      rest := by
  refine ⟨by simp only [List.length_cons]; omega, fun fuel hfuel => ?_⟩
  obtain ⟨fuel, rfl⟩ : ∃ n, fuel = n + 1 :=
    ⟨fuel - 1, by simp only [List.length_cons] at hfuel; omega⟩
  rfl

theorem Parses.not (h : Parses (parseFactor false modules) 2 ts e rest) :
    Parses (parseFactor false modules) 2 (.not :: ts) (.not e) rest := by
  obtain ⟨hlen, hp⟩ := h
  refine ⟨by rw [List.length_cons]; omega, fun fuel hfuel => ?_⟩
  rw [List.length_cons] at hfuel
  obtain ⟨fuel, rfl⟩ : ∃ n, fuel = n + 1 := ⟨fuel - 1, by omega⟩
  rw [parseFactor, hp fuel (by omega)]
  rfl

theorem Parses.paren (h : Parses (parseExpr false modules) 0 ts e (.closeParen :: rest)) :
    Parses (parseFactor false modules) 2 (.openParen :: ts) e rest := by
  obtain ⟨hlen, hp⟩ := h
  rw [List.length_cons] at hlen hp
  refine ⟨by rw [List.length_cons]; omega, fun fuel hfuel => ?_⟩
  rw [List.length_cons] at hfuel
  obtain ⟨fuel, rfl⟩ : ∃ n, fuel = n + 1 := ⟨fuel - 1, by omega⟩
  rw [parseFactor, hp fuel (by omega)]
  rfl

theorem Parses.factor (h : Parses (parseFactor false modules) 2 ts e rest)
    (hr : rest.head? ≠ some .and) : Parses (parseAndExpr false modules) 1 ts e rest := by
  obtain ⟨hlen, hp⟩ := h
  refine ⟨hlen, fun fuel hfuel => ?_⟩
  obtain ⟨fuel, rfl⟩ : ∃ n, fuel = n + 1 := ⟨fuel - 1, by omega⟩
  rw [parseAndExpr, hp fuel (by omega), Option.bind_some]
  split
  · rename_i rest' heq
    exact absurd (congrArg List.head? heq) hr
  · rfl

theorem Parses.and (h : Parses (parseFactor false modules) 2 ts e (.and :: ts'))
    (h' : Parses (parseAndExpr false modules) 1 ts' e' rest) :
    Parses (parseAndExpr false modules) 1 ts (.and e e') rest := by
  obtain ⟨hlen, hp⟩ := h
  obtain ⟨hlen', hp'⟩ := h'
  rw [List.length_cons] at hlen hp
  refine ⟨by omega, fun fuel hfuel => ?_⟩
  obtain ⟨fuel, rfl⟩ : ∃ n, fuel = n + 1 := ⟨fuel - 1, by omega⟩
  rw [parseAndExpr, hp fuel (by omega), Option.bind_some]
  dsimp only
  rw [hp' fuel (by omega)]
  rfl

theorem Parses.andExpr (h : Parses (parseAndExpr false modules) 1 ts e rest)
    (hr : rest.head? ≠ some .or) : Parses (parseExpr false modules) 0 ts e rest := by
  obtain ⟨hlen, hp⟩ := h
  refine ⟨hlen, fun fuel hfuel => ?_⟩
  obtain ⟨fuel, rfl⟩ : ∃ n, fuel = n + 1 := ⟨fuel - 1, by omega⟩
  rw [parseExpr, hp fuel (by omega), Option.bind_some]
  split
  · rename_i rest' heq
    exact absurd (congrArg List.head? heq) hr
  · rfl

theorem Parses.or (h : Parses (parseAndExpr false modules) 1 ts e (.or :: ts'))
    (h' : Parses (parseExpr false modules) 0 ts' e' rest) :
    Parses (parseExpr false modules) 0 ts (.or e e') rest := by
  obtain ⟨hlen, hp⟩ := h
  obtain ⟨hlen', hp'⟩ := h'
  rw [List.length_cons] at hlen hp
  refine ⟨by omega, fun fuel hfuel => ?_⟩
  obtain ⟨fuel, rfl⟩ : ∃ n, fuel = n + 1 := ⟨fuel - 1, by omega⟩
  rw [parseExpr, hp fuel (by omega), Option.bind_some]
  dsimp only
  rw [hp' fuel (by omega)]
  rfl

def Ends (rest : List ExprToken) : Prop := rest.head? = none ∨ rest.head? = some .closeParen

theorem Ends.ne {t : ExprToken} (h : Ends rest) (ht : t ≠ .closeParen) : rest.head? ≠ some t := by
  intro heq
  rcases h with h | h
  · rw [h] at heq
    cases heq
  · rw [h] at heq
    exact ht (Option.some.inj heq).symm

/-- How the tokens of `e` are read where they stand: as a whole, as an operand of `||` or of
`&&` (the last one or not) and after `!`. -/
structure ReadBack (modules : Text) (e : Expr) : Prop where
  whole : ∀ rest, Ends rest →
    Parses (parseExpr false modules) 0 (exprTokens e ++ rest) (regroup e) rest
  orLast : ∀ rest, Ends rest →
    Parses (parseExpr false modules) 0 (inParens e.isAnd (exprTokens e) ++ rest) (regroup e) rest
  orMore : ∀ ts e' rest, Parses (parseExpr false modules) 0 ts e' rest →
    Parses (parseExpr false modules) 0 (inParens e.isAnd (exprTokens e) ++ .or :: ts)
      (orAppend (regroup e) e') rest
  andLast : ∀ rest, Ends rest ∨ rest.head? = some .or →
    Parses (parseAndExpr false modules) 1 (inParens e.isOr (exprTokens e) ++ rest) (regroup e) rest
  andMore : ∀ ts e' rest, Parses (parseAndExpr false modules) 1 ts e' rest →
    Parses (parseAndExpr false modules) 1 (inParens e.isOr (exprTokens e) ++ .and :: ts)
      (andAppend (regroup e) e') rest
  operand : ∀ rest, Ends rest ∨ rest.head? = some .or ∨ rest.head? = some .and →
    Parses (parseFactor false modules) 2 (inParens (!e.isItem) (exprTokens e) ++ rest)
      (regroup e) rest

theorem inParens_append (ts rest : List ExprToken) :
    inParens true ts ++ rest = .openParen :: (ts ++ .closeParen :: rest) := by
  simp [inParens]

theorem ends_closeParen (rest : List ExprToken) : Ends (.closeParen :: rest) := .inr rfl

theorem readBack_factor {e : Expr} (hand : e.isAnd = false) (hor : e.isOr = false)
    (hrand : (regroup e).isAnd = false) (hror : (regroup e).isOr = false)
    (h : ∀ rest, Ends rest ∨ rest.head? = some .or ∨ rest.head? = some .and →
      Parses (parseFactor false modules) 2 (exprTokens e ++ rest) (regroup e) rest) :
    ReadBack modules e := by
  have hand' : ∀ rest, Ends rest ∨ rest.head? = some .or →
      Parses (parseAndExpr false modules) 1 (exprTokens e ++ rest) (regroup e) rest := by
    intro rest hr
    refine (h rest (hr.imp_right .inl)).factor fun heq => ?_
    rcases hr with hr | hr
    · exact hr.ne (t := .and) (by decide) heq
    · rw [hr] at heq
      cases heq
  have hwhole : ∀ rest, Ends rest →
      Parses (parseExpr false modules) 0 (exprTokens e ++ rest) (regroup e) rest :=
    fun rest hr => (hand' rest (.inl hr)).andExpr (hr.ne (by decide))
  refine ⟨hwhole, ?_, ?_, ?_, ?_, fun rest hr => ?_⟩
  · rw [hand]
    exact hwhole
  · rw [hand]
    intro ts e' rest he'
    rw [orAppend_of_not_or hror]
    exact (hand' _ (.inr rfl)).or he'
  · rw [hor]
    exact hand'
  · rw [hor]
    intro ts e' rest he'
    rw [andAppend_of_not_and hrand]
    exact (h _ (.inr (.inr rfl))).and he'
  · cases hitem : e.isItem with
    | true => exact h rest hr
    | false =>
      rw [Bool.not_false, inParens_append]
      exact (hwhole _ (ends_closeParen rest)).paren

theorem readBack {e : Expr} (he : ∀ x ∈ exprItems e, ∃ s, x = .sym s) : ReadBack modules e := by
  induction e with
  | item x =>
    obtain ⟨s, rfl⟩ := he x List.mem_cons_self
    refine readBack_factor rfl rfl rfl rfl fun rest hr => Parses.sym fun r heq => ?_
    change rest.head? = some (.rel r) at heq
    rcases hr with hr | hr | hr
    · exact hr.ne (t := .rel r) (by simp) heq
    · rw [hr] at heq
      cases heq
    · rw [hr] at heq
      cases heq
  | not e ih => exact readBack_factor rfl rfl rfl rfl fun rest hr => ((ih he).operand rest hr).not
  | rel r v1 v2 => exact readBack_factor rfl rfl rfl rfl fun rest _ => Parses.rel r v1 v2 rest
  | and e1 e2 ih1 ih2 =>
    have h1 := ih1 fun x hx => he x (List.mem_append_left _ hx)
    have h2 := ih2 fun x hx => he x (List.mem_append_right _ hx)
    have hcat : ∀ rest, exprTokens (.and e1 e2) ++ rest =
        inParens e1.isOr (exprTokens e1) ++ .and ::
          (inParens e2.isOr (exprTokens e2) ++ rest) := by
      intro rest
      simp [exprTokens]
    have hlast : ∀ rest, Ends rest ∨ rest.head? = some .or →
        Parses (parseAndExpr false modules) 1 (exprTokens (.and e1 e2) ++ rest)
          (regroup (.and e1 e2)) rest := by
      intro rest hr
      rw [hcat]
      exact h1.andMore _ _ _ (h2.andLast rest hr)
    have hwhole : ∀ rest, Ends rest →
        Parses (parseExpr false modules) 0 (exprTokens (.and e1 e2) ++ rest)
          (regroup (.and e1 e2)) rest :=
      fun rest hr => (hlast rest (.inl hr)).andExpr (hr.ne (by decide))
    have hparen : ∀ rest, Parses (parseFactor false modules) 2
        (inParens true (exprTokens (.and e1 e2)) ++ rest) (regroup (.and e1 e2)) rest := by
      intro rest
      rw [inParens_append]
      exact (hwhole _ (ends_closeParen rest)).paren
    refine ⟨hwhole, fun rest hr => ?_, fun ts e' rest he' => ?_, hlast, fun ts e' rest he' => ?_,
      fun rest _ => hparen rest⟩
    · exact ((hparen rest).factor (hr.ne (by decide))).andExpr (hr.ne (by decide))
    · have hnot : (regroup (.and e1 e2)).isOr = false := isOr_andAppend _ _
      rw [orAppend_of_not_or hnot]
      exact ((hparen (.or :: ts)).factor (by simp)).or he'
    · change Parses _ _ (exprTokens (.and e1 e2) ++ .and :: ts) (andAppend (andAppend _ _) e') rest
      rw [hcat, andAppend_assoc]
      exact h1.andMore _ _ _ (h2.andMore _ _ _ he')
  | or e1 e2 ih1 ih2 =>
    have h1 := ih1 fun x hx => he x (List.mem_append_left _ hx)
    have h2 := ih2 fun x hx => he x (List.mem_append_right _ hx)
    have hcat : ∀ rest, exprTokens (.or e1 e2) ++ rest =
        inParens e1.isAnd (exprTokens e1) ++ .or ::
          (inParens e2.isAnd (exprTokens e2) ++ rest) := by
      intro rest
      simp [exprTokens]
    have hwhole : ∀ rest, Ends rest →
        Parses (parseExpr false modules) 0 (exprTokens (.or e1 e2) ++ rest)
          (regroup (.or e1 e2)) rest := by
      intro rest hr
      rw [hcat]
      exact h1.orMore _ _ _ (h2.orLast rest hr)
    have hparen : ∀ rest, Parses (parseFactor false modules) 2
        (inParens true (exprTokens (.or e1 e2)) ++ rest) (regroup (.or e1 e2)) rest := by
      intro rest
      rw [inParens_append]
      exact (hwhole _ (ends_closeParen rest)).paren
    refine ⟨hwhole, hwhole, fun ts e' rest he' => ?_, fun rest hr => ?_, fun ts e' rest he' => ?_,
      fun rest _ => hparen rest⟩
    · change Parses _ _ (exprTokens (.or e1 e2) ++ .or :: ts) (orAppend (orAppend _ _) e') rest
      rw [hcat, orAppend_assoc]
      exact h1.orMore _ _ _ (h2.orMore _ _ _ he')
    · refine (hparen rest).factor fun heq => ?_
      rcases hr with hr | hr
      · exact hr.ne (t := .and) (by decide) heq
      · rw [hr] at heq
        cases heq
    · have hnot : (regroup (.or e1 e2)).isAnd = false := isAnd_orAppend _ _
      rw [andAppend_of_not_and hnot]
      exact (hparen (.and :: ts)).and he'

theorem parseTokens_exprTokens {e : Expr} (he : ∀ x ∈ exprItems e, ∃ s, x = .sym s) :
    parseTokens false modules (exprTokens e) = some (regroup e) := by
  have hread : ReadBack modules e := readBack he
  obtain ⟨-, hp⟩ := hread.whole [] (.inl rfl)
  rw [List.append_nil] at hp
  have hlen : ([] : List ExprToken).length = 0 := rfl
  rw [parseTokens, hp _ (by rw [hlen]; omega)]
  rfl

end

/-! ### The tokens in the text -/

theorem length_dropWhile_le (p : Char → Bool) (s : Text) : (s.dropWhile p).length ≤ s.length :=
  (List.dropWhile_suffix p).length_le

theorem length_readString {quote : Char} {s : Text} {r : Text × Text}
    (h : readString quote s = some r) : r.2.length ≤ s.length := by
  induction s using readString.induct quote generalizing r with
  | case1 => cases h
  | case2 =>
    rw [readString, if_pos rfl] at h
    rw [← Option.some.inj h]
    simp
  | case3 c hc =>
    rw [readString, if_neg hc] at h
    cases h
  | case4 d s =>
    rw [readString, if_pos rfl] at h
    rw [← Option.some.inj h]
    simp
  | case5 d s hq ih =>
    rw [readString, if_neg hq, if_pos rfl] at h
    obtain ⟨r', hr', rfl⟩ := Option.map_eq_some_iff.mp h
    have hle := ih hr'
    simp only [List.length_cons]
    omega
  | case6 c d s hq hb ih =>
    rw [readString, if_neg hq, if_neg hb] at h
    obtain ⟨r', hr', rfl⟩ := Option.map_eq_some_iff.mp h
    have hle := ih hr'
    simp only [List.length_cons] at hle ⊢
    omega

theorem length_operator {s : Text} {r : ExprToken × Text} (h : operator s = some r) :
    r.2.length < s.length := by
  unfold operator at h
  split at h
  any_goals
    rw [← Option.some.inj h]
    simp only [List.length_cons]
    omega
  cases h

theorem lexExpr_fuel {s : Text} {fuel : ℕ} (h : s.length ≤ fuel) :
    lexExpr fuel s = lexExpr s.length s := by
  induction hn : s.length using Nat.strong_induction_on generalizing s fuel with
  | _ n ih =>
    cases s with
    | nil =>
      subst hn
      cases fuel <;> rfl
    | cons c s =>
      obtain ⟨fuel, rfl⟩ : ∃ k, fuel = k + 1 := ⟨fuel - 1, by rw [List.length_cons] at h; omega⟩
      rw [List.length_cons] at h hn
      subst hn
      have hrest : ∀ t : Text, t.length ≤ s.length → lexExpr fuel t = lexExpr s.length t := by
        intro t ht
        rw [ih t.length (by omega) (by omega) rfl, ih t.length (by omega) ht rfl]
      have hword := length_dropWhile_le Text.isSpace (s.dropWhile Kconfiglib.symChar)
      have hsym := length_dropWhile_le Kconfiglib.symChar s
      unfold lexExpr
      dsimp only
      rw [hrest _ (by omega)]
      congr 2
      · cases hr : readString c s with
        | none => rfl
        | some r =>
          have hle := length_readString hr
          have hdrop := length_dropWhile_le PyInt.isSpace r.2
          rw [Option.bind_some, Option.bind_some, hrest _ (by omega)]
      · congr 1
        cases hr : operator (c :: s) with
        | none => rfl
        | some r =>
          have hlt := length_operator hr
          rw [List.length_cons] at hlt
          have hdrop := length_dropWhile_le PyInt.isSpace r.2
          rw [Option.bind_some, Option.bind_some, hrest _ (by omega)]

def lex (s : Text) : Option (List ExprToken) := lexExpr s.length s

section

variable {name rest : Text}

theorem lex_word (hname : IsWord name) (hk : Kconfiglib.getKeyword name = none)
    (hrest : rest.takeWhile Kconfiglib.symChar = []) :
    lex (name ++ rest) =
      (lex (rest.dropWhile Text.isSpace)).map fun ts => .sym (wordSym name) :: ts := by
  obtain ⟨hne, hword⟩ := hname
  cases name with
  | nil => exact absurd rfl hne
  | cons c word =>
    have hw : ∀ d ∈ word, Kconfiglib.symChar d := fun d hd => hword d (List.mem_cons_of_mem _ hd)
    have hdrop := length_dropWhile_le Text.isSpace rest
    unfold lex
    rw [List.cons_append, List.length_cons, lexExpr, if_pos (hword c List.mem_cons_self)]
    dsimp only
    rw [Kconfiglib.takeWhile_append_stop hw hrest, Kconfiglib.dropWhile_append_stop hw hrest, hk,
      if_neg (by decide), lexExpr_fuel (by rw [List.length_append]; omega)]

theorem readString_escape (name rest : Text) :
    readString '"' (escape name ++ '"' :: rest) = some (name, rest) := by
  rw [escape_eq]
  induction name with
  | nil => cases rest <;> rfl
  | cons c s ih =>
    rw [List.flatMap_cons, escapeChar]
    split_ifs with hb hq
    · rw [List.append_assoc, List.cons_append, List.cons_append, List.nil_append, readString,
        if_neg (by decide), if_pos rfl, ih, hb]
      rfl
    · rw [List.append_assoc, List.cons_append, List.cons_append, List.nil_append, readString,
        if_neg (by decide), if_pos rfl, ih, hq]
      rfl
    · rw [List.append_assoc, List.singleton_append]
      generalize htail : List.flatMap escapeChar s ++ '"' :: rest = tail at ih
      cases tail with
      | nil => simp at htail
      | cons d tail => rw [readString, if_neg hq, if_neg hb, ih]; rfl

theorem lex_string (name rest : Text) :
    lex ('"' :: (escape name ++ '"' :: rest)) =
      (lex (rest.dropWhile PyInt.isSpace)).map fun ts => .sym (.const name) :: ts := by
  have hdrop := length_dropWhile_le PyInt.isSpace rest
  unfold lex
  rw [List.length_cons, lexExpr, if_neg (by decide), if_pos (.inl rfl), readString_escape,
    Option.bind_some]
  dsimp only
  rw [lexExpr_fuel (by rw [List.length_append, List.length_cons]; omega)]

theorem lex_operator {c : Char} {s : Text} {t : ExprToken}
    (hop : operator (c :: s) = some (t, rest))
    (hsym : Kconfiglib.symChar c = false) (hq : c ≠ '"' ∧ c ≠ '\'' ∧ c ≠ '#') :
    lex (c :: s) = (lex (rest.dropWhile PyInt.isSpace)).map fun ts => t :: ts := by
  have hlt := length_operator hop
  have hdrop := length_dropWhile_le PyInt.isSpace rest
  rw [List.length_cons] at hlt
  unfold lex
  rw [List.length_cons, lexExpr, if_neg (by rw [hsym]; decide),
    if_neg (not_or.mpr ⟨hq.1, hq.2.1⟩), if_neg hq.2.2, hop, Option.bind_some]
  dsimp only at hlt ⊢
  rw [lexExpr_fuel (by omega)]

end

/-- What may follow a symbol, and what is left of it when white space is skipped. -/
inductive Follows : Text → Text → Prop where
  | nil : Follows [] []
  | close (t : Text) : Follows (')' :: t) (')' :: t)
  | blank (c : Char) (t : Text) (hc : PyInt.isSpace c = false) : Follows (' ' :: c :: t) (c :: t)

theorem isSpace_of_pyInt {c : Char} (h : PyInt.isSpace c = false) : Text.isSpace c = false := by
  by_contra hs
  simp only [Text.isSpace, Bool.not_eq_false, decide_eq_true_eq, List.mem_cons, List.not_mem_nil,
    or_false] at hs
  rcases hs with rfl | rfl | rfl | rfl | rfl | rfl <;> exact absurd h (by decide)

theorem Follows.symChar {rest rest' : Text} (h : Follows rest rest') :
    rest.takeWhile Kconfiglib.symChar = [] := by
  cases h <;> rfl

theorem Follows.skip {rest rest' : Text} (h : Follows rest rest') :
    rest.dropWhile PyInt.isSpace = rest' := by
  cases h with
  | nil => rfl
  | close t => rfl
  | blank c t hc =>
    rw [List.dropWhile_cons_of_pos (by decide), List.dropWhile_cons_of_neg (by rw [hc]; decide)]

theorem Follows.skipAscii {rest rest' : Text} (h : Follows rest rest') :
    rest.dropWhile Text.isSpace = rest' := by
  cases h with
  | nil => rfl
  | close t => rfl
  | blank c t hc =>
    have hs := isSpace_of_pyInt hc
    rw [List.dropWhile_cons_of_pos (by decide), List.dropWhile_cons_of_neg (by rw [hs]; decide)]

def SymOk : Sym → Prop
  | .var name => IsWord name ∧ Kconfiglib.getKeyword name = none ∧ name ∉ Kconfiglib.triNames ∧
      '$' ∉ name
  | .const name => '$' ∉ name

def Printable (e : Expr) : Prop := ∀ x ∈ exprItems e, ∃ s, x = .sym s ∧ SymOk s

/-- The text does not begin with white space, nor with what `!` would take. -/
def Begins (s : Text) : Prop := ∃ c t, s = c :: t ∧ PyInt.isSpace c = false ∧ c ≠ '='

structure Lexes (s : Text) (ts : List ExprToken) : Prop where
  begins : Begins s
  read : ∀ rest rest', Follows rest rest' → lex (s ++ rest) = (lex rest').map (ts ++ ·)

theorem Begins.append {s : Text} (h : Begins s) (t : Text) : Begins (s ++ t) := by
  obtain ⟨c, s, rfl, hc⟩ := h
  exact ⟨c, s ++ t, rfl, hc⟩

theorem Begins.blank {s : Text} (h : Begins s) : (' ' :: s).dropWhile PyInt.isSpace = s := by
  obtain ⟨c, s, rfl, hc, -⟩ := h
  exact (Follows.blank c s hc).skip

theorem Begins.skip {s : Text} (h : Begins s) : s.dropWhile PyInt.isSpace = s := by
  obtain ⟨c, s, rfl, hc, -⟩ := h
  rw [List.dropWhile_cons_of_neg (by rw [hc]; decide)]

theorem symChar_not_space {c : Char} (h : Kconfiglib.symChar c) : PyInt.isSpace c = false := by
  have hcodes : ∀ n ∈ PyInt.spaceCodes, Kconfiglib.symChar (Char.ofNat n) = false := by decide
  by_contra hs
  rw [Bool.not_eq_false, PyInt.isSpace, List.contains_iff_mem] at hs
  have hc := hcodes c.toNat hs
  rw [Char.ofNat_toNat, h] at hc
  cases hc

theorem symChar_ne_equal {c : Char} (h : Kconfiglib.symChar c) : c ≠ '=' := by
  rintro rfl
  exact absurd h (by decide)

theorem lexes_word {name : Text} (hname : IsWord name) (hk : Kconfiglib.getKeyword name = none) :
    Lexes name [.sym (wordSym name)] := by
  refine ⟨?_, fun rest rest' h => ?_⟩
  · obtain ⟨hne, hword⟩ := hname
    cases name with
    | nil => exact absurd rfl hne
    | cons c s =>
      have hc := hword c List.mem_cons_self
      exact ⟨c, s, rfl, symChar_not_space hc, symChar_ne_equal hc⟩
  · rw [lex_word hname hk h.symChar, h.skipAscii]
    rfl

theorem lexes_symStr {s : Sym} (h : SymOk s) : Lexes (symStr s) [.sym s] := by
  cases s with
  | var name =>
    obtain ⟨hname, hk, htri, -⟩ := h
    have hw := lexes_word hname hk
    rwa [wordSym, if_neg htri] at hw
  | const name =>
    by_cases htri : name ∈ Kconfiglib.triNames
    · have hword : ∀ t ∈ Kconfiglib.triNames, IsWord t ∧ Kconfiglib.getKeyword t = none := by
        decide +kernel
      have hw := lexes_word (hword name htri).1 (hword name htri).2
      rw [wordSym, if_pos htri] at hw
      rwa [symStr, if_pos htri]
    · rw [symStr, if_neg htri]
      refine ⟨⟨'"', _, rfl, by decide, by decide⟩, fun rest rest' hf => ?_⟩
      have hcat : '"' :: (escape name ++ ['"']) ++ rest = '"' :: (escape name ++ '"' :: rest) := by
        simp
      rw [hcat, lex_string, hf.skip]
      rfl

theorem Lexes.paren {s : Text} {ts : List ExprToken} (h : Lexes s ts) (b : Bool) :
    Lexes (parenthesize b s) (inParens b ts) := by
  cases b with
  | false => exact h
  | true =>
    refine ⟨⟨'(', _, rfl, by decide, by decide⟩, fun rest rest' hf => ?_⟩
    have hcat : parenthesize true s ++ rest = '(' :: (s ++ ')' :: rest) := by
      simp [parenthesize]
    have hopen : operator ('(' :: (s ++ ')' :: rest)) = some (.openParen, s ++ ')' :: rest) := rfl
    have hclose : operator (')' :: rest) = some (.closeParen, rest) := rfl
    rw [hcat, lex_operator hopen (by decide) (by decide), (h.begins.append _).skip,
      h.read _ _ (.close rest), lex_operator hclose (by decide) (by decide), hf.skip]
    cases lex rest' with
    | none => rfl
    | some us => simp [inParens]

theorem Lexes.not {s : Text} {ts : List ExprToken} (h : Lexes s ts) :
    Lexes ('!' :: s) (.not :: ts) := by
  refine ⟨⟨'!', s, rfl, by decide, by decide⟩, fun rest rest' hf => ?_⟩
  have hop : operator ('!' :: (s ++ rest)) = some (.not, s ++ rest) := by
    obtain ⟨c, t, rfl, -, hc⟩ := h.begins
    rw [List.cons_append]
    unfold operator
    split
    any_goals simp_all
  rw [List.cons_append, lex_operator hop (by decide) (by decide), (h.begins.append _).skip,
    h.read _ _ hf]
  cases lex rest' <;> rfl

def opens (c : Char) : Bool :=
  !PyInt.isSpace c && !Kconfiglib.symChar c && c ≠ '"' && c ≠ '\'' && c ≠ '#'

theorem Lexes.between {s s' op : Text} {c : Char} {ts ts' : List ExprToken} {t : ExprToken}
    (h : Lexes s ts) (h' : Lexes s' ts') (hc : opens c)
    (hop : ∀ rest, operator (c :: (op ++ ' ' :: rest)) = some (t, ' ' :: rest)) :
    Lexes (s ++ ' ' :: c :: (op ++ ' ' :: s')) (ts ++ t :: ts') := by
  refine ⟨h.begins.append _, fun rest rest' hf => ?_⟩
  have hcat : s ++ ' ' :: c :: (op ++ ' ' :: s') ++ rest =
      s ++ ' ' :: c :: (op ++ ' ' :: (s' ++ rest)) := by
    simp
  simp only [opens, Bool.and_eq_true, Bool.not_eq_true', decide_eq_true_eq] at hc
  obtain ⟨⟨⟨⟨hspace, hsym⟩, hq⟩, hq'⟩, hhash⟩ := hc
  rw [hcat, h.read _ _ (.blank c _ hspace), lex_operator (hop _) hsym ⟨hq, hq', hhash⟩,
    (h'.begins.append _).blank, h'.read _ _ hf]
  cases lex rest' <;> simp

theorem Printable.lexes {e : Expr} (he : Printable e) : Lexes (exprStr e) (exprTokens e) := by
  induction e with
  | item x =>
    obtain ⟨s, rfl, hs⟩ := he x List.mem_cons_self
    exact lexes_symStr hs
  | not e ih => exact ((ih he).paren _).not
  | and e1 e2 ih1 ih2 =>
    have h1 := ih1 fun x hx => he x (List.mem_append_left _ hx)
    have h2 := ih2 fun x hx => he x (List.mem_append_right _ hx)
    have hop : ∀ rest, operator ('&' :: (['&'] ++ ' ' :: rest)) = some (.and, ' ' :: rest) :=
      fun _ => rfl
    exact (h1.paren e1.isOr).between (h2.paren e2.isOr) (by decide) hop
  | or e1 e2 ih1 ih2 =>
    have h1 := ih1 fun x hx => he x (List.mem_append_left _ hx)
    have h2 := ih2 fun x hx => he x (List.mem_append_right _ hx)
    have hop : ∀ rest, operator ('|' :: (['|'] ++ ' ' :: rest)) = some (.or, ' ' :: rest) :=
      fun _ => rfl
    exact (h1.paren e1.isAnd).between (h2.paren e2.isAnd) (by decide) hop
  | rel r v1 v2 =>
    obtain ⟨s1, hs1, h1⟩ := he (.sym v1) (by simp [exprItems])
    obtain ⟨s2, hs2, h2⟩ := he (.sym v2) (by simp [exprItems])
    obtain rfl := Item.sym.inj hs1
    obtain rfl := Item.sym.inj hs2
    have hlex : ∀ (c : Char) (op : Text), relStr r = c :: op → opens c →
        (∀ rest, operator (c :: (op ++ ' ' :: rest)) = some (.rel r, ' ' :: rest)) →
        Lexes (exprStr (.rel r v1 v2)) (exprTokens (.rel r v1 v2)) := by
      intro c op hr hc hop
      have h := (lexes_symStr h1).between (lexes_symStr h2) hc hop
      rw [exprStr, hr]
      exact h
    cases r with
    | equal => exact hlex '=' [] rfl (by decide) fun _ => rfl
    | unequal => exact hlex '!' ['='] rfl (by decide) fun _ => rfl
    | less => exact hlex '<' [] rfl (by decide) fun _ => rfl
    | lessEqual => exact hlex '<' ['='] rfl (by decide) fun _ => rfl
    | greater => exact hlex '>' [] rfl (by decide) fun _ => rfl
    | greaterEqual => exact hlex '>' ['='] rfl (by decide) fun _ => rfl

theorem dollar_not_mem_symStr {s : Sym} (h : SymOk s) : '$' ∉ symStr s := by
  cases s with
  | var name => exact h.2.2.2
  | const name =>
    have hname : '$' ∉ name := h
    rw [symStr]
    split_ifs
    · exact hname
    · simp [not_mem_escape (by decide) (by decide) hname]

theorem dollar_not_mem_parenthesize {s : Text} (h : '$' ∉ s) (b : Bool) :
    '$' ∉ parenthesize b s := by
  cases b with
  | false => exact h
  | true => simp [parenthesize, h]

theorem Printable.dollar {e : Expr} (he : Printable e) : '$' ∉ exprStr e := by
  induction e with
  | item x =>
    obtain ⟨s, rfl, hs⟩ := he x List.mem_cons_self
    exact dollar_not_mem_symStr hs
  | not e ih => simp [exprStr, dollar_not_mem_parenthesize (ih he)]
  | and e1 e2 ih1 ih2 =>
    have h1 := ih1 fun x hx => he x (List.mem_append_left _ hx)
    have h2 := ih2 fun x hx => he x (List.mem_append_right _ hx)
    simp [exprStr, dollar_not_mem_parenthesize h1, dollar_not_mem_parenthesize h2]
  | or e1 e2 ih1 ih2 =>
    have h1 := ih1 fun x hx => he x (List.mem_append_left _ hx)
    have h2 := ih2 fun x hx => he x (List.mem_append_right _ hx)
    simp [exprStr, dollar_not_mem_parenthesize h1, dollar_not_mem_parenthesize h2]
  | rel r v1 v2 =>
    obtain ⟨s1, hs1, h1⟩ := he (.sym v1) (by simp [exprItems])
    obtain ⟨s2, hs2, h2⟩ := he (.sym v2) (by simp [exprItems])
    obtain rfl := Item.sym.inj hs1
    obtain rfl := Item.sym.inj hs2
    have hr : '$' ∉ relStr r := by
      cases r <;> decide
    simp [exprStr, dollar_not_mem_symStr h1, dollar_not_mem_symStr h2, hr]

theorem tokenize_exprStr {e : Expr} (he : Printable e) :
    tokenize (exprStr e) = some (exprTokens e) := by
  have hl := he.lexes
  have hread := hl.read [] [] .nil
  obtain ⟨c, t, heq, hc, -⟩ := hl.begins
  have hspace := isSpace_of_pyInt hc
  have hstart : (exprStr e).dropWhile Text.isSpace = exprStr e := by
    rw [heq, List.dropWhile_cons_of_neg (by rw [hspace]; decide)]
  rw [tokenize, if_neg he.dollar, hstart]
  rw [List.append_nil] at hread
  exact hread.trans (congrArg some (List.append_nil _))

/-! ### m and MODULES -/

def withModules (modules : Text) : Expr → Expr
  | .item (.sym s) => plainSym true modules s
  | .item (.choice i) => .item (.choice i)
  | .not e => .not (withModules modules e)
  | .and e1 e2 => .and (withModules modules e1) (withModules modules e2)
  | .or e1 e2 => .or (withModules modules e1) (withModules modules e2)
  | .rel r v1 v2 => .rel r v1 v2

theorem parse_withModules (modules : Text) (fuel : ℕ) (ts : List ExprToken) :
    (parseExpr true modules fuel ts = (parseExpr false modules fuel ts).map fun r =>
      (withModules modules r.1, r.2)) ∧
    (parseAndExpr true modules fuel ts = (parseAndExpr false modules fuel ts).map fun r =>
      (withModules modules r.1, r.2)) ∧
    parseFactor true modules fuel ts = (parseFactor false modules fuel ts).map fun r =>
      (withModules modules r.1, r.2) := by
  induction fuel generalizing ts with
  | zero => exact ⟨rfl, rfl, rfl⟩
  | succ fuel ih =>
    refine ⟨?_, ?_, ?_⟩
    · rw [parseExpr, parseExpr, (ih ts).2.1]
      cases parseAndExpr false modules fuel ts with
      | none => rfl
      | some r =>
        simp only [Option.map_some, Option.bind_some]
        split
        · rename_i rest heq
          rw [(ih rest).1]
          cases parseExpr false modules fuel rest <;> rfl
        · rfl
    · rw [parseAndExpr, parseAndExpr, (ih ts).2.2]
      cases parseFactor false modules fuel ts with
      | none => rfl
      | some r =>
        simp only [Option.map_some, Option.bind_some]
        split
        · rename_i rest heq
          rw [(ih rest).2.1]
          cases parseAndExpr false modules fuel rest <;> rfl
        · rfl
    · unfold parseFactor
      split
      · rfl
      · rfl
      · rfl
      · rename_i rest
        rw [(ih rest).2.2]
        cases parseFactor false modules fuel rest <;> rfl
      · rename_i rest
        rw [(ih rest).1]
        cases parseExpr false modules fuel rest with
        | none => rfl
        | some r =>
          simp only [Option.map_some, Option.bind_some]
          split <;> rfl
      · rfl

theorem parseTokens_withModules (modules : Text) (ts : List ExprToken) :
    parseTokens true modules ts = (parseTokens false modules ts).map (withModules modules) := by
  rw [parseTokens, parseTokens, (parse_withModules modules _ ts).1]
  cases parseExpr false modules (3 * ts.length + 1) ts with
  | none => rfl
  | some r =>
    simp only [Option.map_some, Option.bind_some]
    split_ifs <;> rfl

section

variable {item : Item → ℕ} {rel : Rel → Sym → Sym → ℕ} {modules : Text}

theorem valueOf_andAppend (e1 e2 : Expr) :
    valueOf item rel (withModules modules (andAppend e1 e2)) =
      min (valueOf item rel (withModules modules e1))
        (valueOf item rel (withModules modules e2)) := by
  induction e1 with
  | and e3 e4 ih3 ih4 =>
    simp only [andAppend, withModules, valueOf, ih4]
    omega
  | item x => rfl
  | not e ih => rfl
  | or e3 e4 ih3 ih4 => rfl
  | rel r v1 v2 => rfl

theorem valueOf_orAppend (e1 e2 : Expr) :
    valueOf item rel (withModules modules (orAppend e1 e2)) =
      max (valueOf item rel (withModules modules e1))
        (valueOf item rel (withModules modules e2)) := by
  induction e1 with
  | or e3 e4 ih3 ih4 =>
    simp only [orAppend, withModules, valueOf, ih4]
    omega
  | item x => rfl
  | not e ih => rfl
  | and e3 e4 ih3 ih4 => rfl
  | rel r v1 v2 => rfl

theorem valueOf_regroup (e : Expr) :
    valueOf item rel (withModules modules (regroup e)) =
      valueOf item rel (withModules modules e) := by
  induction e with
  | item x => rfl
  | not e ih => simp only [regroup, withModules, valueOf, ih]
  | and e1 e2 ih1 ih2 => simp only [regroup, valueOf_andAppend, withModules, valueOf, ih1, ih2]
  | or e1 e2 ih1 ih2 => simp only [regroup, valueOf_orAppend, withModules, valueOf, ih1, ih2]
  | rel r v1 v2 => rfl

theorem valueOf_withModules (e : Expr) :
    valueOf item rel (withModules modules (withModules modules e)) =
      valueOf item rel (withModules modules e) := by
  induction e with
  | item x =>
    cases x with
    | choice i => rfl
    | sym s =>
      by_cases hs : s = .const "m".toList
      · have hm : withModules modules (.item (.sym s)) = .and .m (.sym modules) := if_pos ⟨rfl, hs⟩
        have hmm : plainSym true modules (.const "m".toList) = .and .m (.sym modules) := by
          rw [plainSym, if_pos ⟨rfl, rfl⟩]
        have hmod : plainSym true modules (.var modules) = .sym modules := by
          rw [plainSym, if_neg (by simp)]
          rfl
        have hand : withModules modules (.and .m (.sym modules)) =
            .and (.and .m (.sym modules)) (.sym modules) := by
          rw [withModules]
          exact congrArg₂ Expr.and hmm hmod
        rw [hm, hand]
        simp only [valueOf]
        omega
      · have hm : withModules modules (.item (.sym s)) = .item (.sym s) := if_neg fun h => hs h.2
        rw [hm, hm]
  | not e ih => simp only [withModules, valueOf, ih]
  | and e1 e2 ih1 ih2 => simp only [withModules, valueOf, ih1, ih2]
  | or e1 e2 ih1 ih2 => simp only [withModules, valueOf, ih1, ih2]
  | rel r v1 v2 => rfl

end

/-! ### What is parsed can be printed -/

def From (ts : List ExprToken) (r : Expr × List ExprToken) : Prop :=
  (∀ x ∈ exprItems r.1, ∃ s, x = .sym s ∧ .sym s ∈ ts) ∧ r.2 ⊆ ts

theorem From.mono {ts ts' : List ExprToken} {r : Expr × List ExprToken} (h : From ts r)
    (hsub : ts ⊆ ts') : From ts' r := by
  refine ⟨fun x hx => ?_, fun t ht => hsub (h.2 ht)⟩
  obtain ⟨s, hs, hmem⟩ := h.1 x hx
  exact ⟨s, hs, hsub hmem⟩

theorem parse_from (modules : Text) (fuel : ℕ) (ts : List ExprToken) :
    (∀ r, parseExpr false modules fuel ts = some r → From ts r) ∧
    (∀ r, parseAndExpr false modules fuel ts = some r → From ts r) ∧
    ∀ r, parseFactor false modules fuel ts = some r → From ts r := by
  induction fuel generalizing ts with
  | zero => exact ⟨fun r h => (by cases h), fun r h => (by cases h), fun r h => (by cases h)⟩
  | succ fuel ih =>
    refine ⟨fun r h => ?_, fun r h => ?_, fun r h => ?_⟩
    · rw [parseExpr] at h
      obtain ⟨r1, h1, h⟩ := Option.bind_eq_some_iff.mp h
      have hfrom1 := (ih ts).2.1 r1 h1
      split at h
      · rename_i rest heq
        obtain ⟨r2, h2, rfl⟩ := Option.map_eq_some_iff.mp h
        have hsub : rest ⊆ ts := fun t ht => hfrom1.2 (heq ▸ List.mem_cons_of_mem _ ht)
        have hfrom2 := ((ih rest).1 r2 h2).mono hsub
        refine ⟨fun x hx => ?_, hfrom2.2⟩
        exact (List.mem_append.mp hx).elim (hfrom1.1 x) (hfrom2.1 x)
      · rwa [← Option.some.inj h]
    · rw [parseAndExpr] at h
      obtain ⟨r1, h1, h⟩ := Option.bind_eq_some_iff.mp h
      have hfrom1 := (ih ts).2.2 r1 h1
      split at h
      · rename_i rest heq
        obtain ⟨r2, h2, rfl⟩ := Option.map_eq_some_iff.mp h
        have hsub : rest ⊆ ts := fun t ht => hfrom1.2 (heq ▸ List.mem_cons_of_mem _ ht)
        have hfrom2 := ((ih rest).2.1 r2 h2).mono hsub
        refine ⟨fun x hx => ?_, hfrom2.2⟩
        exact (List.mem_append.mp hx).elim (hfrom1.1 x) (hfrom2.1 x)
      · rwa [← Option.some.inj h]
    · unfold parseFactor at h
      split at h
      · rename_i s r v rest
        rw [← Option.some.inj h]
        refine ⟨fun x hx => ?_, fun t ht => by simp [ht]⟩
        rcases List.mem_pair.mp hx with rfl | rfl
        · exact ⟨s, rfl, by simp⟩
        · exact ⟨v, rfl, by simp⟩
      · cases h
      · rename_i s rest _ _
        rw [← Option.some.inj h]
        refine ⟨fun x hx => ?_, fun t ht => by simp [ht]⟩
        have hplain : plainSym false modules s = .item (.sym s) := if_neg (by simp)
        rw [hplain] at hx
        exact ⟨s, List.mem_singleton.mp hx, by simp⟩
      · rename_i rest
        obtain ⟨r1, h1, rfl⟩ := Option.map_eq_some_iff.mp h
        exact ((ih rest).2.2 r1 h1).mono fun t ht => by simp [ht]
      · rename_i rest
        obtain ⟨r1, h1, h⟩ := Option.bind_eq_some_iff.mp h
        have hsub : rest ⊆ .openParen :: rest := fun t ht => List.mem_cons_of_mem _ ht
        have hfrom1 := ((ih rest).1 r1 h1).mono hsub
        split at h
        · rename_i rest' heq
          rw [← Option.some.inj h]
          exact ⟨hfrom1.1, fun t ht => hfrom1.2 (heq ▸ List.mem_cons_of_mem _ ht)⟩
        · cases h
      · cases h

theorem readString_subset {quote : Char} {s : Text} {r : Text × Text}
    (h : readString quote s = some r) : r.1 ⊆ s ∧ r.2 ⊆ s := by
  induction s using readString.induct quote generalizing r with
  | case1 => cases h
  | case2 =>
    rw [readString, if_pos rfl] at h
    rw [← Option.some.inj h]
    simp
  | case3 c hc =>
    rw [readString, if_neg hc] at h
    cases h
  | case4 d s =>
    rw [readString, if_pos rfl] at h
    rw [← Option.some.inj h]
    simp
  | case5 d s hq ih =>
    rw [readString, if_neg hq, if_pos rfl] at h
    obtain ⟨r', hr', rfl⟩ := Option.map_eq_some_iff.mp h
    obtain ⟨h1, h2⟩ := ih hr'
    refine ⟨List.cons_subset.mpr ⟨by simp, fun x hx => ?_⟩, fun x hx => ?_⟩
    · simp [h1 hx]
    · simp [h2 hx]
  | case6 c d s hq hb ih =>
    rw [readString, if_neg hq, if_neg hb] at h
    obtain ⟨r', hr', rfl⟩ := Option.map_eq_some_iff.mp h
    obtain ⟨h1, h2⟩ := ih hr'
    refine ⟨List.cons_subset.mpr ⟨by simp, fun x hx => ?_⟩, fun x hx => ?_⟩
    · exact List.mem_cons_of_mem _ (h1 hx)
    · exact List.mem_cons_of_mem _ (h2 hx)

theorem operator_subset {s : Text} {r : ExprToken × Text} (h : operator s = some r) :
    r.2 ⊆ s ∧ ∀ v, r.1 ≠ .sym v := by
  unfold operator at h
  split at h
  any_goals
    rw [← Option.some.inj h]
    exact ⟨fun x hx => by simp [hx], fun v hv => by cases hv⟩
  cases h

theorem symOk_wordSym {word : Text} (hword : IsWord word)
    (hk : (Kconfiglib.getKeyword word).isSome = false) (hd : '$' ∉ word) :
    SymOk (wordSym word) := by
  unfold wordSym
  split_ifs with htri
  · exact hd
  · exact ⟨hword, Option.isSome_eq_false_iff.mp hk |> Option.isNone_iff_eq_none.mp, htri, hd⟩

theorem symOk_of_lexExpr {fuel : ℕ} {s : Text} {ts : List ExprToken} (hd : '$' ∉ s)
    (h : lexExpr fuel s = some ts) {v : Sym} (hv : .sym v ∈ ts) : SymOk v := by
  induction fuel generalizing s ts with
  | zero =>
    cases s with
    | nil =>
      rw [← Option.some.inj h] at hv
      cases hv
    | cons c s => cases h
  | succ fuel ih =>
    cases s with
    | nil =>
      rw [← Option.some.inj h] at hv
      cases hv
    | cons c s =>
      rw [List.mem_cons, not_or] at hd
      have hdrop : ∀ {p : Char → Bool} {t : Text}, t ⊆ s → '$' ∉ t.dropWhile p :=
        fun ht hmem => hd.2 (ht ((List.dropWhile_suffix _).subset hmem))
      unfold lexExpr at h
      dsimp only at h
      split_ifs at h with hc hk hq
      · obtain ⟨us, hus, rfl⟩ := Option.map_eq_some_iff.mp h
        rcases List.mem_cons.mp hv with heq | hmem
        · rw [ExprToken.sym.inj heq]
          refine symOk_wordSym ⟨by simp, fun d hd' => ?_⟩ (Bool.not_eq_true _ ▸ hk) ?_
          · rcases List.mem_cons.mp hd' with rfl | hmem
            · exact hc
            · exact List.mem_takeWhile_imp hmem
          · rw [List.mem_cons, not_or]
            exact ⟨hd.1, fun hmem => hd.2 ((List.takeWhile_prefix _).subset hmem)⟩
        · exact ih (hdrop (List.dropWhile_suffix _).subset) hus hmem
      · obtain ⟨r, hr, h⟩ := Option.bind_eq_some_iff.mp h
        obtain ⟨us, hus, rfl⟩ := Option.map_eq_some_iff.mp h
        obtain ⟨h1, h2⟩ := readString_subset hr
        rcases List.mem_cons.mp hv with heq | hmem
        · rw [ExprToken.sym.inj heq]
          exact fun hmem => hd.2 (h1 hmem)
        · exact ih (hdrop h2) hus hmem
      · rw [← Option.some.inj h] at hv
        cases hv
      · obtain ⟨r, hr, h⟩ := Option.bind_eq_some_iff.mp h
        obtain ⟨us, hus, rfl⟩ := Option.map_eq_some_iff.mp h
        obtain ⟨h1, h2⟩ := operator_subset hr
        rcases List.mem_cons.mp hv with heq | hmem
        · exact absurd heq.symm (h2 v)
        · refine ih (fun hdollar => ?_) hus hmem
          have hin := h1 ((List.dropWhile_suffix _).subset hdollar)
          rw [List.mem_cons] at hin
          exact hin.elim hd.1 hd.2

theorem printable_withModules {modules : Text} (hm : SymOk (.var modules)) {e : Expr}
    (he : Printable e) : Printable (withModules modules e) := by
  induction e with
  | item x =>
    obtain ⟨s, rfl, hs⟩ := he x List.mem_cons_self
    by_cases hms : s = .const "m".toList
    · have hw : withModules modules (.item (.sym s)) = .and .m (.sym modules) := if_pos ⟨rfl, hms⟩
      rw [hw]
      intro x hx
      rcases List.mem_pair.mp hx with rfl | rfl
      · exact ⟨.const "m".toList, rfl, hms ▸ hs⟩
      · exact ⟨.var modules, rfl, hm⟩
    · have hw : withModules modules (.item (.sym s)) = .item (.sym s) := if_neg fun h => hms h.2
      rwa [hw]
  | not e ih => exact ih he
  | and e1 e2 ih1 ih2 =>
    have h1 := ih1 fun x hx => he x (List.mem_append_left _ hx)
    have h2 := ih2 fun x hx => he x (List.mem_append_right _ hx)
    intro x hx
    exact (List.mem_append.mp hx).elim (h1 x) (h2 x)
  | or e1 e2 ih1 ih2 =>
    have h1 := ih1 fun x hx => he x (List.mem_append_left _ hx)
    have h2 := ih2 fun x hx => he x (List.mem_append_right _ hx)
    intro x hx
    exact (List.mem_append.mp hx).elim (h1 x) (h2 x)
  | rel r v1 v2 => exact he

/-- An expression that was parsed is printed as text that is parsed again, as an expression
that has the same value, whatever values the symbols and the relations have. -/
theorem parseString_exprStr {modules s : Text} {e : Expr} (hm : SymOk (.var modules))
    (hs : parseString modules s = some e) :
    ∃ e', parseString modules (exprStr e) = some e' ∧
      ∀ item rel, valueOf item rel e' = valueOf item rel e := by
  obtain ⟨ts, hts, hparse⟩ := Option.bind_eq_some_iff.mp hs
  rw [parseTokens_withModules] at hparse
  obtain ⟨e0, he0, rfl⟩ := Option.map_eq_some_iff.mp hparse
  have hd : '$' ∉ s := by
    intro hmem
    rw [tokenize, if_pos hmem] at hts
    cases hts
  rw [tokenize, if_neg hd] at hts
  have hprint0 : Printable e0 := by
    obtain ⟨r, hr, hrest⟩ := Option.bind_eq_some_iff.mp he0
    split_ifs at hrest
    obtain rfl := Option.some.inj hrest
    intro x hx
    obtain ⟨v, hv, hmem⟩ := ((parse_from modules _ ts).1 r hr).1 x hx
    refine ⟨v, hv, symOk_of_lexExpr (fun hdollar => hd ?_) hts hmem⟩
    exact (List.dropWhile_suffix _).subset hdollar
  have hprint := printable_withModules hm hprint0
  refine ⟨withModules modules (regroup (withModules modules e0)), ?_, fun item rel => ?_⟩
  · have hsyms : ∀ x ∈ exprItems (withModules modules e0), ∃ v, x = .sym v := by
      intro x hx
      obtain ⟨v, hv, -⟩ := hprint x hx
      exact ⟨v, hv⟩
    rw [parseString, tokenize_exprStr hprint, Option.bind_some, parseTokens_withModules,
      parseTokens_exprTokens hsyms]
    rfl
  · rw [valueOf_regroup, valueOf_withModules]

theorem parseString_exprStr_modules :
    ∃ e', parseString "MODULES".toList (exprStr (.or (.sym "A".toList)
        (.and (.and .m (.sym "MODULES".toList)) (.not (.sym "B".toList))))) = some e' ∧
      ∀ item rel, valueOf item rel e' = valueOf item rel (.or (.sym "A".toList)
        (.and (.and .m (.sym "MODULES".toList)) (.not (.sym "B".toList)))) := by
  have hparse : parseString "MODULES".toList "A || m && !B".toList =
      some (.or (.sym "A".toList)
        (.and (.and .m (.sym "MODULES".toList)) (.not (.sym "B".toList)))) := by
    decide +kernel
  have hm : SymOk (.var "MODULES".toList) :=
    ⟨by decide +kernel, by decide +kernel, by decide, by decide⟩
  exact parseString_exprStr hm hparse

end HaoosLfs.Menu
