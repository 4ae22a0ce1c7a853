import HaoosLfs.Lib.ShellWords

/-!
# What the shell makes of a text that is not quoted

The value of a variable outside quotes is split into words, and each word is replaced by the
paths that it matches as a pattern. The text of an assignment stands for itself only where no
character in it is special.
-/

namespace HaoosLfs.ShellWords

/-! ### Pathname expansion -/

/-- What follows a `[`: at least one character, before which a negation may stand, and later
a `]`. -/
def closesBracket (s : Text) : Bool :=
  match (if s.head? = some '!' ∨ s.head? = some '^' then s.drop 1 else s) with
  | [] => false
  | _ :: rest => rest.contains ']'

def hasPattern : Text → Bool
  | [] => false
  | c :: s => c = '*' || c = '?' || (c = '[' && closesBracket s) || hasPattern s

theorem closesBracket_append {s : Text} (t : Text) (h : closesBracket s) :
    closesBracket (s ++ t) := by
  unfold closesBracket at h ⊢
  cases s with
  | nil => simp at h
  | cons c s =>
    simp only [List.cons_append, List.head?_cons, List.drop_succ_cons, List.drop_zero] at h ⊢
    split_ifs at h ⊢ with hneg
    · cases s with
      | nil => cases h
      | cons d s =>
        simp only [List.cons_append, List.contains_iff_mem, List.mem_append] at h ⊢
        exact .inl h
    · simp only [List.contains_iff_mem, List.mem_append] at h ⊢
      exact .inl h

theorem hasPattern_append {s : Text} (t : Text) (h : hasPattern (s ++ t) = false) :
    hasPattern s = false := by
  induction s with
  | nil => rfl
  | cons c s ih =>
    simp only [List.cons_append, hasPattern, Bool.or_eq_false_iff, Bool.and_eq_false_iff] at h ⊢
    refine ⟨⟨h.1.1, h.1.2.imp_right fun hclose => ?_⟩, ih h.2⟩
    rw [Bool.eq_false_iff] at hclose ⊢
    exact fun hs => hclose (closesBracket_append t hs)

/-- Pathname expansion, as the directories stand: a word with a pattern in it may become any
paths, and stays as it is when there are none. -/
structure Pathnames where
  expand : Text → List Text
  literal : ∀ w, hasPattern w = false → expand w = [w]
  ne_nil : ∀ w, expand w ≠ []

/-- No path matches a pattern. -/
def noMatches : Pathnames := ⟨fun w => [w], fun _ _ => rfl, fun _ => List.cons_ne_nil _ _⟩

/-- This word, if it has a pattern in it, matches this path and no other. -/
def matchesOne (pattern path : Text) (h : hasPattern pattern) : Pathnames where
  expand w := if w = pattern then [path] else [w]
  literal w hw := if_neg fun he => by rw [he, h] at hw; cases hw
  ne_nil w := by split_ifs <;> exact List.cons_ne_nil _ _

namespace Pathnames
variable (e : Pathnames)

/-- The words that the value of a variable becomes outside quotes. -/
def unquoted (s : Text) : List Text := (words s).flatMap e.expand

/-- The operand of a command that is given one value: there is none when the value is several
words, or one that looks like an option. -/
def operand (s : Text) : Option Text :=
  match e.unquoted s with
  | [w] => if w.head? = some '-' then none else some w
  | _ => none

theorem unquoted_plain {s : Text} (hne : s ≠ []) (hblank : ∀ c ∈ s, isIfs c = false)
    (hpattern : hasPattern s = false) : e.unquoted s = [s] := by
  rw [unquoted, words_plain hne hblank, List.flatMap_singleton, e.literal s hpattern]

theorem unquoted_joinLines (ls : List Text) :
    e.unquoted (joinLines ls) = ls.flatMap e.unquoted := by
  rw [unquoted, words_joinLines, List.flatMap_assoc]
  rfl

end Pathnames

@[simp] theorem noMatches_unquoted (s : Text) : noMatches.unquoted s = words s :=
  List.flatMap_singleton' _

/-- A text is one word in all directories exactly when nothing in it is split or matched. -/
theorem forall_unquoted_iff {s : Text} (hne : s ≠ []) :
    (∀ e : Pathnames, e.unquoted s = [s]) ↔
      (∀ c ∈ s, isIfs c = false) ∧ hasPattern s = false := by
  constructor
  · intro h
    have hblank : ∀ c ∈ s, isIfs c = false := by
      rw [← words_eq_self_iff hne, ← noMatches_unquoted]
      exact h noMatches
    refine ⟨hblank, Bool.eq_false_iff.mpr fun hp => ?_⟩
    -- a directory in which only a longer name matches
    have hlong := h (matchesOne s (s ++ ['a']) hp)
    rw [Pathnames.unquoted, words_plain hne hblank, List.flatMap_singleton] at hlong
    have hexpand : (matchesOne s (s ++ ['a']) hp).expand s = [s ++ ['a']] := if_pos rfl
    rw [hexpand] at hlong
    have hlen := congrArg List.length (List.cons.inj hlong).1
    simp at hlen
  · rintro ⟨hblank, hp⟩ e
    exact e.unquoted_plain hne hblank hp

theorem forall_operand_iff {s : Text} (hne : s ≠ []) :
    (∀ e : Pathnames, e.operand s = some s) ↔
      ((∀ c ∈ s, isIfs c = false) ∧ hasPattern s = false) ∧ s.head? ≠ some '-' := by
  rw [← forall_unquoted_iff hne]
  have hone : ∀ e : Pathnames, e.operand s = some s ↔ e.unquoted s = [s] ∧ s.head? ≠ some '-' := by
    intro e
    unfold Pathnames.operand
    constructor
    · intro h
      split at h
      · next w hw =>
        split_ifs at h with hdash
        obtain rfl := Option.some.inj h
        exact ⟨hw, hdash⟩
      · cases h
    · rintro ⟨hw, hdash⟩
      rw [hw]
      exact if_neg hdash
  constructor
  · exact fun h => ⟨fun e => ((hone e).mp (h e)).1, ((hone noMatches).mp (h noMatches)).2⟩
  · exact fun h e => (hone e).mpr ⟨h.1 e, h.2⟩

/-! ### Assignments -/

/-- A `$` before this text begins no expansion. -/
def dollarStands (s : Text) : Bool :=
  !s.head?.any fun c => c.isAlphanum || c ∈ "_*@#?-$!\x7b(['\"".toList

/-- A character that does not stand for itself before this text, quotes and backslashes apart;
`tilde` where a user's directory may be named. -/
def isSpecial (tilde : Bool) (c : Char) (s : Text) : Bool :=
  endsWord c || c = '"' || c = '\x60' || (c = '$' && !dollarStands s) || (tilde && c = '~')

/-- The value of an assignment of this text, by the rules for single quotes and backslashes.
There is none when other rules are needed or the assignment ends before the text does. -/
def readValue : Bool → Quoting → Text → Option Text
  | _, .plain, [] => some []
  | _, .quoted, [] => none
  | _, .escaped, [] => none
  | tilde, .plain, c :: s =>
    if c = '\'' then readValue false .quoted s
    else if c = '\\' then readValue false .escaped s
    else if isSpecial tilde c s then none
    else (readValue (c = ':') .plain s).map (c :: ·)
  | _, .quoted, c :: s =>
    if c = '\'' then readValue false .plain s else (readValue false .quoted s).map (c :: ·)
  | _, .escaped, c :: s => (readValue false .plain s).map (c :: ·)

/-- `NAME=text` -/
def assigned (s : Text) : Option Text := readValue true .plain s

def literalFrom : Bool → Text → Bool
  | _, [] => true
  | tilde, c :: s =>
    c ≠ '\'' && c ≠ '\\' && !isSpecial tilde c s && literalFrom (c = ':') s

/-- No character of the text is special in an assignment. -/
def isLiteral (s : Text) : Bool := literalFrom true s

theorem length_readValue {tilde : Bool} {q : Quoting} {s v : Text}
    (h : readValue tilde q s = some v) : v.length ≤ s.length := by
  induction s generalizing tilde q v with
  | nil =>
    cases q with
    | plain => rw [← Option.some.inj h]
    | quoted => cases h
    | escaped => cases h
  | cons c s ih =>
    have hmap : ∀ {r : Option Text}, (∀ u, r = some u → u.length ≤ s.length) →
        r.map (c :: ·) = some v → v.length ≤ s.length + 1 := by
      intro r hr hv
      obtain ⟨u, hu, rfl⟩ := Option.map_eq_some_iff.mp hv
      exact Nat.succ_le_succ (hr u hu)
    rw [List.length_cons]
    cases q with
    | plain =>
      rw [readValue] at h
      split_ifs at h
      · exact (ih h).trans (Nat.le_succ _)
      · exact (ih h).trans (Nat.le_succ _)
      · exact hmap (fun _ => ih) h
    | quoted =>
      rw [readValue] at h
      split_ifs at h
      · exact (ih h).trans (Nat.le_succ _)
      · exact hmap (fun _ => ih) h
    | escaped => exact hmap (fun _ => ih) h

theorem readValue_plain_iff {tilde : Bool} {s : Text} :
    readValue tilde .plain s = some s ↔ literalFrom tilde s := by
  induction s generalizing tilde with
  | nil => exact iff_of_true rfl rfl
  | cons c s ih =>
    rw [readValue, literalFrom]
    -- a quote or a backslash makes the value shorter than the text
    have hshort : ∀ q, readValue false q s ≠ some (c :: s) := by
      intro q h
      have hlen := length_readValue h
      rw [List.length_cons] at hlen
      omega
    by_cases hq : c = '\''
    · rw [if_pos hq]
      exact iff_of_false (hshort _) (by simp [hq])
    · by_cases hb : c = '\\'
      · rw [if_neg hq, if_pos hb]
        exact iff_of_false (hshort _) (by simp [hb])
      · by_cases hs : isSpecial tilde c s
        · simp [hq, hb, hs]
        · simp [hq, hb, hs, ih]

/-- An assignment gives its text exactly when no character of the text is special. -/
theorem assigned_eq_self_iff {s : Text} : assigned s = some s ↔ isLiteral s :=
  readValue_plain_iff

/-! ### Assignments of any value -/

/-- Where a reader of quoted text stands. -/
inductive Span where
  | plain
  | single
  | double
  | escaped
  | doubleEscaped
  deriving DecidableEq

/-- No command is executed for this character, and no expansion begins that may be refused. -/
def isCertain (c : Char) (s : Text) : Bool :=
  c ≠ '\x60' && !(c = '$' && s.head?.any fun d => d ∈ "(\x7b['\"".toList)

/-- The assignment of this text is the whole command and is certain to end well; its value may
depend on the variables. -/
def endsWellFrom : Span → Text → Bool
  | .plain, [] => true
  | .single, [] => false
  | .double, [] => false
  | .escaped, [] => false
  | .doubleEscaped, [] => false
  | .plain, c :: s =>
    if c = '\'' then endsWellFrom .single s
    else if c = '"' then endsWellFrom .double s
    else if c = '\\' then endsWellFrom .escaped s
    else !endsWord c && isCertain c s && endsWellFrom .plain s
  | .single, c :: s => if c = '\'' then endsWellFrom .plain s else endsWellFrom .single s
  | .double, c :: s =>
    if c = '"' then endsWellFrom .plain s
    else if c = '\\' then endsWellFrom .doubleEscaped s
    else isCertain c s && endsWellFrom .double s
  | .escaped, _ :: s => endsWellFrom .plain s
  | .doubleEscaped, _ :: s => endsWellFrom .double s

def endsWell (s : Text) : Bool := endsWellFrom .plain s

theorem endsWellFrom_of_literalFrom {tilde : Bool} {s : Text} (h : literalFrom tilde s) :
    endsWellFrom .plain s := by
  induction s generalizing tilde with
  | nil => rfl
  | cons c s ih =>
    simp only [literalFrom, isSpecial, Bool.and_eq_true, Bool.not_eq_true', Bool.or_eq_false_iff,
      decide_eq_true_eq, decide_eq_false_iff_not] at h
    obtain ⟨⟨⟨hquote, hslash⟩, ⟨⟨⟨hends, hdouble⟩, hback⟩, hdollar⟩, -⟩, hs⟩ := h
    have hcertain : isCertain c s := by
      unfold isCertain
      rw [Bool.and_eq_true, decide_eq_true_eq, Bool.not_eq_true']
      refine ⟨hback, ?_⟩
      cases s with
      | nil => simp
      | cons d s =>
        simp only [dollarStands, List.head?_cons, Option.any_some] at hdollar ⊢
        grind
    rw [endsWellFrom, if_neg hquote, if_neg hdouble, if_neg hslash, hends, hcertain, ih hs]
    rfl

theorem endsWell_of_isLiteral {s : Text} (h : isLiteral s) : endsWell s :=
  endsWellFrom_of_literalFrom h

end HaoosLfs.ShellWords
