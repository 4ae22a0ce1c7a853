import HaoosLfs.Menu.Symbols

/-!
# The lines of a configuration (`kconfiglib.py:915-918, 1197-1330, 4392-4413, 5978-5995, 6978`)

`config_string` writes the value of a symbol as a line, and `_load_config` takes lines
apart again. The prefix `CONFIG_` of the names is empty for all configurations here.
-/

namespace HaoosLfs.Menu

/-! ### Strings -/

def replaceChar (c : Char) (r : Text) (s : Text) : Text :=
  s.flatMap fun d => if d = c then r else [d]

def escape (s : Text) : Text := replaceChar '"' ['\\', '"'] (replaceChar '\\' ['\\', '\\'] s)

/-- The substitution of `\\(.)` by `\1`; a dot is no newline. -/
def unescape : Text → Text
  | [] => []
  | [c] => [c]
  | c :: d :: s => if c = '\\' ∧ d ≠ '\n' then d :: unescape s else c :: unescape (d :: s)

/-- After the opening quote of `_conf_string_match`: what stands before the closing one. -/
def quoted : Text → Option Text
  | [] => none
  | [c] => if c = '"' then some [] else none
  | c :: d :: s =>
    if c = '"' then some []
    else if c = '\\' then if d ≠ '\n' then (quoted s).map fun t => c :: d :: t else none
    else (quoted (d :: s)).map (c :: ·)

def confStringMatch : Text → Option Text
  | '"' :: s => quoted s
  | _ => none

def escapeChar (c : Char) : Text :=
  if c = '\\' then ['\\', '\\'] else if c = '"' then ['\\', '"'] else [c]

theorem escape_eq (s : Text) : escape s = s.flatMap escapeChar := by
  induction s with
  | nil => rfl
  | cons c s ih =>
    rw [List.flatMap_cons, ← ih]
    unfold escape replaceChar escapeChar
    rw [List.flatMap_cons, List.flatMap_append]
    split_ifs with h1 h2
    · rfl
    · rw [h2]
      rfl
    · simp [h2]

theorem unescape_plain {c : Char} (h : c ≠ '\\') (s : Text) :
    unescape (c :: s) = c :: unescape s := by
  cases s with
  | nil => rfl
  | cons d s => rw [unescape, if_neg fun hc => h hc.1]

theorem unescape_escape (s : Text) : unescape (escape s) = s := by
  rw [escape_eq]
  induction s with
  | nil => rfl
  | cons c s ih =>
    rw [List.flatMap_cons, escapeChar]
    split_ifs with h1 h2
    · rw [List.cons_append, List.cons_append, List.nil_append, unescape, if_pos (by decide), ih, h1]
    · rw [List.cons_append, List.cons_append, List.nil_append, unescape, if_pos (by decide), ih, h2]
    · rw [List.cons_append, List.nil_append, unescape_plain h1, ih]

theorem quoted_plain {c : Char} (h : c ≠ '\\') (hq : c ≠ '"') (s : Text) :
    quoted (c :: s) = (quoted s).map (c :: ·) := by
  cases s with
  | nil => simp [quoted, hq]
  | cons d s => rw [quoted, if_neg hq, if_neg h]

theorem quoted_escape (s rest : Text) : quoted (escape s ++ '"' :: rest) = some (escape s) := by
  rw [escape_eq]
  induction s with
  | nil => cases rest <;> simp [quoted]
  | cons c s ih =>
    rw [List.flatMap_cons, escapeChar]
    split_ifs with h1 h2
    · simp only [List.cons_append, List.nil_append, quoted, ih]
      rfl
    · simp only [List.cons_append, List.nil_append, quoted, ih]
      rfl
    · rw [List.cons_append, List.nil_append, List.cons_append, quoted_plain h1 h2, ih]
      rfl

/-! ### Assignments -/

def setMatch (line : Text) : Option (Text × Text) :=
  match line.takeWhile (· ≠ '='), line.dropWhile (· ≠ '=') with
  | c :: name, _ :: val => some (c :: name, val)
  | _, _ => none

/-- `_unset_match`; what follows the match is not looked at. -/
def unsetMatch (line : Text) : Option Text :=
  if ['#', ' '] <+: line then
    let rest := line.drop 2
    let name := rest.takeWhile (· ≠ ' ')
    if name ≠ [] ∧ " is not set".toList <+: rest.dropWhile (· ≠ ' ') then some name else none
  else none

def isTri (type : SymbolType) : Bool := type = .bool || type = .tristate

/-- `config_string`, with the value and `_write_to_conf` -/
def configString (name : Text) (type : SymbolType) (val : Text × Bool) : Text :=
  if !val.2 then []
  else if isTri type then
    if val.1 ≠ ['n'] then name ++ '=' :: (val.1 ++ ['\n'])
    else "# ".toList ++ (name ++ " is not set\n".toList)
  else if type = .int ∨ type = .hex then name ++ '=' :: (val.1 ++ ['\n'])
  else name ++ '=' :: '"' :: (escape val.1 ++ ['"', '\n'])

/-- What is passed on to `set_value` from the right-hand side of an assignment. -/
def assignedValue (type : SymbolType) (val : Text) : Option Text :=
  match type, val with
  | .bool, 'y' :: _ | .tristate, 'y' :: _ => some ['y']
  | .bool, 'n' :: _ | .tristate, 'n' :: _ => some ['n']
  | .tristate, 'm' :: _ => some ['m']
  | .bool, _ | .tristate, _ => none
  | .string, val => (confStringMatch val).map unescape
  | _, val => some val

/-- What `_load_config` makes of a line: an assignment that it passes on, one to an
undefined symbol, which `_undef_assign` records, or neither. -/
inductive ConfigLine where
  | assign (name val : Text)
  | undefined (name val : Text)
  | other
  deriving DecidableEq

def readLine (k : Kconfig) (line : Text) : ConfigLine :=
  let line := PyInt.rstrip line
  match setMatch line with
  | some (name, val) =>
    if name ∈ k.syms.map Prod.fst then
      match assignedValue (k.symbol name).origType val with
      | some v => .assign name v
      | none => .other
    else .undefined name val
  | none =>
    match unsetMatch line with
    | some name =>
      if name ∈ k.syms.map Prod.fst then
        if isTri (k.symbol name).origType then .assign name ['n'] else .other
      else .undefined name ['n']
    | none => .other

def IsWord (name : Text) : Prop := name ≠ [] ∧ ∀ c ∈ name, Kconfiglib.symChar c

instance (name : Text) : Decidable (IsWord name) :=
  decidable_of_iff (name ≠ [] ∧ name.all Kconfiglib.symChar) (by rw [IsWord, List.all_eq_true])

section

variable {name val : Text}

theorem IsWord.not_mem (h : IsWord name) {c : Char} (hc : Kconfiglib.symChar c = false) :
    c ∉ name := by
  intro hmem
  have hs := h.2 c hmem
  rw [hc] at hs
  cases hs

theorem setMatch_assign (h : IsWord name) (val : Text) :
    setMatch (name ++ '=' :: val) = some (name, val) := by
  have hne := h.not_mem (c := '=') (by decide)
  have hall : ∀ c ∈ name, (decide (c ≠ '=')) = true := by
    intro c hc
    rw [decide_eq_true_eq]
    rintro rfl
    exact hne hc
  obtain ⟨hnil, -⟩ := h
  unfold setMatch
  rw [Kconfiglib.takeWhile_append_stop hall (by simp),
    Kconfiglib.dropWhile_append_stop hall (by simp)]
  cases name with
  | nil => exact absurd rfl hnil
  | cons c name => rfl

theorem setMatch_of_not_mem {line : Text} (h : '=' ∉ line) : setMatch line = none := by
  have hall : ∀ c ∈ line, (decide (c ≠ '=')) = true := by
    intro c hc
    rw [decide_eq_true_eq]
    rintro rfl
    exact h hc
  have hdrop : line.dropWhile (fun c => decide (c ≠ '=')) = [] := by
    rw [List.dropWhile_eq_nil_iff]
    exact hall
  unfold setMatch
  rw [hdrop]
  split
  · rename_i hn
    cases hn
  · rfl

theorem unsetMatch_unset (h : IsWord name) (rest : Text) :
    unsetMatch ("# ".toList ++ (name ++ (" is not set".toList ++ rest))) = some name := by
  have hne := h.not_mem (c := ' ') (by decide)
  have hall : ∀ c ∈ name, (decide (c ≠ ' ')) = true := by
    intro c hc
    rw [decide_eq_true_eq]
    rintro rfl
    exact hne hc
  have hpre : ['#', ' '] <+: "# ".toList ++ (name ++ (" is not set".toList ++ rest)) :=
    ⟨_, rfl⟩
  have hdrop : ("# ".toList ++ (name ++ (" is not set".toList ++ rest))).drop 2 =
      name ++ (" is not set".toList ++ rest) := rfl
  have hstop : (" is not set".toList ++ rest).takeWhile (fun c => decide (c ≠ ' ')) = [] := rfl
  unfold unsetMatch
  rw [if_pos hpre]
  dsimp only
  rw [hdrop, Kconfiglib.takeWhile_append_stop hall hstop,
    Kconfiglib.dropWhile_append_stop hall hstop, if_pos ⟨h.1, List.prefix_append ..⟩]

/-- A value that a line can hold. -/
def Clean (type : SymbolType) (val : Text) : Prop :=
  match type with
  | .bool => val = ['n'] ∨ val = ['y']
  | .tristate => val = ['n'] ∨ val = ['m'] ∨ val = ['y']
  | .int | .hex => '\n' ∉ val ∧ '\r' ∉ val ∧ PyInt.rstrip val = val
  | .string | .unknown => '\n' ∉ val ∧ '\r' ∉ val

instance (type : SymbolType) (val : Text) : Decidable (Clean type val) :=
  match type with
  | .bool => inferInstanceAs (Decidable (_ ∨ _))
  | .tristate => inferInstanceAs (Decidable (_ ∨ _ ∨ _))
  | .int | .hex => inferInstanceAs (Decidable (_ ∧ _ ∧ _))
  | .string | .unknown => inferInstanceAs (Decidable (_ ∧ _))

theorem not_mem_escape {c : Char} (hb : c ≠ '\\') (hq : c ≠ '"') {s : Text} (h : c ∉ s) :
    c ∉ escape s := by
  rw [escape_eq, List.mem_flatMap]
  rintro ⟨d, hd, hc⟩
  unfold escapeChar at hc
  split_ifs at hc
  · simp [hb] at hc
  · simp [hb, hq] at hc
  · rw [List.mem_singleton] at hc
    exact h (hc ▸ hd)

theorem readLine_set {k : Kconfig} (hname : IsWord name)
    (hdef : name ∈ k.syms.map Prod.fst) {r : Text} (hr : PyInt.rstrip r = r)
    (hval : assignedValue (k.symbol name).origType r = some val) :
    readLine k (name ++ '=' :: r) = .assign name val := by
  unfold readLine
  rw [PyInt.rstrip_append_cons (by decide) hr]
  dsimp only
  rw [setMatch_assign hname]
  dsimp only
  rw [if_pos hdef, hval]

theorem rstrip_of_getLast {s : Text} {c : Char} (hs : s.getLast? = some c)
    (hc : PyInt.isSpace c = false) : PyInt.rstrip s = s := by
  refine PyInt.rstrip_eq_self fun d hd => ?_
  rw [← Option.some.inj (hs.symm.trans hd), hc]

theorem readLine_unset {k : Kconfig} (hname : IsWord name)
    (hdef : name ∈ k.syms.map Prod.fst) (htype : isTri (k.symbol name).origType) :
    readLine k ("# ".toList ++ (name ++ " is not set".toList)) = .assign name ['n'] := by
  have hne := hname.not_mem (c := '=') (by decide)
  have hset : setMatch ("# ".toList ++ (name ++ " is not set".toList)) = none := by
    refine setMatch_of_not_mem ?_
    simp only [List.mem_append, not_or]
    exact ⟨by decide, hne, by decide⟩
  have hunset : unsetMatch ("# ".toList ++ (name ++ " is not set".toList)) = some name := by
    have h := unsetMatch_unset hname []
    rwa [List.append_nil] at h
  have hstrip : PyInt.rstrip ("# ".toList ++ (name ++ " is not set".toList)) =
      "# ".toList ++ (name ++ " is not set".toList) := by
    refine rstrip_of_getLast (c := 't') ?_ (by decide)
    rw [List.getLast?_append, List.getLast?_append]
    rfl
  unfold readLine
  rw [hstrip]
  dsimp only
  rw [hset]
  dsimp only
  rw [hunset]
  dsimp only
  rw [if_pos hdef, if_pos htype]

theorem readLine_configString {k : Kconfig} (hname : IsWord name)
    (hdef : name ∈ k.syms.map Prod.fst) (htype : (k.symbol name).origType ≠ .unknown)
    (hval : Clean (k.symbol name).origType val) :
    ∃ line, configString name (k.symbol name).origType (val, true) = line ++ ['\n'] ∧
      '\n' ∉ line ∧ '\r' ∉ line ∧ readLine k line = .assign name val := by
  have hn := hname.not_mem (c := '\n') (by decide)
  have hr := hname.not_mem (c := '\r') (by decide)
  -- an assignment with the right-hand side `r`
  have hset : ∀ r : Text, '\n' ∉ r → '\r' ∉ r → PyInt.rstrip r = r →
      assignedValue (k.symbol name).origType r = some val →
      configString name (k.symbol name).origType (val, true) = name ++ '=' :: (r ++ ['\n']) →
      ∃ line, configString name (k.symbol name).origType (val, true) = line ++ ['\n'] ∧
        '\n' ∉ line ∧ '\r' ∉ line ∧ readLine k line = .assign name val := by
    intro r hrn hrr hrs hrv hline
    refine ⟨name ++ '=' :: r, ?_, ?_, ?_, readLine_set hname hdef hrs hrv⟩
    · rw [hline, List.append_assoc, List.cons_append]
    · simp [hn, hrn]
    · simp [hr, hrr]
  have hunset : isTri (k.symbol name).origType → val = ['n'] →
      ∃ line, configString name (k.symbol name).origType (val, true) = line ++ ['\n'] ∧
        '\n' ∉ line ∧ '\r' ∉ line ∧ readLine k line = .assign name val := by
    intro ht hv
    refine ⟨"# ".toList ++ (name ++ " is not set".toList), ?_, ?_, ?_, ?_⟩
    · simp [configString, ht, hv]
    · simp only [List.mem_append, not_or]
      exact ⟨by decide, hn, by decide⟩
    · simp only [List.mem_append, not_or]
      exact ⟨by decide, hr, by decide⟩
    · rw [hv]
      exact readLine_unset hname hdef ht
  generalize (k.symbol name).origType = type at *
  cases type with
  | unknown => exact absurd rfl htype
  | bool =>
    rcases hval with rfl | rfl
    · exact hunset rfl rfl
    · exact hset ['y'] (by decide) (by decide) (by decide) rfl rfl
  | tristate =>
    rcases hval with rfl | rfl | rfl
    · exact hunset rfl rfl
    · exact hset ['m'] (by decide) (by decide) (by decide) rfl rfl
    · exact hset ['y'] (by decide) (by decide) (by decide) rfl rfl
  | int => exact hset val hval.1 hval.2.1 hval.2.2 rfl rfl
  | hex => exact hset val hval.1 hval.2.1 hval.2.2 rfl rfl
  | string =>
    have hmem : ∀ c : Char, c ≠ '\\' → c ≠ '"' → c ∉ val → c ∉ '"' :: (escape val ++ ['"']) := by
      intro c hb hq hc
      simp [hq, not_mem_escape hb hq hc]
    refine hset ('"' :: (escape val ++ ['"'])) (hmem _ (by decide) (by decide) hval.1)
      (hmem _ (by decide) (by decide) hval.2) ?_ ?_ ?_
    · refine rstrip_of_getLast (c := '"') ?_ (by decide)
      rw [← List.cons_append, List.getLast?_concat]
    · simp [assignedValue, confStringMatch, quoted_escape, unescape_escape]
    · simp [configString, isTri]

end

end HaoosLfs.Menu
