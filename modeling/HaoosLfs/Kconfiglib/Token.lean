import HaoosLfs.Lib.Text

/-!
# The tokens of a Kconfig line (`kconfiglib.py:2217-2430`)

What `_tokenize` makes of a line. Macros, escapes, variable assignments and
operators are left out: a line that has them yields nothing here, like a line that
is refused.
-/

namespace HaoosLfs.Kconfiglib
open Text

inductive Keyword where
  | allnoconfigY | bool | choice | comment | config | defBool | defHex | defInt | defString
  | defTristate | default | defconfigList | depends | endchoice | endif | endmenu | env | help
  | hex | if | imply | int | mainmenu | menu | menuconfig | modules | on | option | optional
  | orsource | osource | prompt | range | rsource | select | source | string | tristate | visible
  deriving DecidableEq

def keywords : List (String × Keyword) :=
  [("---help---", .help), ("allnoconfig_y", .allnoconfigY), ("bool", .bool), ("boolean", .bool),
    ("choice", .choice), ("comment", .comment), ("config", .config), ("def_bool", .defBool),
    ("def_hex", .defHex), ("def_int", .defInt), ("def_string", .defString),
    ("def_tristate", .defTristate), ("default", .default), ("defconfig_list", .defconfigList),
    ("depends", .depends), ("endchoice", .endchoice), ("endif", .endif), ("endmenu", .endmenu),
    ("env", .env), ("grsource", .orsource), ("gsource", .osource), ("help", .help), ("hex", .hex),
    ("if", .if), ("imply", .imply), ("int", .int), ("mainmenu", .mainmenu), ("menu", .menu),
    ("menuconfig", .menuconfig), ("modules", .modules), ("on", .on), ("option", .option),
    ("optional", .optional), ("orsource", .orsource), ("osource", .osource), ("prompt", .prompt),
    ("range", .range), ("rsource", .rsource), ("select", .select), ("source", .source),
    ("string", .string), ("tristate", .tristate), ("visible", .visible)]

def getKeyword (word : Text) : Option Keyword :=
  (keywords.find? fun k => k.1.toList = word).map Prod.snd

inductive Token where
  | keyword (k : Keyword)
  | sym (name : Text)
  | const (name : Text)
  | str (s : Text)
  deriving DecidableEq

/-- `_STRING_LEX`: after these an unquoted word is a string. -/
def stringLex : List Keyword :=
  [.bool, .choice, .comment, .hex, .int, .mainmenu, .menu, .orsource, .osource, .prompt, .rsource,
    .source, .string, .tristate]

def takesString : Token → Bool
  | .keyword k => k ∈ stringLex
  | _ => false

def commandChar (c : Char) : Bool := c.isAlphanum || c = '_' || c = '$' || c = '-'

def symChar (c : Char) : Bool :=
  c.isAlphanum || c = '_' || c = '$' || c = '/' || c = '.' || c = '-'

def plainChar (c : Char) : Bool := c ≠ '$' && c ≠ '\\'

def triNames : List Text := ["n".toList, "m".toList, "y".toList]

def wordToken (word : Text) : Token :=
  match getKeyword word with
  | some k => .keyword k
  | none => if word ∈ triNames then .const word else .sym word

/-- The tokens after the first one; every token takes at least one character. -/
def lexRest : ℕ → Token → Text → Option (List Token)
  | _, _, [] => some []
  | 0, _, _ :: _ => none
  | fuel + 1, prev, c :: s =>
    if symChar c then
      let word := c :: s.takeWhile symChar
      let token := if takesString prev && (getKeyword word).isNone then .str word
        else wordToken word
      (lexRest fuel token ((s.dropWhile symChar).dropWhile isSpace)).map fun ts => token :: ts
    else if c = '"' || c = '\'' then
      match splitFirst [c] s with
      | some (val, rest) =>
        let token := if takesString prev then .str val else .const val
        (lexRest fuel token (rest.dropWhile isSpace)).map fun ts => token :: ts
      | none => none
    else if c = '#' then some []
    else none

def lexLine (s : Text) : Option (List Token) :=
  let t := s.dropWhile isSpace
  let word := t.takeWhile commandChar
  let rest := (t.dropWhile commandChar).dropWhile isSpace
  if !s.all plainChar then none
  else if word = [] then if t = [] || t.head? = some '#' then some [] else none
  else
    match getKeyword word with
    | some k => (lexRest rest.length (.keyword k) rest).map fun ts => .keyword k :: ts
    | none => none

/-! ### Lines of one keyword, words and strings -/

theorem not_space_of_commandChar {c : Char} (h : commandChar c) : isSpace c = false := by
  by_contra hs
  simp only [isSpace, Bool.not_eq_false, List.mem_cons, List.not_mem_nil, or_false,
    decide_eq_true_eq] at hs
  rcases hs with rfl | rfl | rfl | rfl | rfl | rfl <;> exact absurd h (by decide)

theorem takeWhile_append_stop {p : Char → Bool} {s t : Text} (hs : ∀ c ∈ s, p c)
    (ht : t.takeWhile p = []) : (s ++ t).takeWhile p = s := by
  rw [List.takeWhile_append_of_pos hs, ht, List.append_nil]

theorem dropWhile_append_stop {p : Char → Bool} {s t : Text} (hs : ∀ c ∈ s, p c)
    (ht : t.takeWhile p = []) : (s ++ t).dropWhile p = t := by
  have h := List.takeWhile_append_dropWhile (p := p) (l := t)
  rw [ht, List.nil_append] at h
  rw [List.dropWhile_append_of_pos hs, h]

theorem lexLine_keyword {indent word rest : Text} {k : Keyword} (hindent : indent.all isSpace)
    (hword : word.all commandChar) (hk : getKeyword word = some k) (hne : word ≠ [])
    (hplain : (indent ++ (word ++ ' ' :: rest)).all plainChar) :
    lexLine (indent ++ (word ++ ' ' :: rest)) =
      (lexRest (rest.dropWhile isSpace).length (.keyword k) (rest.dropWhile isSpace)).map
        fun ts => .keyword k :: ts := by
  have hw := List.all_eq_true.mp hword
  have hstart : (word ++ ' ' :: rest).takeWhile isSpace = [] := by
    cases word with
    | nil => exact absurd rfl hne
    | cons c word =>
      rw [List.cons_append, List.takeWhile_cons_of_neg]
      rw [not_space_of_commandChar (hw c List.mem_cons_self)]
      decide
  have hstop : (' ' :: rest).takeWhile commandChar = [] := rfl
  have hspace : (' ' :: rest).dropWhile isSpace = rest.dropWhile isSpace := rfl
  unfold lexLine
  simp only [hplain, dropWhile_append_stop (List.all_eq_true.mp hindent) hstart,
    takeWhile_append_stop hw hstop, dropWhile_append_stop hw hstop, hspace, hne, hk, if_false,
    Bool.not_true, Bool.false_eq_true]

theorem lexRest_word {fuel : ℕ} {prev : Token} {word rest : Text} (hne : word ≠ [])
    (hword : word.all symChar) (hrest : rest.takeWhile symChar = []) :
    lexRest (fuel + 1) prev (word ++ rest) =
      let token := if takesString prev && (getKeyword word).isNone then .str word
        else wordToken word
      (lexRest fuel token (rest.dropWhile isSpace)).map fun ts => token :: ts := by
  cases word with
  | nil => exact absurd rfl hne
  | cons c word =>
    rw [List.all_cons, Bool.and_eq_true] at hword
    have hw := List.all_eq_true.mp hword.2
    rw [List.cons_append, lexRest, if_pos hword.1, takeWhile_append_stop hw hrest,
      dropWhile_append_stop hw hrest]

theorem lexRest_quoted {fuel : ℕ} {prev : Token} {val rest : Text} (h : '"' ∉ val) :
    lexRest (fuel + 1) prev ('"' :: (val ++ '"' :: rest)) =
      let token := if takesString prev then .str val else .const val
      (lexRest fuel token (rest.dropWhile isSpace)).map fun ts => token :: ts := by
  rw [lexRest, if_neg (by decide), if_pos (by decide), splitFirst_singleton h]

example : lexLine "\tconfig gcc-pass1\n".toList =
    some [.keyword .config, .sym "gcc-pass1".toList] := by decide

end HaoosLfs.Kconfiglib
