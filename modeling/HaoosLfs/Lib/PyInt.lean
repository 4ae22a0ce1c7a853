import HaoosLfs.Lib.Text

/-!
# Integers and their numerals in Python

`int(s, base)` for the bases 10, 16 and 0 (where the prefix tells the base), and the
numerals that `str` and `hex` write. `int` first reads the spaces and the decimal digits of
all scripts (those of Unicode 14) as the ones of ASCII.
-/

namespace HaoosLfs.PyInt

def spaceCodes : List ℕ :=
  [9, 10, 11, 12, 13, 28, 29, 30, 31, 32, 133, 160, 5760, 8192, 8193, 8194, 8195, 8196, 8197, 8198,
    8199, 8200, 8201, 8202, 8232, 8233, 8239, 8287, 12288]

def isSpace (c : Char) : Bool := spaceCodes.contains c.toNat

def rstrip (s : Text) : Text := (s.reverse.dropWhile isSpace).reverse

/-- The zeros of the other scripts; the nine other digits follow each. -/
def zeroCodes : List ℕ :=
  [1632, 1776, 1984, 2406, 2534, 2662, 2790, 2918, 3046, 3174, 3302, 3430, 3558, 3664, 3792, 3872,
    4160, 4240, 6112, 6160, 6470, 6608, 6784, 6800, 6992, 7088, 7232, 7248, 42528, 43216, 43264,
    43472, 43504, 43600, 44016, 65296, 66720, 68912, 69734, 69872, 69942, 70096, 70384, 70736,
    70864, 71248, 71360, 71472, 71904, 72016, 72784, 73040, 73120, 92768, 92864, 93008, 120782,
    120792, 120802, 120812, 120822, 123200, 123632, 125264, 130032]

def decimal (c : Char) : Option ℕ :=
  (zeroCodes.find? fun n => decide (n ≤ c.toNat ∧ c.toNat < n + 10)).map (c.toNat - ·)

/-- `_PyUnicode_TransformDecimalAndSpaceToASCII` -/
def toAscii (c : Char) : Char :=
  if c.toNat < 127 then c
  else if isSpace c then ' '
  else ((decimal c).map Nat.digitChar).getD '?'

/-- The spaces around a numeral, which are only those of ASCII. -/
def isCSpace (c : Char) : Bool := c = ' ' || (9 ≤ c.toNat && c.toNat ≤ 13)

def trim (s : Text) : Text := ((s.dropWhile isCSpace).reverse.dropWhile isCSpace).reverse

def digitValue (c : Char) : Option ℕ :=
  if '0' ≤ c ∧ c ≤ '9' then some (c.toNat - 48)
  else if 'a' ≤ c ∧ c ≤ 'z' then some (c.toNat - 87)
  else if 'A' ≤ c ∧ c ≤ 'Z' then some (c.toNat - 55)
  else none

/-- The digits of `base` after the value `n`; single underscores may separate them.
`afterDigit` tells that the last character was a digit. -/
def digits (base : ℕ) : ℕ → Bool → Text → Option ℕ
  | n, afterDigit, [] => if afterDigit then some n else none
  | n, afterDigit, c :: s =>
    if c = '_' then if afterDigit then digits base n false s else none
    else
      match digitValue c with
      | some d => if d < base then digits base (n * base + d) true s else none
      | none => none

def afterPrefix (base : ℕ) : Text → Option ℕ
  | '_' :: s => digits base 0 false s
  | s => digits base 0 false s

def parseNat (base : ℕ) : Text → Option ℕ
  | '0' :: 'x' :: s | '0' :: 'X' :: s =>
    if base = 16 ∨ base = 0 then afterPrefix 16 s else none
  | '0' :: 'o' :: s | '0' :: 'O' :: s => if base = 0 then afterPrefix 8 s else none
  | '0' :: 'b' :: s =>
    if base = 0 then afterPrefix 2 s else digits base 0 false ('0' :: 'b' :: s)
  | '0' :: 'B' :: s =>
    if base = 0 then afterPrefix 2 s else digits base 0 false ('0' :: 'B' :: s)
  | '0' :: s =>
    if base = 0 then
      -- only zeros may follow
      (digits 10 0 false ('0' :: s)).bind fun n => if n = 0 then some 0 else none
    else digits base 0 false ('0' :: s)
  | s => digits (if base = 0 then 10 else base) 0 false s

def parseInt (base : ℕ) (s : Text) : Option ℤ :=
  match trim (s.map toAscii) with
  | '-' :: t => (parseNat base t).map fun n : ℕ => -(n : ℤ)
  | '+' :: t => (parseNat base t).map fun n : ℕ => (n : ℤ)
  | t => (parseNat base t).map fun n : ℕ => (n : ℤ)

def isBaseN (s : Text) (base : ℕ) : Bool := (parseInt base s).isSome

/-! ### Numerals -/

def sign (z : ℤ) : Text := if z < 0 then ['-'] else []

/-- `str(z)` and `hex(z)` -/
def str (z : ℤ) : Text := sign z ++ Nat.toDigits 10 z.natAbs
def hex (z : ℤ) : Text := sign z ++ '0' :: 'x' :: Nat.toDigits 16 z.natAbs

theorem digitValue_digitChar {d : ℕ} (h : d < 16) : digitValue d.digitChar = some d := by
  have key : ∀ d < 16, digitValue d.digitChar = some d := by decide
  exact key d h

theorem digitChar_ne {d : ℕ} (h : d < 16) : d.digitChar ≠ '_' ∧ d.digitChar ≠ '-' ∧
    d.digitChar ≠ '+' ∧ d.digitChar ≠ 'x' ∧ d.digitChar ≠ 'X' ∧ d.digitChar ≠ 'o' ∧
    d.digitChar ≠ 'O' ∧ toAscii d.digitChar = d.digitChar ∧ isCSpace d.digitChar = false := by
  have key : ∀ d < 16, d.digitChar ≠ '_' ∧ d.digitChar ≠ '-' ∧ d.digitChar ≠ '+' ∧
      d.digitChar ≠ 'x' ∧ d.digitChar ≠ 'X' ∧ d.digitChar ≠ 'o' ∧ d.digitChar ≠ 'O' ∧
      toAscii d.digitChar = d.digitChar ∧ isCSpace d.digitChar = false := by decide
  exact key d h

theorem digits_digitChar {base d : ℕ} (hd : d < base) (h16 : base ≤ 16) (n : ℕ) (a : Bool)
    (s : Text) : digits base n a (d.digitChar :: s) = digits base (n * base + d) true s := by
  have h := digitChar_ne (d := d) (by omega)
  rw [digits, if_neg h.1, digitValue_digitChar (by omega)]
  exact if_pos hd

theorem digits_toDigits (base : ℕ) (hb : 2 ≤ base) (h16 : base ≤ 16) (n : ℕ) (a : Bool)
    (s : Text) : digits base 0 a (Nat.toDigits base n ++ s) = digits base n true s := by
  induction n using Nat.strong_induction_on generalizing s with
  | _ n ih =>
    by_cases h : n < base
    · rw [Nat.toDigits_of_lt_base h, List.singleton_append, digits_digitChar h h16, zero_mul,
        zero_add]
    · have hmod : n % base < base := Nat.mod_lt _ (by omega)
      rw [Nat.toDigits_of_base_le (by omega) (by omega), List.append_assoc,
        ih _ (Nat.div_lt_self (by omega) (by omega)), List.singleton_append,
        digits_digitChar hmod h16, Nat.div_add_mod']

theorem toDigits_mem (base : ℕ) (hb : 2 ≤ base) {n : ℕ} {c : Char}
    (h : c ∈ Nat.toDigits base n) : ∃ d < base, c = d.digitChar := by
  induction n using Nat.strong_induction_on with
  | _ n ih =>
    by_cases hn : n < base
    · rw [Nat.toDigits_of_lt_base hn] at h
      exact ⟨n, hn, List.mem_singleton.mp h⟩
    · rw [Nat.toDigits_of_base_le (by omega) (by omega)] at h
      rcases List.mem_append.mp h with h | h
      · exact ih _ (Nat.div_lt_self (by omega) (by omega)) h
      · exact ⟨n % base, Nat.mod_lt _ (by omega), List.mem_singleton.mp h⟩

/-! ### White space around a text -/

theorem rstrip_eq_self {s : Text} (h : ∀ c, s.getLast? = some c → isSpace c = false) :
    rstrip s = s := by
  rcases List.eq_nil_or_concat' s with rfl | ⟨a, c, rfl⟩
  · rfl
  · have hc := h c (by simp)
    simp [rstrip, hc]

theorem not_space_of_rstrip {s : Text} (h : rstrip s = s) {c : Char} (hc : s.getLast? = some c) :
    isSpace c = false := by
  obtain ⟨a, rfl⟩ := List.getLast?_eq_some_iff.mp hc
  by_contra hs
  rw [Bool.not_eq_false] at hs
  have hlen := congrArg List.length h
  simp only [rstrip, List.reverse_append, List.reverse_cons, List.reverse_nil, List.nil_append,
    List.singleton_append, List.dropWhile_cons_of_pos hs, List.length_reverse, List.length_append,
    List.length_singleton] at hlen
  have hle := (List.dropWhile_suffix isSpace (l := a.reverse)).length_le
  rw [List.length_reverse] at hle
  omega

theorem rstrip_append_cons {a s : Text} {c : Char} (hc : isSpace c = false) (hs : rstrip s = s) :
    rstrip (a ++ c :: s) = a ++ c :: s := by
  refine rstrip_eq_self fun d hd => ?_
  cases hl : s.getLast? with
  | none =>
    rw [List.getLast?_eq_none_iff.mp hl, List.getLast?_concat] at hd
    rw [← Option.some.inj hd, hc]
  | some e =>
    rw [List.getLast?_append, List.getLast?_cons, hl, Option.getD_some, Option.some_or] at hd
    rw [← Option.some.inj hd]
    exact not_space_of_rstrip hs hl

theorem trim_eq_self {s : Text} (h : ∀ c ∈ s, isCSpace c = false) : trim s = s := by
  have hdrop : ∀ t : Text, (∀ c ∈ t, isCSpace c = false) → t.dropWhile isCSpace = t := by
    intro t ht
    cases t with
    | nil => rfl
    | cons c t =>
      have hc := ht c List.mem_cons_self
      exact List.dropWhile_cons_of_neg (by simp [hc])
  rw [trim, hdrop s h, hdrop s.reverse fun c hc => h c (List.mem_reverse.mp hc),
    List.reverse_reverse]

/-! ### Reading a numeral back -/

theorem parseNat_toDigits (n : ℕ) : parseNat 10 (Nat.toDigits 10 n) = some n := by
  have hall : ∀ c ∈ Nat.toDigits 10 n, ∃ d < 10, c = d.digitChar :=
    fun c hc => toDigits_mem _ (by omega) hc
  have hdigits : digits 10 0 false (Nat.toDigits 10 n) = some n := by
    have h := digits_toDigits 10 (by omega) (by omega) n false []
    rwa [List.append_nil] at h
  -- no second character is a letter
  have hsecond : ∀ c s, Nat.toDigits 10 n = '0' :: c :: s →
      c ≠ 'x' ∧ c ≠ 'X' ∧ c ≠ 'o' ∧ c ≠ 'O' := by
    intro c s h
    obtain ⟨d, hd, rfl⟩ := hall c (by rw [h]; simp)
    have := digitChar_ne (d := d) (by omega)
    exact ⟨this.2.2.2.1, this.2.2.2.2.1, this.2.2.2.2.2.1, this.2.2.2.2.2.2.1⟩
  rw [← hdigits]
  generalize Nat.toDigits 10 n = s at hsecond
  unfold parseNat
  split
  · exact absurd rfl (hsecond _ _ rfl).1
  · exact absurd rfl (hsecond _ _ rfl).2.1
  · exact absurd rfl (hsecond _ _ rfl).2.2.1
  · exact absurd rfl (hsecond _ _ rfl).2.2.2
  · rfl
  · rfl
  · rfl
  · rfl

theorem parseNat_hex (n : ℕ) : parseNat 16 ('0' :: 'x' :: Nat.toDigits 16 n) = some n := by
  have hdigits : digits 16 0 false (Nat.toDigits 16 n) = some n := by
    have h := digits_toDigits 16 (by omega) (by omega) n false []
    rwa [List.append_nil] at h
  have hprefix : afterPrefix 16 (Nat.toDigits 16 n) = digits 16 0 false (Nat.toDigits 16 n) := by
    unfold afterPrefix
    split
    · rename_i s h
      obtain ⟨d, hd, hc⟩ := toDigits_mem 16 (n := n) (by omega) (c := '_')
        (by rw [h]; simp)
      exact absurd hc.symm (digitChar_ne hd).1
    · rfl
  rw [parseNat, if_pos (by simp), hprefix, hdigits]

theorem parseInt_of_sign {base : ℕ} {z : ℤ} {s : Text}
    (hs : ∀ c ∈ s, toAscii c = c ∧ isCSpace c = false)
    (hhead : ∀ c, s.head? = some c → c ≠ '-' ∧ c ≠ '+')
    (h : parseNat base s = some z.natAbs) : parseInt base (sign z ++ s) = some z := by
  have hplain : ∀ c ∈ sign z ++ s, toAscii c = c ∧ isCSpace c = false := by
    intro c hc
    rcases List.mem_append.mp hc with hc | hc
    · unfold sign at hc
      split_ifs at hc
      · rw [List.mem_singleton.mp hc]
        decide
      · cases hc
    · exact hs c hc
  have hascii : (sign z ++ s).map toAscii = sign z ++ s :=
    (List.map_congr_left fun c hc => (hplain c hc).1).trans (List.map_id _)
  rw [parseInt, hascii, trim_eq_self fun c hc => (hplain c hc).2]
  unfold sign
  split_ifs with hz
  · simp only [List.singleton_append, h, Option.map_some, Option.some.injEq]
    omega
  · rw [List.nil_append]
    have hval : (parseNat base s).map (fun n : ℕ => (n : ℤ)) = some z := by
      simp only [h, Option.map_some, Option.some.injEq]
      omega
    split
    · exact absurd rfl (hhead _ rfl).1
    · exact absurd rfl (hhead _ rfl).2
    · exact hval

theorem toDigits_plain {base : ℕ} (hb : 2 ≤ base) (h16 : base ≤ 16) {n : ℕ} {c : Char}
    (h : c ∈ Nat.toDigits base n) :
    (toAscii c = c ∧ isCSpace c = false) ∧ c ≠ '-' ∧ c ≠ '+' := by
  obtain ⟨d, hd, rfl⟩ := toDigits_mem _ hb h
  have := digitChar_ne (d := d) (by omega)
  exact ⟨this.2.2.2.2.2.2.2, this.2.1, this.2.2.1⟩

theorem parseInt_str (z : ℤ) : parseInt 10 (str z) = some z := by
  refine parseInt_of_sign (fun c hc => ?_) (fun c hc => ?_) (parseNat_toDigits _)
  · exact (toDigits_plain (by omega) (by omega) hc).1
  · exact (toDigits_plain (by omega) (by omega) (List.mem_of_head? hc)).2

theorem parseInt_hex (z : ℤ) : parseInt 16 (hex z) = some z := by
  refine parseInt_of_sign (fun c hc => ?_) (fun c hc => ?_) (parseNat_hex _)
  · rcases List.mem_cons.mp hc with rfl | hc
    · decide
    · rcases List.mem_cons.mp hc with rfl | hc
      · decide
      · exact (toDigits_plain (by omega) (by omega) hc).1
  · rw [← Option.some.inj hc]
    decide

end HaoosLfs.PyInt
