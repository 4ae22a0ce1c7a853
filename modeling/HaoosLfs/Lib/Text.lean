import Mathlib

/-!
# Texts

Strings are lists of characters. UTF-8 keeps the order of code points, so the
byte order of two encoded strings is the lexicographic order of their
characters. The string functions are those of XPath 1.0, and `decimal` is the
decimal numeral of a number.
-/

namespace HaoosLfs

abbrev Text := List Char

namespace Text

/-- One name for the instance that membership in a list of texts is decided by. -/
instance lawfulBEq : LawfulBEq Text := inferInstance

/-! ### XPath string functions -/

/-- The text before and after the first occurrence of `p`. -/
def splitFirst (p : Text) : Text → Option (Text × Text)
  | [] => if p = [] then some ([], []) else none
  | c :: s =>
    if p.isPrefixOf (c :: s) then some ([], (c :: s).drop p.length)
    else (splitFirst p s).map fun r => (c :: r.1, r.2)

def substringBefore (s p : Text) : Text := ((splitFirst p s).map Prod.fst).getD []
def substringAfter (s p : Text) : Text := ((splitFirst p s).map Prod.snd).getD []

theorem splitFirst_singleton {c : Char} {s : Text} (h : c ∉ s) (t : Text) :
    splitFirst [c] (s ++ c :: t) = some (s, t) := by
  induction s with
  | nil => simp [splitFirst]
  | cons d s ih =>
    rw [List.mem_cons, not_or] at h
    have hne : ¬ [c].isPrefixOf (d :: (s ++ c :: t)) := by simpa [List.isPrefixOf] using h.1
    rw [List.cons_append, splitFirst, if_neg hne, ih h.2]
    rfl

theorem splitFirst_eq_some {p s a b : Text} (h : splitFirst p s = some (a, b)) :
    s = a ++ (p ++ b) := by
  induction s generalizing a with
  | nil =>
    rw [splitFirst] at h
    split_ifs at h with hp
    obtain ⟨rfl, rfl⟩ := Prod.mk.inj (Option.some.inj h)
    rw [hp]
    rfl
  | cons c s ih =>
    rw [splitFirst] at h
    split_ifs at h with hp
    · obtain ⟨rfl, rfl⟩ := Prod.mk.inj (Option.some.inj h)
      exact (List.prefix_iff_eq_append.mp (List.isPrefixOf_iff_prefix.mp hp)).symm
    · obtain ⟨⟨a', b'⟩, hs, he⟩ := Option.map_eq_some_iff.mp h
      obtain ⟨rfl, rfl⟩ := Prod.mk.inj he
      rw [ih hs]
      rfl

theorem splitFirst_append (p a b : Text) :
    ∃ a' b', splitFirst p (a ++ (p ++ b)) = some (a', b') ∧ a'.length ≤ a.length := by
  induction a with
  | nil =>
    cases hs : p ++ b with
    | nil =>
      obtain ⟨rfl, rfl⟩ := List.append_eq_nil_iff.mp hs
      exact ⟨[], [], rfl, le_rfl⟩
    | cons c s =>
      have hp : p.isPrefixOf (c :: s) := by
        rw [List.isPrefixOf_iff_prefix, ← hs]
        exact List.prefix_append p b
      refine ⟨[], (c :: s).drop p.length, ?_, le_rfl⟩
      rw [List.nil_append, splitFirst, if_pos hp]
  | cons c a ih =>
    obtain ⟨a', b', h, hlen⟩ := ih
    rw [List.cons_append, splitFirst]
    split_ifs with hp
    · exact ⟨[], _, rfl, Nat.zero_le _⟩
    · rw [h]
      exact ⟨c :: a', b', rfl, Nat.succ_le_succ hlen⟩

theorem splitFirst_eq_some_iff {p s a b : Text} :
    splitFirst p s = some (a, b) ↔
      s = a ++ (p ++ b) ∧ ∀ x y, s = x ++ (p ++ y) → a.length ≤ x.length := by
  constructor
  · intro h
    refine ⟨splitFirst_eq_some h, fun x y hs => ?_⟩
    obtain ⟨a', b', h', hlen⟩ := splitFirst_append p x y
    rw [← hs, h] at h'
    rw [(Prod.mk.inj (Option.some.inj h')).1]
    exact hlen
  · intro ⟨hs, hfirst⟩
    obtain ⟨a', b', h', hlen⟩ := splitFirst_append p a b
    rw [← hs] at h'
    have hs' := splitFirst_eq_some h'
    have hle := hfirst a' b' hs'
    obtain ⟨rfl, htail⟩ := List.append_inj (hs.symm.trans hs') (by omega)
    rw [h', List.append_cancel_left htail]

theorem substring_of_splitFirst {p s a b : Text} (h : splitFirst p s = some (a, b)) :
    substringBefore s p = a ∧ substringAfter s p = b := by
  unfold substringBefore substringAfter
  rw [h]
  exact ⟨rfl, rfl⟩

theorem splitFirst_self_append (p b : Text) : splitFirst p (p ++ b) = some ([], b) :=
  splitFirst_eq_some_iff.mpr ⟨rfl, fun _ _ _ => Nat.zero_le _⟩

theorem substringAfter_self_append (p b : Text) : substringAfter (p ++ b) p = b :=
  (substring_of_splitFirst (splitFirst_self_append p b)).2

/-! ### Byte order -/

theorem append_lt_append {a b : Text} (x y : Text) (hlen : a.length = b.length) (h : a < b) :
    a ++ x < b ++ y := by
  induction a generalizing b with
  | nil =>
    cases b with
    | nil => exact absurd h (lt_irrefl _)
    | cons d b => cases hlen
  | cons c a ih =>
    cases b with
    | nil => cases hlen
    | cons d b =>
      rcases List.cons_lt_cons_iff.mp h with hcd | ⟨rfl, hab⟩
      · exact List.cons_lt_cons_iff.mpr (.inl hcd)
      · exact List.cons_lt_cons_iff.mpr (.inr ⟨rfl, ih (Nat.succ.inj hlen) hab⟩)

/-- The lines of `sort` in the C locale: sorted by byte order. -/
def sortLines (lines : List Text) : List Text := lines.insertionSort (· ≤ ·)

/-- Whatever order the lines come in, sorting yields `ls` exactly when `ls` is
sorted. -/
theorem sortLines_eq_iff {found ls : List Text} (h : found.Perm ls) :
    sortLines found = ls ↔ ls.Pairwise (· ≤ ·) := by
  have hsorted : (sortLines found).Pairwise (· ≤ ·) := List.pairwise_insertionSort _ _
  constructor
  · intro he
    rw [← he]
    exact hsorted
  · intro hls
    exact List.Perm.eq_of_pairwise (fun a b _ _ => le_antisymm) hsorted hls
      ((List.perm_insertionSort _ _).trans h)

/-! ### Decimal numerals -/

def decimal (n : ℕ) : Text := Nat.toDigits 10 n

theorem decimal_of_lt_ten {n : ℕ} (h : n < 10) : decimal n = [n.digitChar] :=
  Nat.toDigits_of_lt_base h

theorem decimal_of_lt_hundred {n : ℕ} (h10 : 10 ≤ n) (h : n < 100) :
    decimal n = [(n / 10).digitChar, (n % 10).digitChar] := by
  have hd := Nat.toDigits_append_toDigits (b := 10) (n := n / 10) (d := n % 10) (by omega)
    (by omega) (by omega)
  rw [Nat.div_add_mod, Nat.toDigits_of_lt_base (n := n / 10) (by omega),
    Nat.toDigits_of_lt_base (n := n % 10) (by omega)] at hd
  exact hd.symm

theorem length_decimal_eq_one {n : ℕ} : (decimal n).length = 1 ↔ n < 10 := by
  constructor
  · intro h
    have hle := (Nat.length_toDigits_le_iff (b := 10) (n := n) (k := 1) (by omega) (by omega)).mp
      (le_of_eq h)
    omega
  · intro h
    rw [decimal_of_lt_ten h]
    rfl

theorem decimal_isDigit {n : ℕ} {c : Char} (h : c ∈ decimal n) : c.isDigit :=
  Nat.isDigit_of_mem_toDigits (by omega) (by omega) h

theorem not_mem_decimal {c : Char} (hc : c.isDigit = false) (n : ℕ) : c ∉ decimal n := by
  intro h
  rw [decimal_isDigit h] at hc
  cases hc

theorem decimal_ne_nil (n : ℕ) : decimal n ≠ [] := Nat.toDigits_ne_nil

theorem digitChar_lt {m n : ℕ} (h : m < n) (hn : n < 10) : m.digitChar < n.digitChar := by
  have key : ∀ n < 10, ∀ m < n, m.digitChar < n.digitChar := by decide
  exact key n hn m h

/-! ### Lines and string methods of Python -/

def readLines : Text → List Text
  | [] => []
  | c :: s =>
    if c = '\n' then ['\n'] :: readLines s
    else
      match readLines s with
      | [] => [[c]]
      | l :: ls => (c :: l) :: ls

theorem readLines_append {l : Text} (h : '\n' ∉ l) (s : Text) :
    readLines (l ++ '\n' :: s) = (l ++ ['\n']) :: readLines s := by
  induction l with
  | nil => simp [readLines]
  | cons c l ih =>
    rw [List.mem_cons, not_or] at h
    rw [List.cons_append, readLines, if_neg (Ne.symm h.1), ih h.2]
    rfl

theorem readLines_ne_nil (a : Text) : readLines (a ++ ['\n']) ≠ [] := by
  cases a with
  | nil => simp [readLines]
  | cons c a =>
    rw [List.cons_append, readLines]
    split_ifs
    · simp
    · split <;> simp

theorem readLines_append_newline (a b : Text) :
    readLines (a ++ '\n' :: b) = readLines (a ++ ['\n']) ++ readLines b := by
  induction a with
  | nil => simp [readLines]
  | cons c a ih =>
    rw [List.cons_append, List.cons_append, readLines, readLines, ih]
    split_ifs with hc
    · rfl
    · cases hr : readLines (a ++ ['\n']) with
      | nil => exact absurd hr (readLines_ne_nil a)
      | cons l ls => rfl

theorem readLines_flatMap {ls : List Text} (h : ∀ l ∈ ls, '\n' ∉ l) :
    readLines (ls.flatMap fun l => l ++ ['\n']) = ls.map fun l => l ++ ['\n'] := by
  induction ls with
  | nil => rfl
  | cons l ls ih =>
    rw [List.flatMap_cons, List.append_assoc, List.singleton_append,
      readLines_append (h l List.mem_cons_self), ih fun m hm => h m (List.mem_cons_of_mem _ hm)]
    rfl

def fileLines (s : Text) : List Text := (readLines s).map fun l => l.takeWhile (· ≠ '\n')

theorem not_newline_fileLines {s l : Text} (h : l ∈ fileLines s) : '\n' ∉ l := by
  obtain ⟨m, -, rfl⟩ := List.mem_map.mp h
  intro hn
  simpa using List.mem_takeWhile_imp hn

theorem fileLines_append_newline (a b : Text) :
    fileLines (a ++ '\n' :: b) = fileLines (a ++ ['\n']) ++ fileLines b := by
  unfold fileLines
  rw [readLines_append_newline, List.map_append]

theorem fileLines_cons {l : Text} (h : '\n' ∉ l) (s : Text) :
    fileLines (l ++ '\n' :: s) = l :: fileLines s := by
  have hall : ∀ c ∈ l, (decide (c ≠ '\n')) = true := by
    intro c hc
    rw [decide_eq_true_eq]
    rintro rfl
    exact h hc
  unfold fileLines
  rw [readLines_append h, List.map_cons, List.takeWhile_append_of_pos hall,
    List.takeWhile_cons_of_neg (by simp), List.append_nil]

def isSpace (c : Char) : Bool := c ∈ [' ', '\t', '\n', '\r', '\x0b', '\x0c']

def strip (s : Text) : Text := ((s.dropWhile isSpace).reverse.dropWhile isSpace).reverse

def contains (s p : Text) : Bool := (splitFirst p s).isSome

theorem contains_iff {s p : Text} : contains s p ↔ ∃ a b, s = a ++ (p ++ b) := by
  unfold contains
  constructor
  · intro h
    obtain ⟨⟨a, b⟩, hs⟩ := Option.isSome_iff_exists.mp h
    exact ⟨a, b, splitFirst_eq_some hs⟩
  · rintro ⟨a, b, rfl⟩
    obtain ⟨a', b', hs, -⟩ := splitFirst_append p a b
    rw [hs]
    rfl

theorem contains_append {s p : Text} (h : contains s p) (x y : Text) :
    contains (x ++ (s ++ y)) p := by
  obtain ⟨a, b, rfl⟩ := contains_iff.mp h
  exact contains_iff.mpr ⟨x ++ a, b ++ y, by simp only [List.append_assoc]⟩

theorem contains_trans {s k w : Text} (h : contains s k) (hk : contains k w) : contains s w := by
  obtain ⟨a, b, rfl⟩ := contains_iff.mp h
  exact contains_append hk a b

theorem contains_append_cons {w x z : Text} {c : Char} (hc : c ∉ w)
    (h : contains (x ++ c :: z) w) : contains x w ∨ contains z w := by
  obtain ⟨a, b, hab⟩ := contains_iff.mp h
  rcases List.append_eq_append_iff.mp hab with ⟨u, rfl, hv⟩ | ⟨u, rfl, hv⟩
  · cases u with
    | nil =>
      cases w with
      | nil => exact .inl (contains_iff.mpr ⟨[], x, rfl⟩)
      | cons d w =>
        obtain rfl := (List.cons.inj hv).1
        exact absurd List.mem_cons_self hc
    | cons d u => exact .inr (contains_iff.mpr ⟨u, b, (List.cons.inj hv).2⟩)
  · rcases List.append_eq_append_iff.mp hv with ⟨u', rfl, -⟩ | ⟨u', rfl, hv'⟩
    · exact .inl (contains_iff.mpr ⟨a, u', rfl⟩)
    · cases u' with
      | nil => exact .inl (contains_iff.mpr ⟨a, [], by simp⟩)
      | cons d u' =>
        obtain rfl := (List.cons.inj hv').1
        exact absurd (by simp) hc

theorem contains_append_append {w x k z : Text} (hk : k ≠ []) (hc : ∀ c ∈ k, c ∉ w)
    (h : contains (x ++ (k ++ z)) w) : contains x w ∨ contains z w := by
  induction k generalizing x with
  | nil => exact absurd rfl hk
  | cons c k ih =>
    rcases contains_append_cons (hc c List.mem_cons_self) h with hx | hz
    · exact .inl hx
    · by_cases hnil : k = []
      · rw [hnil] at hz
        exact .inr hz
      · have htail : contains ([] ++ (k ++ z)) w := hz
        rcases ih hnil (fun d hd => hc d (List.mem_cons_of_mem c hd)) htail with hw | hw
        · have hx := contains_append hw x []
          rw [List.append_nil, List.append_nil] at hx
          exact .inl hx
        · exact .inr hw

theorem contains_singleton {s : Text} {c : Char} : contains s [c] ↔ c ∈ s := by
  rw [contains_iff]
  constructor
  · rintro ⟨a, b, rfl⟩
    simp
  · intro h
    obtain ⟨a, b, rfl⟩ := List.append_of_mem h
    exact ⟨a, b, rfl⟩

theorem substring_singleton {c : Char} {a : Text} (h : c ∉ a) (b : Text) :
    substringBefore (a ++ c :: b) [c] = a ∧ substringAfter (a ++ c :: b) [c] = b :=
  substring_of_splitFirst (splitFirst_singleton h b)

theorem before_key_after {s p : Text} (h : contains s p) :
    s = substringBefore s p ++ (p ++ substringAfter s p) := by
  obtain ⟨⟨a, b⟩, hab⟩ := Option.isSome_iff_exists.mp h
  obtain ⟨ha, hb⟩ := substring_of_splitFirst hab
  rw [ha, hb]
  exact splitFirst_eq_some hab

theorem length_substrings {s p : Text} (h : contains s p) :
    s.length = (substringBefore s p).length + (p.length + (substringAfter s p).length) := by
  have hlen := congrArg List.length (before_key_after h)
  rwa [List.length_append, List.length_append] at hlen

theorem length_substringAfter {s p : Text} (hp : p ≠ []) (h : contains s p) :
    (substringAfter s p).length < s.length := by
  have hlen := length_substrings h
  have hpos := List.length_pos_iff.mpr hp
  omega

theorem length_substringBefore {s p : Text} (hp : p ≠ []) (h : contains s p) :
    (substringBefore s p).length < s.length := by
  have hlen := length_substrings h
  have hpos := List.length_pos_iff.mpr hp
  omega

theorem substringAfter_before {s p : Text} (h : contains s p) :
    substringAfter s (substringBefore s p) = p ++ substringAfter s p := by
  have hs := before_key_after h
  generalize substringBefore s p = b at hs ⊢
  generalize substringAfter s p = a at hs ⊢
  rw [hs]
  exact substringAfter_self_append b (p ++ a)

theorem substringBefore_ne_nil {s p : Text} (h : contains s p) (hp : ¬ p.isPrefixOf s) :
    substringBefore s p ≠ [] := by
  intro hnil
  have hs := before_key_after h
  rw [hnil, List.nil_append] at hs
  exact hp (List.isPrefixOf_iff_prefix.mpr ⟨_, hs.symm⟩)

/-- `s.replace(p, r)`; the first `skip` characters belong to a match. -/
def replaceFrom (p r : Text) : ℕ → Text → Text
  | _, [] => []
  | skip + 1, _ :: s => replaceFrom p r skip s
  | 0, c :: s =>
    if p.isPrefixOf (c :: s) then r ++ replaceFrom p r (p.length - 1) s
    else c :: replaceFrom p r 0 s

def replace (s p r : Text) : Text := replaceFrom p r 0 s

/-- Where two texts that are split at the same character agree, when the first one
is split at its first such character. -/
theorem append_cons_eq {a b x y : Text} {c : Char} (h : x ++ c :: y = a ++ c :: b) (ha : c ∉ a) :
    x = a ∧ y = b ∨ ∃ z, x = a ++ c :: z ∧ b = z ++ c :: y := by
  rcases List.append_eq_append_iff.mp h with ⟨u, hu, hv⟩ | ⟨u, hu, hv⟩
  · cases u with
    | nil => exact .inl ⟨by simpa using hu.symm, (List.cons.inj hv).2⟩
    | cons d u =>
      have hd : c = d := (List.cons.inj hv).1
      exact absurd (by rw [hu, hd]; simp) ha
  · cases u with
    | nil => exact .inl ⟨by simpa using hu, (List.cons.inj hv).2.symm⟩
    | cons d u =>
      obtain ⟨rfl, hb⟩ := List.cons.inj hv
      exact .inr ⟨u, hu, hb⟩

theorem prefix_append_cases {k y b : Text} (h : k <+: y ++ b) :
    k <+: y ∨ ∃ t, t ≠ [] ∧ k = y ++ t ∧ t <+: b := by
  rcases List.prefix_or_prefix_of_prefix h (List.prefix_append y b) with hk | ⟨t, rfl⟩
  · exact .inl hk
  · by_cases ht : t = []
    · exact .inl ⟨[], by rw [ht, List.append_nil, List.append_nil]⟩
    · exact .inr ⟨t, ht, rfl, (List.prefix_append_right_inj _).mp h⟩

/-! ### GNU basename -/

def basename (path : Text) : Text :=
  let rest := path.reverse.dropWhile (· = '/')
  if rest = [] then path.take 1 else (rest.takeWhile (· ≠ '/')).reverse

/-- A name that is just the suffix stays. -/
def removeSuffix (suffix name : Text) : Text :=
  if suffix.length < name.length ∧ suffix <:+ name then name.take (name.length - suffix.length)
  else name

/-- `basename -s suffix name`: nothing is printed without a name, or for a word that
reads as an option. -/
def basenameS (suffix name : Text) : Text :=
  if name = [] ∨ name.head? = some '-' ∧ name ≠ ['-'] then []
  else removeSuffix suffix (basename name)

/-- `basename name`: nothing is printed for a word that reads as an option. -/
def basenameArg (name : Text) : Text :=
  if name.head? = some '-' ∧ name ≠ ['-'] then [] else basename name

theorem basename_plain {name : Text} (h : '/' ∉ name) : basename name = name := by
  have hall : ∀ c ∈ name.reverse, (c ≠ '/') := by
    rintro c hc rfl
    exact h (List.mem_reverse.mp hc)
  have hrest : name.reverse.dropWhile (· = '/') = name.reverse := by
    cases hr : name.reverse with
    | nil => rfl
    | cons c cs =>
      rw [hr] at hall
      exact List.dropWhile_cons_of_neg (by simpa using hall c List.mem_cons_self)
  unfold basename
  simp only [hrest]
  by_cases hnil : name.reverse = []
  · rw [if_pos hnil, List.reverse_eq_nil_iff.mp hnil]
    rfl
  · rw [if_neg hnil, List.takeWhile_eq_self_iff.mpr fun c hc => by simpa using hall c hc,
      List.reverse_reverse]

theorem exists_last (path : Text) :
    ∃ x y, path = x ++ y ∧ '/' ∉ y ∧ (x = [] ∨ ∃ x', x = x' ++ ['/']) := by
  by_cases hslash : '/' ∈ path
  · obtain ⟨a, b, hrev, ha⟩ := List.eq_append_cons_of_mem (List.mem_reverse.mpr hslash)
    have hpath : path = b.reverse ++ ['/'] ++ a.reverse := by
      rw [← List.reverse_reverse path, hrev]
      simp
    exact ⟨b.reverse ++ ['/'], a.reverse, hpath, by simpa using ha, .inr ⟨b.reverse, rfl⟩⟩
  · exact ⟨[], path, rfl, hslash, .inl rfl⟩

theorem exists_parts {path : Text} (h : ∃ c ∈ path, c ≠ '/') :
    ∃ x y k, path = x ++ (y ++ List.replicate k '/') ∧ y ≠ [] ∧ '/' ∉ y ∧
      (x = [] ∨ ∃ x', x = x' ++ ['/']) := by
  induction path using List.reverseRecOn with
  | nil =>
    obtain ⟨c, hc, -⟩ := h
    cases hc
  | append_singleton path c ih =>
    by_cases hslash : c = '/'
    · have hpath : ∃ c ∈ path, c ≠ '/' := by
        obtain ⟨d, hd, hne⟩ := h
        rcases List.mem_append.mp hd with hd | hd
        · exact ⟨d, hd, hne⟩
        · exact absurd ((List.mem_singleton.mp hd).trans hslash) hne
      obtain ⟨x, y, k, rfl, hy, hyslash, hx⟩ := ih hpath
      refine ⟨x, y, k + 1, ?_, hy, hyslash, hx⟩
      rw [hslash, List.replicate_succ']
      simp only [List.append_assoc]
    · obtain ⟨x, y, rfl, hy, hx⟩ := exists_last path
      refine ⟨x, y ++ [c], 0, by simp, by simp, ?_, hx⟩
      rw [List.mem_append, List.mem_singleton]
      rintro (h | h)
      · exact hy h
      · exact hslash h.symm

theorem basename_parts {x y : Text} {k : ℕ} (hy : y ≠ []) (hslash : '/' ∉ y)
    (hx : x = [] ∨ ∃ x', x = x' ++ ['/']) : basename (x ++ (y ++ List.replicate k '/')) = y := by
  have hall : ∀ c ∈ y.reverse, (decide (c ≠ '/')) = true := by
    intro c hc
    rw [decide_eq_true_eq]
    rintro rfl
    exact hslash (List.mem_reverse.mp hc)
  have hrest : (x ++ (y ++ List.replicate k '/')).reverse.dropWhile (· = '/') =
      y.reverse ++ x.reverse := by
    rw [List.reverse_append, List.reverse_append, List.reverse_replicate, List.append_assoc,
      List.dropWhile_append_of_pos (by simp)]
    cases hr : y.reverse with
    | nil => exact absurd (List.reverse_eq_nil_iff.mp hr) hy
    | cons c cs =>
      rw [hr] at hall
      exact List.dropWhile_cons_of_neg (by simpa using hall c List.mem_cons_self)
  have hname : (y.reverse ++ x.reverse).takeWhile (· ≠ '/') = y.reverse := by
    rw [List.takeWhile_append_of_pos hall]
    rcases hx with rfl | ⟨x', rfl⟩
    · simp
    · simp
  unfold basename
  simp only [hrest, hname]
  rw [if_neg (by simp [hy]), List.reverse_reverse]

theorem basename_slashes (k : ℕ) : basename (List.replicate (k + 1) '/') = ['/'] := by
  have hrest : (List.replicate (k + 1) '/').reverse.dropWhile (· = '/') = [] := by simp
  unfold basename
  simp only [hrest, if_true]
  rfl

theorem basename_append (x : Text) {y : Text} (h : ∃ c ∈ y, c ≠ '/') :
    basename (x ++ '/' :: y) = basename y := by
  obtain ⟨z, c, k, rfl, hc, hslash, hz⟩ := exists_parts h
  rw [basename_parts hc hslash hz]
  have hx : x ++ '/' :: (z ++ (c ++ List.replicate k '/')) =
      (x ++ '/' :: z) ++ (c ++ List.replicate k '/') := by simp
  rw [hx]
  refine basename_parts hc hslash (.inr ?_)
  rcases hz with rfl | ⟨z', rfl⟩
  · exact ⟨x, rfl⟩
  · exact ⟨x ++ '/' :: z', by simp⟩

theorem removeSuffix_append {suffix name : Text} (h : name ≠ []) :
    removeSuffix suffix (name ++ suffix) = name := by
  have hlen : 0 < name.length := List.length_pos_iff.mpr h
  unfold removeSuffix
  rw [if_pos ⟨by rw [List.length_append]; omega, List.suffix_append _ _⟩]
  simp

theorem removeSuffix_of_not {suffix name : Text} (h : ¬ suffix <:+ name) :
    removeSuffix suffix name = name := if_neg fun hs => h hs.2

end Text

end HaoosLfs
