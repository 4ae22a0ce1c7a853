import HaoosLfs.Lib.Rewrite

/-!
# Replacing several keys at once

A text is read once from the left. Where keys start, the longest one is replaced by its
value and the reading goes on behind it; any other character is kept. Recursion on both
sides of the first occurrence of a key, with the keys tried in a fixed order, gives the
same text when no later key can reach into an occurrence of an earlier one.
-/

namespace HaoosLfs.Text

variable {rules : List RewriteRule}

def longestAt (rules : List RewriteRule) (s : Text) : Option RewriteRule :=
  rules.find? fun r => r.key.isPrefixOf s &&
    rules.all fun r' => !r'.key.isPrefixOf s || decide (r'.key.length ≤ r.key.length)

/-- The first `skip` characters belong to a key. -/
def scanFrom (rules : List RewriteRule) : ℕ → Text → Text
  | _, [] => []
  | skip + 1, _ :: s => scanFrom rules skip s
  | 0, c :: s =>
    match longestAt rules (c :: s) with
    | some r => r.value ++ scanFrom rules (r.key.length - 1) s
    | none => c :: scanFrom rules 0 s

/-- All keys are replaced by their values at once, from the left, the longest key first. -/
def scan (rules : List RewriteRule) (s : Text) : Text := scanFrom rules 0 s

/-! ### The scan of a text in two parts -/

theorem longestAt_congr {s t : Text} (h : ∀ r ∈ rules, r.key <+: s ↔ r.key <+: t) :
    longestAt rules s = longestAt rules t := by
  have hkey : ∀ r ∈ rules, r.key.isPrefixOf s = r.key.isPrefixOf t := by
    intro r hr
    rw [Bool.eq_iff_iff, List.isPrefixOf_iff_prefix, List.isPrefixOf_iff_prefix]
    exact h r hr
  unfold longestAt
  refine List.find?_congr fun r hr => ?_
  rw [hkey r hr]
  congr 1
  rw [Bool.eq_iff_iff, List.all_eq_true, List.all_eq_true]
  exact forall₂_congr fun r' hr' => by rw [hkey r' hr']

theorem prefix_of_longestAt {s : Text} {r : RewriteRule} (h : longestAt rules s = some r) :
    r ∈ rules ∧ r.key <+: s := by
  have hr := List.find?_some h
  rw [Bool.and_eq_true, List.isPrefixOf_iff_prefix] at hr
  exact ⟨List.mem_of_find?_eq_some h, hr.1⟩

/-- No key that starts in `a` ends behind it when `b` follows. -/
def CutsNoKey (rules : List RewriteRule) (a b : Text) : Prop :=
  ∀ r ∈ rules, ∀ x y, a = x ++ y → y ≠ [] → r.key <+: y ++ b → r.key <+: y

theorem CutsNoKey.tail {c : Char} {a b : Text} (h : CutsNoKey rules (c :: a) b) :
    CutsNoKey rules a b := by
  rintro r hr x y rfl hy hpre
  exact h r hr (c :: x) y rfl hy hpre

theorem scanFrom_append {a b : Text} (h : CutsNoKey rules a b) {skip : ℕ}
    (hskip : skip ≤ a.length) :
    scanFrom rules skip (a ++ b) = scanFrom rules skip a ++ scanFrom rules 0 b := by
  induction a generalizing skip with
  | nil =>
    obtain rfl := Nat.le_zero.mp hskip
    rfl
  | cons c a ih =>
    cases skip with
    | succ skip =>
      rw [List.cons_append, scanFrom, scanFrom, ih h.tail (Nat.le_of_succ_le_succ hskip)]
    | zero =>
      have hlongest : longestAt rules (c :: (a ++ b)) = longestAt rules (c :: a) := by
        refine longestAt_congr fun r hr => ⟨h r hr [] (c :: a) rfl (List.cons_ne_nil c a), ?_⟩
        intro hpre
        exact hpre.trans (List.prefix_append (c :: a) b)
      rw [List.cons_append, scanFrom, scanFrom, hlongest]
      cases hl : longestAt rules (c :: a) with
      | none =>
        dsimp only
        rw [ih h.tail (Nat.zero_le _), List.cons_append]
      | some r =>
        have hlen := (prefix_of_longestAt hl).2.length_le
        rw [List.length_cons] at hlen
        dsimp only
        rw [ih h.tail (by omega), List.append_assoc]

theorem scan_append {a b : Text} (h : CutsNoKey rules a b) :
    scan rules (a ++ b) = scan rules a ++ scan rules b := scanFrom_append h (Nat.zero_le _)

theorem scanFrom_eq_drop (skip : ℕ) (s : Text) :
    scanFrom rules skip s = scanFrom rules 0 (s.drop skip) := by
  induction skip generalizing s with
  | zero => rfl
  | succ skip ih =>
    cases s with
    | nil => rfl
    | cons c s =>
      rw [scanFrom, ih]
      rfl

theorem scan_key_append {k b : Text} {r : RewriteRule} (hr : longestAt rules (k ++ b) = some r)
    (hk : r.key = k) (hne : k ≠ []) : scan rules (k ++ b) = r.value ++ scan rules b := by
  obtain ⟨c, k, rfl⟩ := List.exists_cons_of_ne_nil hne
  unfold scan
  rw [List.cons_append] at hr
  rw [List.cons_append, scanFrom, hr]
  dsimp only
  rw [scanFrom_eq_drop, hk, List.length_cons, Nat.add_sub_cancel, List.drop_left]

theorem scan_eq_self {s : Text} (h : ∀ r ∈ rules, ¬ contains s r.key) : scan rules s = s := by
  induction s with
  | nil => rfl
  | cons c s ih =>
    have hnone : longestAt rules (c :: s) = none := by
      cases hl : longestAt rules (c :: s) with
      | none => rfl
      | some r =>
        obtain ⟨hr, t, ht⟩ := prefix_of_longestAt hl
        exact absurd (contains_iff.mpr ⟨[], t, ht.symm⟩) (h r hr)
    have htail : ∀ r ∈ rules, ¬ contains s r.key := by
      intro r hr hs
      obtain ⟨a, b, rfl⟩ := contains_iff.mp hs
      exact h r hr (contains_iff.mpr ⟨c :: a, b, rfl⟩)
    unfold scan at ih ⊢
    rw [scanFrom, hnone]
    dsimp only
    rw [ih htail]

theorem prefix_or {a b s : Text} (ha : a <+: s) (hb : b <+: s) : a <+: b ∨ b <+: a :=
  List.prefix_or_prefix_of_prefix ha hb

/-- A key that starts in `y` ends there, or a proper part of it starts what follows. -/
theorem prefix_or_tail {k y b : Text} (h : k <+: y ++ b) (hy : y ≠ []) :
    k <+: y ∨ ∃ t ∈ k.tails.tail, t ≠ [] ∧ t <+: b := by
  rcases prefix_append_cases h with hk | ⟨t, ht, rfl, htb⟩
  · exact .inl hk
  · obtain ⟨c, y, rfl⟩ := List.exists_cons_of_ne_nil hy
    refine .inr ⟨t, ?_, ht, htb⟩
    rw [List.cons_append, List.tails, List.tail_cons, List.mem_tails]
    exact List.suffix_append y t

theorem cutsNoKey_of_tails {b : Text}
    (h : ∀ r ∈ rules, ∀ t ∈ r.key.tails.tail, t ≠ [] → ¬ t <+: b) (a : Text) :
    CutsNoKey rules a b := by
  rintro r hr x y rfl hy hpre
  rcases prefix_or_tail hpre hy with hk | ⟨t, ht, hne, htb⟩
  · exact hk
  · exact absurd htb (h r hr t ht hne)

theorem scan_remove (before : List RewriteRule) {after : List RewriteRule} {r : RewriteRule}
    {s : Text} (h : ¬ contains s r.key) :
    scan (before ++ r :: after) s = scan (before ++ after) s := by
  have hfrom : ∀ (t : Text), t <:+ s → ∀ skip,
      scanFrom (before ++ r :: after) skip t = scanFrom (before ++ after) skip t := by
    intro t
    induction t with
    | nil => exact fun _ _ => rfl
    | cons c t ih =>
      intro ht skip
      have htail := (List.suffix_cons c t).trans ht
      cases skip with
      | succ skip => exact ih htail skip
      | zero =>
        have hnot : r.key.isPrefixOf (c :: t) = false := by
          rw [← Bool.not_eq_true, List.isPrefixOf_iff_prefix]
          rintro ⟨z, hz⟩
          obtain ⟨u, rfl⟩ := ht
          exact h (contains_iff.mpr ⟨u, z, by rw [hz]⟩)
        have hlongest : longestAt (before ++ r :: after) (c :: t) =
            longestAt (before ++ after) (c :: t) := by
          simp only [longestAt, List.find?_append, List.find?_cons, List.all_append, List.all_cons,
            hnot, Bool.not_false, Bool.true_or, Bool.true_and, Bool.false_and]
        rw [scanFrom, scanFrom, hlongest]
        cases longestAt (before ++ after) (c :: t) with
        | none => exact congrArg (c :: ·) (ih htail 0)
        | some r' => exact congrArg (r'.value ++ ·) (ih htail _)
  exact hfrom s (List.suffix_refl s) 0

theorem scan_append_cons {c : Char} (hkeys : ∀ r ∈ rules, r.key ≠ [] ∧ c ∉ r.key) (a b : Text) :
    scan rules (a ++ c :: b) = scan rules a ++ c :: scan rules b := by
  have hcut : CutsNoKey rules a (c :: b) := by
    refine cutsNoKey_of_tails (fun r hr t ht hne hpre => ?_) a
    obtain ⟨d, t, rfl⟩ := List.exists_cons_of_ne_nil hne
    obtain ⟨rfl, -⟩ := List.cons_prefix_cons.mp hpre
    have hsuffix := (List.mem_tails _ _).mp (List.mem_of_mem_tail ht)
    exact (hkeys r hr).2 (hsuffix.subset List.mem_cons_self)
  have hnone : longestAt rules (c :: b) = none := by
    cases hl : longestAt rules (c :: b) with
    | none => rfl
    | some r =>
      obtain ⟨hr, hpre⟩ := prefix_of_longestAt hl
      obtain ⟨d, k, hk⟩ := List.exists_cons_of_ne_nil (hkeys r hr).1
      rw [hk] at hpre
      obtain ⟨rfl, -⟩ := List.cons_prefix_cons.mp hpre
      exact absurd (by rw [hk]; exact List.mem_cons_self) (hkeys r hr).2
  rw [scan_append hcut]
  congr 1
  unfold scan
  rw [scanFrom, hnone]

theorem scan_intercalate {c : Char} (hkeys : ∀ r ∈ rules, r.key ≠ [] ∧ c ∉ r.key)
    (ls : List Text) :
    scan rules (List.intercalate [c] ls) = List.intercalate [c] (ls.map (scan rules)) := by
  induction ls with
  | nil => rfl
  | cons l ls ih =>
    cases ls with
    | nil => simp
    | cons m ls =>
      rw [List.intercalate_cons_cons, List.append_assoc, List.singleton_append,
        scan_append_cons hkeys, ih]
      simp only [List.map_cons, List.intercalate_cons_cons, List.append_assoc,
        List.singleton_append]

/-! ### Recursion on both sides -/

/-- An earlier key `k` does not start a later key `k'`, and no occurrence of `k'` that starts
before one of `k` reaches into it. -/
def Apart (k k' : Text) : Prop :=
  ¬ k <+: k' ∧ ∀ t ∈ k'.tails.tail, t ≠ [] → ¬ t <+: k ∧ ¬ k <+: t

instance (k k' : Text) : Decidable (Apart k k') := inferInstanceAs (Decidable (_ ∧ _))

section
variable (hapart : rules.Pairwise fun r r' => Apart r.key r'.key)
include hapart

theorem cutsNoKey_first {before after : List RewriteRule} {r : RewriteRule} {a b : Text}
    (hrules : rules = before ++ r :: after)
    (hbefore : ∀ r' ∈ before, ¬ contains (a ++ (r.key ++ b)) r'.key)
    (hfirst : ∀ x y, a ++ (r.key ++ b) = x ++ (r.key ++ y) → a.length ≤ x.length) :
    CutsNoKey rules a (r.key ++ b) := by
  rintro r' hr' x y rfl hy hpre
  have hy0 : 0 < y.length := List.length_pos_iff.mpr hy
  rw [hrules, List.pairwise_append, List.pairwise_cons] at hapart
  rw [hrules, List.mem_append, List.mem_cons] at hr'
  rcases hr' with hr' | rfl | hr'
  · obtain ⟨z, hz⟩ := hpre
    refine absurd (contains_iff.mpr ⟨x, z, ?_⟩) (hbefore r' hr')
    rw [List.append_assoc, ← hz]
  · obtain ⟨z, hz⟩ := hpre
    have hle := hfirst x z (by rw [List.append_assoc, ← hz])
    rw [List.length_append] at hle
    omega
  · rcases prefix_or_tail hpre hy with hk | ⟨t, ht, hne, htb⟩
    · exact hk
    · obtain ⟨hnot, hnot'⟩ := (hapart.2.1.1 r' hr').2 t ht hne
      rcases prefix_or htb (List.prefix_append r.key b) with h | h
      · exact absurd h hnot
      · exact absurd h hnot'

theorem longestAt_first {before after : List RewriteRule} {r : RewriteRule} {b : Text}
    (hrules : rules = before ++ r :: after) (hbefore : ∀ r' ∈ before, ¬ r'.key <+: r.key ++ b) :
    longestAt rules (r.key ++ b) = some r := by
  rw [hrules, List.pairwise_append, List.pairwise_cons] at hapart
  unfold longestAt
  rw [List.find?_eq_some_iff_append]
  refine ⟨?_, before, after, hrules, fun r' hr' => ?_⟩
  · rw [Bool.and_eq_true, List.isPrefixOf_iff_prefix, List.all_eq_true]
    refine ⟨List.prefix_append r.key b, fun r' hr' => ?_⟩
    by_cases hpre : r'.key <+: r.key ++ b
    · rw [Bool.or_eq_true, decide_eq_true_eq]
      rw [hrules, List.mem_append, List.mem_cons] at hr'
      rcases hr' with hr' | rfl | hr'
      · exact absurd hpre (hbefore r' hr')
      · exact .inr (Nat.le_refl _)
      · rcases prefix_or hpre (List.prefix_append r.key b) with h | h
        · exact .inr h.length_le
        · exact absurd h (hapart.2.1.1 r' hr').1
    · rw [Bool.or_eq_true, Bool.not_eq_true', ← Bool.not_eq_true, List.isPrefixOf_iff_prefix]
      exact .inl hpre
  · rw [Bool.not_eq_true', Bool.and_eq_false_iff, ← Bool.not_eq_true, List.isPrefixOf_iff_prefix]
    exact .inl (hbefore r' hr')

theorem scan_key (before : List RewriteRule) {after : List RewriteRule} {r : RewriteRule}
    (hrules : rules = before ++ r :: after) (hbefore : ∀ r' ∈ before, ¬ r'.key <+: r.key)
    (hkey : r.key ≠ []) : scan rules r.key = r.value := by
  have hlongest := longestAt_first hapart (b := []) hrules (by rwa [List.append_nil])
  have hscan := scan_key_append hlongest rfl hkey
  rw [List.append_nil] at hscan
  exact hscan.trans (List.append_nil _)

theorem scan_first {before after : List RewriteRule} {r : RewriteRule} {s : Text}
    (hrules : rules = before ++ r :: after) (hbefore : ∀ r' ∈ before, ¬ contains s r'.key)
    (hkey : r.key ≠ []) (hs : contains s r.key) :
    scan rules s = scan rules (substringBefore s r.key) ++
      (r.value ++ scan rules (substringAfter s r.key)) := by
  obtain ⟨⟨a, b⟩, hab⟩ := Option.isSome_iff_exists.mp hs
  obtain ⟨ha, hb⟩ := substring_of_splitFirst hab
  rw [ha, hb]
  obtain ⟨rfl, hfirst⟩ := splitFirst_eq_some_iff.mp hab
  rw [scan_append (cutsNoKey_first hapart hrules hbefore hfirst),
    scan_key_append (longestAt_first hapart hrules ?_) rfl hkey]
  rintro r' hr' ⟨z, hz⟩
  exact hbefore r' hr' (contains_iff.mpr ⟨a, z, by rw [← hz]⟩)

section
variable (hne : ∀ r ∈ rules, r.key ≠ []) (halways : ∀ r ∈ rules, r.applies = always)
include hne halways

theorem rewriteBody_eq_scan {call : Text → Text} {s : Text}
    (hcall : ∀ r ∈ rules, contains s r.key →
      call (substringBefore s r.key) = scan rules (substringBefore s r.key) ∧
        call (substringAfter s r.key) = scan rules (substringAfter s r.key)) :
    rewriteBody rules id call s = scan rules s := by
  rw [rewriteBody]
  cases hf : rules.find? fun r => contains s r.key && r.applies s with
  | none =>
    change s = scan rules s
    refine (scan_eq_self fun r hr hs => ?_).symm
    rw [List.find?_eq_none] at hf
    refine hf r hr ?_
    rw [hs, halways r hr]
    rfl
  | some r =>
    obtain ⟨hr, before, after, hrules, hbefore⟩ := List.find?_eq_some_iff_append.mp hf
    rw [Bool.and_eq_true] at hr
    have hnot : ∀ r' ∈ before, ¬ contains s r'.key := by
      intro r' hr' hs
      have hno := hbefore r' hr'
      rw [hs, halways r' (by rw [hrules]; exact List.mem_append_left _ hr')] at hno
      cases hno
    have hmem : r ∈ rules := List.mem_of_find?_eq_some hf
    obtain ⟨hcallBefore, hcallAfter⟩ := hcall r hmem hr.1
    dsimp only
    rw [hcallBefore, hcallAfter, scan_first hapart hrules hnot (hne r hmem) hr.1]

/-- Recursion on both sides replaces all keys at once. -/
theorem rewrite_eq_scan (s : Text) : rewrite rules id s = scan rules s := by
  induction hn : s.length using Nat.strong_induction_on generalizing s with
  | _ n ih =>
    rw [(terminates_rewrite hne id).equation]
    refine rewriteBody_eq_scan hapart hne halways fun r hr hs => ?_
    exact ⟨ih _ (hn ▸ length_substringBefore (hne r hr) hs) _ rfl,
      ih _ (hn ▸ length_substringAfter (hne r hr) hs) _ rfl⟩

end

end

end HaoosLfs.Text
