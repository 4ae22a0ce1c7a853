import HaoosLfs.Lib.Fuel
import HaoosLfs.Lib.Text

/-!
# Rewriting by recursion on both sides

A template that looks for a key, calls itself on the text before its first
occurrence, writes a value, and calls itself on the text after it.
-/

namespace HaoosLfs.Text

/-- A key with the value that is written instead, for the texts with `applies`. -/
structure RewriteRule where
  key : Text
  applies : Text → Bool
  value : Text

def always (_ : Text) : Bool := true

/-- The first rule that applies; what no rule applies to is written by `leaf`. -/
def rewriteFuel (rules : List RewriteRule) (leaf : Text → Text) : ℕ → Text → Text
  | 0, s => leaf s
  | n + 1, s =>
    match rules.find? fun r => contains s r.key && r.applies s with
    | some r =>
      rewriteFuel rules leaf n (substringBefore s r.key) ++
        (r.value ++ rewriteFuel rules leaf n (substringAfter s r.key))
    | none => leaf s

/-- A key is not empty, so the calls are for shorter texts. -/
def rewrite (rules : List RewriteRule) (leaf : Text → Text) (s : Text) : Text :=
  rewriteFuel rules leaf s.length s

/-- One call, with the recursive calls made by `call`. -/
def rewriteBody (rules : List RewriteRule) (leaf call : Text → Text) (s : Text) : Text :=
  match rules.find? fun r => contains s r.key && r.applies s with
  | some r => call (substringBefore s r.key) ++ (r.value ++ call (substringAfter s r.key))
  | none => leaf s

theorem rewriteBody_first {rules : List RewriteRule} (before : List RewriteRule)
    {after : List RewriteRule} {r : RewriteRule} {leaf call : Text → Text} {s : Text}
    (hrules : rules = before ++ r :: after)
    (hbefore : ∀ r' ∈ before, ¬ (contains s r'.key ∧ r'.applies s))
    (hr : contains s r.key ∧ r.applies s) :
    rewriteBody rules leaf call s =
      call (substringBefore s r.key) ++ (r.value ++ call (substringAfter s r.key)) := by
  have hfind : (rules.find? fun r => contains s r.key && r.applies s) = some r := by
    rw [List.find?_eq_some_iff_append, Bool.and_eq_true]
    refine ⟨hr, before, after, hrules, fun r' hr' => ?_⟩
    rw [Bool.not_eq_true', ← Bool.not_eq_true, Bool.and_eq_true]
    exact hbefore r' hr'
  rw [rewriteBody, hfind]

theorem rewriteBody_leaf {rules : List RewriteRule} {leaf call : Text → Text} {s : Text}
    (h : ∀ r ∈ rules, ¬ (contains s r.key ∧ r.applies s)) :
    rewriteBody rules leaf call s = leaf s := by
  have hfind : (rules.find? fun r => contains s r.key && r.applies s) = none := by
    rw [List.find?_eq_none]
    intro r hr
    rw [Bool.and_eq_true]
    exact h r hr
  rw [rewriteBody, hfind]

section
variable {rules : List RewriteRule} (hne : ∀ r ∈ rules, r.key ≠ []) (leaf : Text → Text)
include hne

theorem callsShorter_rewriteBody : CallsShorter (rewriteBody rules leaf) := by
  intro call call' s h
  unfold rewriteBody
  cases hf : rules.find? fun r => contains s r.key && r.applies s with
  | none => rfl
  | some r =>
    have hfound := List.find?_some hf
    rw [Bool.and_eq_true] at hfound
    have hkey := hne r (List.mem_of_find?_eq_some hf)
    dsimp only
    rw [h _ (length_substringBefore hkey hfound.1), h _ (length_substringAfter hkey hfound.1)]

theorem rewriteBody_nil (call : Text → Text) : rewriteBody rules leaf call [] = leaf [] := by
  have hnone : (rules.find? fun r => contains [] r.key && r.applies []) = none := by
    rw [List.find?_eq_none]
    intro r hr hs
    rw [Bool.and_eq_true, contains_iff] at hs
    obtain ⟨a, b, hs⟩ := hs.1
    exact hne r hr (List.append_eq_nil_iff.mp (List.append_eq_nil_iff.mp hs.symm).2).1
  rw [rewriteBody, hnone]

theorem terminates_rewrite :
    Terminates (rewriteBody rules leaf) (rewriteFuel rules leaf) (rewrite rules leaf) :=
  terminates_of_body (callsShorter_rewriteBody hne leaf)
    (fun call => (rewriteBody_nil hne leaf call).symm) fun _ _ => rfl

end

theorem mem_rewriteFuel_iff {rules : List RewriteRule} {leaf : Text → Text} {c : Char}
    (hrules : ∀ r ∈ rules, c ∉ r.key ∧ c ∉ r.value) (hleaf : ∀ s, c ∈ leaf s ↔ c ∈ s)
    (n : ℕ) (s : Text) : c ∈ rewriteFuel rules leaf n s ↔ c ∈ s := by
  induction n generalizing s with
  | zero => exact hleaf s
  | succ n ih =>
    rw [rewriteFuel]
    cases hf : rules.find? fun r => contains s r.key && r.applies s with
    | none => exact hleaf s
    | some r =>
      obtain ⟨hkey, hvalue⟩ := hrules r (List.mem_of_find?_eq_some hf)
      have hfound := List.find?_some hf
      have hc : contains s r.key := by
        simp only [Bool.and_eq_true] at hfound
        exact hfound.1
      dsimp only
      rw [List.mem_append, List.mem_append, ih, ih]
      conv_rhs => rw [before_key_after hc, List.mem_append, List.mem_append]
      simp only [hkey, hvalue, false_or]

theorem mem_rewrite_iff {rules : List RewriteRule} {leaf : Text → Text} {c : Char}
    (hrules : ∀ r ∈ rules, c ∉ r.key ∧ c ∉ r.value) (hleaf : ∀ s, c ∈ leaf s ↔ c ∈ s)
    (s : Text) : c ∈ rewrite rules leaf s ↔ c ∈ s :=
  mem_rewriteFuel_iff hrules hleaf s.length s

/-! ### One character as the only key -/

section
variable {c : Char} (v : Text) (leaf : Text → Text)

theorem terminates_rewrite_char :
    Terminates (rewriteBody [⟨[c], always, v⟩] leaf) (rewriteFuel [⟨[c], always, v⟩] leaf)
      (rewrite [⟨[c], always, v⟩] leaf) := by
  refine terminates_rewrite (fun r hr => ?_) leaf
  rw [List.mem_singleton.mp hr]
  exact List.cons_ne_nil c []

theorem rewrite_char_append {a : Text} (ha : c ∉ a) (b : Text) :
    rewrite [⟨[c], always, v⟩] leaf (a ++ c :: b) =
      rewrite [⟨[c], always, v⟩] leaf a ++ (v ++ rewrite [⟨[c], always, v⟩] leaf b) := by
  obtain ⟨hbefore, hafter⟩ := substring_singleton ha b
  have hc : contains (a ++ c :: b) [c] := contains_singleton.mpr (by simp)
  rw [(terminates_rewrite_char v leaf).equation]
  refine (rewriteBody_first [] rfl (List.forall_mem_nil _) ⟨hc, rfl⟩).trans ?_
  dsimp only
  rw [hbefore, hafter]

theorem rewrite_char_plain {a : Text} (ha : c ∉ a) :
    rewrite [⟨[c], always, v⟩] leaf a = leaf a := by
  rw [(terminates_rewrite_char v leaf).equation]
  refine rewriteBody_leaf fun r hr => ?_
  rw [List.mem_singleton.mp hr]
  exact fun hc => ha (contains_singleton.mp hc.1)

theorem rewrite_char (s : Text) :
    rewrite [⟨[c], always, v⟩] id s = s.flatMap fun d => if d = c then v else [d] := by
  have hplain : ∀ {a : Text}, c ∉ a → (a.flatMap fun d => if d = c then v else [d]) = a := by
    intro a ha
    rw [List.flatMap_congr (g := fun d => [d]) fun d hd => if_neg (ne_of_mem_of_not_mem hd ha)]
    exact List.flatMap_singleton' a
  induction hn : s.length using Nat.strong_induction_on generalizing s with
  | _ n ih =>
    by_cases hc : c ∈ s
    · obtain ⟨a, b, rfl, ha⟩ := List.eq_append_cons_of_mem hc
      rw [List.length_append, List.length_cons] at hn
      rw [rewrite_char_append v id ha, rewrite_char_plain v id ha, ih b.length (by omega) b rfl,
        List.flatMap_append, List.flatMap_cons, if_pos rfl, hplain ha]
      rfl
    · rw [rewrite_char_plain v id hc, hplain hc]
      rfl

end

end HaoosLfs.Text
