import HaoosLfs.Lib.Fuel
import HaoosLfs.Sources.Urls

/-!
# The base name templates (`lfs.xsl:1150-1165`, `blfs.xsl:172-187`)

Both stylesheets cut a path at its first slash and go on behind it, as long as
something is left there; of a path that ends with a slash the part before it is taken.
-/

namespace HaoosLfs.Sources
open Text

/-- One call of the template of `lfs.xsl`, which `basenameCall` repeats. -/
def basenameBody (call : Text → Text) (path : Text) : Text :=
  if contains path ['/'] then
    if substringAfter path ['/'] ≠ [] then call (substringAfter path ['/'])
    else substringBefore path ['/']
  else path

/-- The template of `blfs.xsl`. -/
def blfsBasenameBody (call : Text → Text) (path : Text) : Text :=
  if contains path ['/'] ∧ substringAfter path ['/'] ≠ [] then call (substringAfter path ['/'])
  else if contains path ['/'] ∧ substringAfter path ['/'] = [] then substringBefore path ['/']
  else path

def blfsBasenameCall : ℕ → Text → Text
  | 0, path => path
  | fuel + 1, path => blfsBasenameBody (blfsBasenameCall fuel) path

def blfsPackageName (path : Text) : Text := blfsBasenameCall path.length path

theorem blfsBasenameBody_eq : blfsBasenameBody = basenameBody := by
  funext call path
  unfold blfsBasenameBody basenameBody
  by_cases hslash : contains path ['/']
  · by_cases hafter : substringAfter path ['/'] = []
    · rw [if_neg (fun h => h.2 hafter), if_pos ⟨hslash, hafter⟩, if_pos hslash,
        if_neg (not_not.mpr hafter)]
    · rw [if_pos ⟨hslash, hafter⟩, if_pos hslash, if_pos hafter]
  · rw [if_neg (fun h => hslash h.1), if_neg (fun h => hslash h.1), if_neg hslash]

theorem callsShorter_basenameBody : CallsShorter basenameBody := by
  intro call call' path h
  unfold basenameBody
  split_ifs with hslash hafter
  · exact h _ (length_substringAfter (by decide) hslash)
  · rfl
  · rfl

theorem terminates_basename : Terminates basenameBody basenameCall packageName :=
  terminates_of_body callsShorter_basenameBody (fun _ => rfl) fun _ _ => rfl

theorem terminates_blfsBasename :
    Terminates blfsBasenameBody blfsBasenameCall blfsPackageName := by
  have hbody : CallsShorter blfsBasenameBody := by
    rw [blfsBasenameBody_eq]
    exact callsShorter_basenameBody
  exact terminates_of_body hbody (fun _ => rfl) fun _ _ => rfl

theorem blfsBasenameCall_eq (n : ℕ) (path : Text) :
    blfsBasenameCall n path = basenameCall n path := by
  induction n generalizing path with
  | zero => rfl
  | succ n ih =>
    have hcall : blfsBasenameCall n = basenameCall n := funext ih
    rw [blfsBasenameCall, hcall, blfsBasenameBody_eq]
    rfl

theorem slash_packageName (path : Text) : '/' ∉ packageName path := by
  induction hn : path.length using Nat.strong_induction_on generalizing path with
  | _ n ih =>
    by_cases hslash : '/' ∈ path
    · obtain ⟨a, b, rfl, ha⟩ := List.eq_append_cons_of_mem hslash
      rw [packageName_slash ha]
      split_ifs with hb
      · exact ha
      · rw [List.length_append, List.length_cons] at hn
        exact ih b.length (by omega) b rfl
    · rw [packageName_plain hslash]
      exact hslash

theorem parts_of_path {path p c : Text}
    (h : path = c ∨ path = p ++ '/' :: c ∨ path = p ++ '/' :: (c ++ ['/'])) :
    ∃ x k, path = x ++ (c ++ List.replicate k '/') ∧ k ≤ 1 ∧ (x = [] ∨ ∃ x', x = x' ++ ['/']) := by
  rcases h with rfl | rfl | rfl
  · exact ⟨[], 0, by simp, by omega, .inl rfl⟩
  · exact ⟨p ++ ['/'], 0, by simp, by omega, .inr ⟨p, rfl⟩⟩
  · exact ⟨p ++ ['/'], 1, by simp, by omega, .inr ⟨p, rfl⟩⟩

/-- Both templates terminate and give the same name, which has no slash; of a path with a
last component and at most one slash after it, the name is this component. -/
theorem basename_templates (path : Text) :
    (Terminates basenameBody basenameCall packageName ∧
      Terminates blfsBasenameBody blfsBasenameCall blfsPackageName) ∧
      blfsPackageName path = packageName path ∧ '/' ∉ packageName path ∧
      ∀ p c, c ≠ [] → '/' ∉ c →
        path = c ∨ path = p ++ '/' :: c ∨ path = p ++ '/' :: (c ++ ['/']) →
        packageName path = c ∧ basename path = c := by
  refine ⟨⟨terminates_basename, terminates_blfsBasename⟩, blfsBasenameCall_eq _ path,
    slash_packageName path, fun p c hne hslash hpath => ?_⟩
  obtain ⟨x, k, rfl, hk, hx⟩ := parts_of_path hpath
  have hname := packageName_parts (k := k) hne hslash hx
  rw [if_pos hk] at hname
  exact ⟨hname, basename_parts hne hslash hx⟩

theorem basename_templates_url :
    packageName "https://ftp.gnu.org/gnu/m4/m4-1.4.18.tar.xz/".toList =
        "m4-1.4.18.tar.xz".toList ∧
      basename "https://ftp.gnu.org/gnu/m4/m4-1.4.18.tar.xz/".toList =
        "m4-1.4.18.tar.xz".toList :=
  (basename_templates "https://ftp.gnu.org/gnu/m4/m4-1.4.18.tar.xz/".toList).2.2.2
    "https://ftp.gnu.org/gnu/m4".toList "m4-1.4.18.tar.xz".toList (by decide) (by decide)
    (.inr (.inr (by decide)))

end HaoosLfs.Sources
