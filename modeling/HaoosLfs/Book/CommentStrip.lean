import HaoosLfs.Book.Templates
import HaoosLfs.Lib.LineFold

/-!
# Commands over several lines in `comment-strip` (`lfs.xsl:427-436`, `1045-1077`)

The template decides line by line: a line with `\*.la` or `strip ` may be commented out,
and a line with `strip ` gets ` || true` behind it. A backslash at the end of a line makes
the next line a part of the same command.
-/

namespace HaoosLfs.Book
open Text

/-- A line, whether `# ` is put before it, and whether ` || true` is put behind it. -/
structure Treated where
  line : Text
  mark : Bool
  orTrue : Bool

def Treated.text (t : Treated) : Text :=
  (if t.mark then "# ".toList else []) ++ (t.line ++ if t.orTrue then " || true".toList else [])

def Continued (l : Text) : Prop := l.getLast? = some '\\'

instance (l : Text) : Decidable (Continued l) := inferInstanceAs (Decidable (_ = _))

/-- The lines `out` are the lines `ls`, where the lines of one command are all commented out
or all not, and nothing is put behind a backslash that joins two of them. -/
def CommandsAreUnits (ls out : List Text) : Prop :=
  ∃ ts : List Treated, ts.map Treated.line = ls ∧ ts.map Treated.text = out ∧
    ts.IsChain fun t u => Continued t.line → t.mark = u.mark ∧ t.orTrue = false

def HasLa (l : Text) : Prop := contains l "\\*.la".toList
def HasStripWord (l : Text) : Prop := contains l "strip ".toList

instance (l : Text) : Decidable (HasLa l) := inferInstanceAs (Decidable (_ = _))
instance (l : Text) : Decidable (HasStripWord l) := inferInstanceAs (Decidable (_ = _))

def SwitchedOff (p : Params) (l : Text) : Prop :=
  HasLa l ∧ p.delLaFiles = no ∨ ¬ HasLa l ∧ HasStripWord l ∧ p.strip = no

instance (p : Params) (l : Text) : Decidable (SwitchedOff p l) :=
  inferInstanceAs (Decidable (_ ∧ _ ∨ _ ∧ _ ∧ _))

/-- A line with `\*.la` may go on; one with `strip ` only may not. -/
def Uniform (p : Params) (ls : List Text) : Prop :=
  ls.IsChain fun l m => Continued l →
    (HasLa l ∨ ¬ HasStripWord l) ∧ (SwitchedOff p l ↔ SwitchedOff p m)

def treat (p : Params) (l : Text) : Treated :=
  ⟨l, decide (SwitchedOff p l), decide (¬ HasLa l ∧ HasStripWord l)⟩

theorem stripLine_eq (p : Params) (l : Text) : stripLine p l = (treat p l).text ++ ['\n'] := by
  by_cases hla : HasLa l
  · have hmark : SwitchedOff p l ↔ p.delLaFiles = no := by
      simp only [SwitchedOff, hla, true_and, not_true_eq_false, false_and, or_false]
    have hcontains : contains l "\\*.la".toList = true := hla
    simp only [stripLine, hcontains, if_true, treat, Treated.text, hmark, decide_eq_true_eq, hla,
      not_true_eq_false, false_and, decide_false, Bool.false_eq_true, if_false, List.append_nil,
      List.append_assoc]
  · have hcontains : contains l "\\*.la".toList = false := Bool.eq_false_iff.mpr hla
    by_cases hstrip : HasStripWord l
    · have hmark : SwitchedOff p l ↔ p.strip = no := by
        simp only [SwitchedOff, hla, hstrip, false_and, not_false_eq_true, true_and, false_or]
      have hcontains' : contains l "strip ".toList = true := hstrip
      simp only [stripLine, hcontains, hcontains', Bool.false_eq_true, if_false, if_true, treat,
        Treated.text, hmark, decide_eq_true_eq, hla, hstrip, not_false_eq_true, true_and,
        decide_true, List.append_assoc]
      rfl
    · have hmark : ¬ SwitchedOff p l := by
        simp only [SwitchedOff, hla, hstrip, false_and, and_false, or_false, not_false_eq_true]
      have hcontains' : contains l "strip ".toList = false := Bool.eq_false_iff.mpr hstrip
      simp only [stripLine, hcontains, hcontains', Bool.false_eq_true, if_false, treat,
        Treated.text, hmark, hstrip, and_false, decide_false, List.nil_append, List.append_nil]

theorem commentStrip_eq_lines (p : Params) (s : Text) :
    commentStrip p s = ((s.splitOn '\n').map (stripLine p)).flatten := by
  unfold commentStrip
  induction hn : s.length using Nat.strong_induction_on generalizing s with
  | _ n ih =>
    by_cases hs : '\n' ∈ s
    · obtain ⟨a, b, rfl, ha⟩ := List.eq_append_cons_of_mem hs
      rw [List.length_append, List.length_cons] at hn
      rw [rewrite_char_append [] _ ha, rewrite_char_plain [] _ ha, ih b.length (by omega) b rfl,
        List.splitOn_append_cons_self_of_not_mem ha, List.map_cons, List.flatten_cons]
      rfl
    · rw [rewrite_char_plain [] _ hs, List.splitOn_eq_singleton hs, List.map_singleton,
        List.flatten_singleton]

theorem not_newline_treated (p : Params) {l : Text} (h : '\n' ∉ l) : '\n' ∉ (treat p l).text := by
  unfold Treated.text
  rw [List.mem_append, List.mem_append]
  rintro (hmark | hline | htrue)
  · split_ifs at hmark
    · exact absurd hmark (by decide)
    · cases hmark
  · exact h hline
  · split_ifs at htrue
    · exact absurd htrue (by decide)
    · cases htrue

theorem fileLines_commentStrip (p : Params) (s : Text) :
    fileLines (commentStrip p s) = (s.splitOn '\n').map fun l => (treat p l).text := by
  have hnl : ∀ l ∈ (s.splitOn '\n').map (fun l => (treat p l).text), '\n' ∉ l := by
    intro l hl
    obtain ⟨l', hl', rfl⟩ := List.mem_map.mp hl
    exact not_newline_treated p (not_newline_splitOn hl')
  have hread := fileLines_of_lines hnl
  rw [List.map_map] at hread
  rw [commentStrip_eq_lines, ← hread]
  congr 2
  exact List.map_congr_left fun l _ => stripLine_eq p l

theorem length_treated (t : Treated) :
    t.text.length = 2 * t.mark.toNat + t.line.length + 8 * t.orTrue.toNat := by
  have hmark : (if t.mark then "# ".toList else []).length = 2 * t.mark.toNat := by
    cases t.mark with
    | false => rfl
    | true => rfl
  have htrue : (if t.orTrue then " || true".toList else []).length = 8 * t.orTrue.toNat := by
    cases t.orTrue with
    | false => rfl
    | true => rfl
  unfold Treated.text
  rw [List.length_append, List.length_append, hmark, htrue, Nat.add_assoc]

theorem treated_ext {t u : Treated} (hline : t.line = u.line) (htext : t.text = u.text) :
    t = u := by
  have hlen := congrArg List.length htext
  rw [length_treated, length_treated, hline] at hlen
  have hinj : ∀ b c : Bool, b.toNat = c.toNat → b = c := by decide
  have hmark := Bool.toNat_le t.mark
  have hmark' := Bool.toNat_le u.mark
  have heq : t.mark.toNat = u.mark.toNat := by omega
  have heq' : t.orTrue.toNat = u.orTrue.toNat := by omega
  rw [Treated.mk.injEq]
  exact ⟨hline, hinj _ _ heq, hinj _ _ heq'⟩

theorem eq_map_treat {p : Params} {ls : List Text} {ts : List Treated}
    (hline : ts.map Treated.line = ls)
    (htext : ts.map Treated.text = ls.map fun l => (treat p l).text) : ts = ls.map (treat p) := by
  subst hline
  induction ts with
  | nil => rfl
  | cons t ts ih =>
    simp only [List.map_cons, List.cons.injEq] at htext ⊢
    exact ⟨treated_ext rfl htext.1, ih htext.2⟩

theorem units_iff_uniform (p : Params) (ls : List Text) :
    CommandsAreUnits ls (ls.map fun l => (treat p l).text) ↔ Uniform p ls := by
  have hpair : ∀ l m : Text,
      (Continued (treat p l).line →
        (treat p l).mark = (treat p m).mark ∧ (treat p l).orTrue = false) ↔
      (Continued l → (HasLa l ∨ ¬ HasStripWord l) ∧ (SwitchedOff p l ↔ SwitchedOff p m)) := by
    intro l m
    refine imp_congr Iff.rfl ?_
    simp only [treat, decide_eq_decide, decide_eq_false_iff_not, not_and_or, not_not]
    exact and_comm
  have hchain : (ls.map (treat p)).IsChain
        (fun t u => Continued t.line → t.mark = u.mark ∧ t.orTrue = false) ↔ Uniform p ls := by
    rw [List.isChain_map]
    exact List.IsChain.iff hpair
  constructor
  · rintro ⟨ts, hline, htext, hts⟩
    rw [eq_map_treat hline htext] at hts
    exact hchain.mp hts
  · intro h
    refine ⟨ls.map (treat p), ?_, ?_, hchain.mpr h⟩
    · rw [List.map_map]
      exact List.map_id ls
    · rw [List.map_map]
      rfl

/-- The commands are treated as units exactly when each line that goes on in the next one is
switched off together with it, and has no `strip ` unless it has `\*.la`. -/
theorem commands_are_units_iff (p : Params) (s : Text) :
    CommandsAreUnits (s.splitOn '\n') (fileLines (commentStrip p s)) ↔
      Uniform p (s.splitOn '\n') := by
  rw [fileLines_commentStrip]
  exact units_iff_uniform p _

def findStrip : Text :=
  "find /usr/lib -type f -name \\*.a \\\n   -exec strip --strip-debug \x7b\x7d ';'".toList

theorem not_commands_are_units_find :
    ¬ CommandsAreUnits (findStrip.splitOn '\n') (fileLines (commentStrip {} findStrip)) := by
  have hlines : ¬ Uniform {} (findStrip.splitOn '\n') := by
    unfold Uniform
    decide +kernel
  rw [fileLines_commentStrip, units_iff_uniform]
  exact hlines

end HaoosLfs.Book
