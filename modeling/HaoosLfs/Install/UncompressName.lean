import HaoosLfs.Install.InstallFile
import HaoosLfs.Lib.ShellExpand

/-!
# The directory of a source archive (`install.sh:46-99`)

`uncompress_pkg` takes the part of the archive's name before `.tar` for the directory that
`install_pkg` removes, enters and removes again. For `awk` the separator is a regular
expression, so any character may stand before `tar`. The name is not quoted for `rm -rf` and
`pushd`.
-/

namespace HaoosLfs.Install
open Text ShellWords

def tarWord : Text := "tar".toList

def tarSuffix (ext : Text) : Text := '.' :: (tarWord ++ '.' :: ext)

/-- `tar` comes in the name behind its first character. -/
def TarInside (base : Text) : Prop := ∃ a b, a ≠ [] ∧ base = a ++ (tarWord ++ b)

theorem TarInside.cons {base : Text} (h : TarInside base) (c : Char) : TarInside (c :: base) := by
  obtain ⟨a, b, -, rfl⟩ := h
  exact ⟨c :: a, b, List.cons_ne_nil c a, rfl⟩

theorem beforeTar_starts (s : Text) : beforeTar s <+: s := by
  induction s with
  | nil => exact List.prefix_refl _
  | cons c s ih =>
    rw [beforeTar]
    split_ifs
    · exact List.nil_prefix
    · exact (List.prefix_cons_inj c).mpr ih

theorem beforeTar_suffix {base : Text} (h : ¬ TarInside base) (ext : Text) :
    beforeTar (base ++ tarSuffix ext) = base := by
  induction base with
  | nil => rfl
  | cons c base ih =>
    have hnot : ¬ "tar".toList.isPrefixOf (base ++ tarSuffix ext) := by
      rw [List.isPrefixOf_iff_prefix]
      intro hpre
      rcases prefix_append_cases hpre with ⟨b, rfl⟩ | ⟨t, ht, hword, htb⟩
      · exact h ⟨[c], b, List.cons_ne_nil c [], rfl⟩
      · -- the dot of the suffix is not in the word
        obtain ⟨d, t, rfl⟩ := List.exists_cons_of_ne_nil ht
        obtain ⟨rfl, -⟩ := List.cons_prefix_cons.mp htb
        have hdot : '.' ∈ "tar".toList := by
          rw [hword]
          simp
        exact absurd hdot (by decide)
    rw [List.cons_append, beforeTar, if_neg hnot, ih fun hb => h (hb.cons c)]

theorem length_beforeTar (a : Text) (c : Char) (z : Text) :
    (beforeTar (a ++ c :: (tarWord ++ z))).length ≤ a.length := by
  induction a with
  | nil =>
    have hpre : "tar".toList.isPrefixOf (tarWord ++ z) = true :=
      List.isPrefixOf_iff_prefix.mpr (List.prefix_append tarWord z)
    rw [List.nil_append, beforeTar, if_pos hpre]
  | cons d a ih =>
    rw [List.cons_append, beforeTar]
    split_ifs
    · exact Nat.zero_le _
    · exact Nat.succ_le_succ ih

theorem length_beforeTar_lt {base : Text} (h : TarInside base) (z : Text) :
    (beforeTar (base ++ z)).length < base.length := by
  obtain ⟨a, b, ha, rfl⟩ := h
  obtain ⟨a, c, rfl⟩ := (List.eq_nil_or_concat' a).resolve_left ha
  have hle := length_beforeTar a c (b ++ z)
  have hsame : a ++ [c] ++ (tarWord ++ b) ++ z = a ++ c :: (tarWord ++ (b ++ z)) := by
    simp only [List.append_assoc, List.cons_append, List.nil_append]
  rw [hsame]
  simp only [List.length_append, List.length_cons]
  omega

theorem dirHooks_not_starts {name dir : Text} (h : dirHooks.lookup name = some dir) :
    ¬ name <+: dir := by
  have hall : ∀ hook ∈ dirHooks, ¬ hook.1 <+: hook.2 := by decide
  obtain ⟨before, after, hsplit, -⟩ := List.lookup_eq_some_iff.mp h
  exact hall (name, dir) (by rw [hsplit]; simp)

theorem uncompressNameOf_iff {base : Text} (hhook : base ∉ dirHooks.map Prod.fst) (ext : Text) :
    uncompressNameOf (base ++ tarSuffix ext) = base ↔ ¬ TarInside base := by
  unfold uncompressNameOf
  constructor
  · intro he h
    have hlen := length_beforeTar_lt h (tarSuffix ext)
    cases hl : dirHooks.lookup (beforeTar (base ++ tarSuffix ext)) with
    | none =>
      rw [hl, Option.getD_none] at he
      rw [he] at hlen
      exact absurd hlen (Nat.lt_irrefl _)
    | some dir =>
      rw [hl, Option.getD_some] at he
      have hpre : beforeTar (base ++ tarSuffix ext) <+: base :=
        List.prefix_of_prefix_length_le (beforeTar_starts _) (List.prefix_append base _)
          (Nat.le_of_lt hlen)
      exact dirHooks_not_starts hl (he.symm ▸ hpre)
  · intro h
    have hnone : dirHooks.lookup base = none := by
      rw [List.lookup_eq_none_iff]
      intro hook hmem
      rw [bne_iff_ne]
      rintro rfl
      exact hhook (List.mem_map_of_mem hmem)
    rw [beforeTar_suffix h, hnone, Option.getD_none]

/-! ### The name of the archive -/

theorem lastField_append (x : Text) {name : Text} (h : '/' ∉ name) :
    lastField (x ++ '/' :: name) = name := by
  unfold lastField
  rw [List.splitOn_append_cons_self, List.splitOn_eq_singleton h, List.getLast?_concat,
    Option.getD_some]

theorem exists_intercalate (front : List Text) (w : Text) :
    ∃ x, List.intercalate [' '] (front ++ [w]) = x ++ w := by
  induction front with
  | nil => exact ⟨[], by simp⟩
  | cons l front ih =>
    obtain ⟨x, hx⟩ := ih
    obtain ⟨m, ms, hms⟩ : ∃ m ms, front ++ [w] = m :: ms :=
      List.exists_cons_of_ne_nil (List.append_ne_nil_of_right_ne_nil front (List.cons_ne_nil w []))
    refine ⟨l ++ ' ' :: x, ?_⟩
    rw [List.cons_append, hms, List.intercalate_cons_cons, ← hms, hx]
    simp only [List.append_assoc, List.cons_append, List.nil_append]

/-- The line that `grep` finds ends with a url, whose last component is the archive. -/
theorem tarPkgOf_url {line : Text} {front : List Text} {p name : Text}
    (hline : words line = front ++ [p ++ '/' :: name]) (hslash : '/' ∉ name) :
    tarPkgOf line = name := by
  obtain ⟨x, hx⟩ := exists_intercalate front (p ++ '/' :: name)
  unfold tarPkgOf
  rw [hline, hx, ← List.append_assoc]
  exact lastField_append (x ++ p) hslash

theorem not_isIfs_uncompressNameOf {tarPkg : Text} (h : ∀ c ∈ tarPkg, isIfs c = false) :
    ∀ c ∈ uncompressNameOf tarPkg, isIfs c = false := by
  have hbefore : ∀ c ∈ beforeTar tarPkg, isIfs c = false :=
    fun c hc => h c ((beforeTar_starts tarPkg).subset hc)
  have hhooks : (dirHooks.all fun hook => hook.2.all fun c => !isIfs c) = true := by decide
  unfold uncompressNameOf
  cases hl : dirHooks.lookup (beforeTar tarPkg) with
  | none => exact hbefore
  | some dir =>
    obtain ⟨before, after, hsplit, -⟩ := List.lookup_eq_some_iff.mp hl
    have hdir := List.all_eq_true.mp hhooks (beforeTar tarPkg, dir) (by rw [hsplit]; simp)
    exact fun c hc => Bool.not_eq_true' _ ▸ List.all_eq_true.mp hdir c hc

theorem forall_operand_name_iff {name base : Text} (hblank : ∀ c ∈ name, isIfs c = false) :
    (∀ e : Pathnames, e.operand name = some base) ↔
      name = base ∧ base ≠ [] ∧ hasPattern base = false ∧ base.head? ≠ some '-' := by
  constructor
  · intro h
    have hne : name ≠ [] := by
      rintro rfl
      cases h noMatches
    have hname : name = base := by
      have hone := h noMatches
      rw [Pathnames.operand, noMatches_unquoted, words_plain hne hblank] at hone
      dsimp only at hone
      split_ifs at hone
      exact Option.some.inj hone
    subst hname
    obtain ⟨⟨-, hpattern⟩, hdash⟩ := (forall_operand_iff hne).mp h
    exact ⟨rfl, hne, hpattern, hdash⟩
  · rintro ⟨rfl, hne, hpattern, hdash⟩
    exact (forall_operand_iff hne).mpr ⟨⟨hblank, hpattern⟩, hdash⟩

/-- The archive is the last component of the url; `install_pkg` works on the directory before
`.tar` exactly when `tar` does not come earlier, behind the first character. Outside quotes this
name is one operand, itself, when besides it is neither empty nor a pattern nor an option. -/
theorem uncompress_name_iff {ω : Type} (host : Host ω) (w : ω) (sh : Shell) {line : Text}
    {front : List Text} {p base ext : Text}
    (hfound : downloadLine id host.grep sh.pkgFlag (host.packages w) = some line)
    (hline : words line = front ++ [p ++ '/' :: (base ++ tarSuffix ext)])
    (hbase : '/' ∉ base) (hext : '/' ∉ ext) (hhook : base ∉ dirHooks.map Prod.fst) :
    ∃ job, jobOf host w sh = some job ∧ job.tarPkg = base ++ tarSuffix ext ∧
      (job.uncompressName = base ↔ ¬ TarInside base) ∧
      ((∀ e : Pathnames, e.operand job.uncompressName = some base) ↔
        ¬ TarInside base ∧ base ≠ [] ∧ hasPattern base = false ∧ base.head? ≠ some '-') := by
  have hslash : '/' ∉ base ++ tarSuffix ext := by
    rw [List.mem_append, not_or]
    refine ⟨hbase, fun h => ?_⟩
    have hsplit : tarSuffix ext = ".tar.".toList ++ ext := rfl
    rw [hsplit, List.mem_append] at h
    exact h.elim (by decide) hext
  have hname := tarPkgOf_url hline hslash
  have hblank : ∀ c ∈ base ++ tarSuffix ext, isIfs c = false := by
    intro c hc
    refine not_isIfs_of_mem_words (s := line) (w := p ++ '/' :: (base ++ tarSuffix ext)) ?_ c ?_
    · rw [hline]
      exact List.mem_append_right _ List.mem_cons_self
    · exact List.mem_append_right _ (List.mem_cons_of_mem _ hc)
  have hiff := uncompressNameOf_iff hhook ext
  unfold jobOf
  rw [hfound]
  refine ⟨_, rfl, hname, ?_⟩
  dsimp only
  rw [hname, forall_operand_name_iff (not_isIfs_uncompressNameOf hblank), hiff]
  exact ⟨Iff.rfl, Iff.rfl⟩

def elfutils : Shell := ⟨"elfutils".toList, "elfutils".toList, [], []⟩

theorem uncompress_name_elfutils :
    ∃ job, jobOf (sampleHost []) () elfutils = some job ∧
      job.tarPkg = "elfutils-0.185".toList ++ tarSuffix "bz2".toList ∧
      (job.uncompressName = "elfutils-0.185".toList ↔ ¬ TarInside "elfutils-0.185".toList) ∧
      ((∀ e : Pathnames, e.operand job.uncompressName = some "elfutils-0.185".toList) ↔
        ¬ TarInside "elfutils-0.185".toList ∧ "elfutils-0.185".toList ≠ [] ∧
          hasPattern "elfutils-0.185".toList = false ∧
            "elfutils-0.185".toList.head? ≠ some '-') := by
  have hfound : downloadLine id grepLiteral elfutils.pkgFlag ((sampleHost []).packages ()) =
      some "Download: https://sourceware.org/ftp/elfutils/0.185/elfutils-0.185.tar.bz2".toList := by
    decide +kernel
  have hline :
    words "Download: https://sourceware.org/ftp/elfutils/0.185/elfutils-0.185.tar.bz2".toList =
      ["Download:".toList] ++ ["https://sourceware.org/ftp/elfutils/0.185".toList ++
        '/' :: ("elfutils-0.185".toList ++ tarSuffix "bz2".toList)] := by decide +kernel
  exact uncompress_name_iff (sampleHost []) () elfutils hfound hline (by decide) (by decide)
    (by decide)

/-- The name of this archive ends before its second letter. -/
theorem not_uncompress_name_star :
    contains "star-1.5.3".toList ".tar".toList = false ∧
      "star-1.5.3".toList ∉ dirHooks.map Prod.fst ∧
      tarPkgOf "Download: https://downloads.sourceforge.net/s-tar/star-1.5.3.tar.bz2".toList =
        "star-1.5.3".toList ++ tarSuffix "bz2".toList ∧
      uncompressNameOf ("star-1.5.3".toList ++ tarSuffix "bz2".toList) ≠ "star-1.5.3".toList := by
  refine ⟨by decide, by decide, by decide +kernel, by decide⟩

end HaoosLfs.Install
