import HaoosLfs.Build.Makefile

/-!
# The scripts of a book and the goals (`lfs.xsl:94-138`, `build_Makefile.sh:84-146`)

The stylesheet numbers the chapters that it selects from 4 on; the `case` of the
Makefile looks for certain numbers, and for three names with the number 4. A script that
no arm knows gets a rule without a recipe and belongs to no goal. The loop takes the words
that the shell makes of the listing, and their base names.
-/

namespace HaoosLfs.Build
open Book Text ShellWords

/-! ### One script -/

/-- The files that `find .../chapter*/* -type f` lists, in any order. -/
def Found (book : Xml) (scripts : List Script) : Prop :=
  ∀ s, s ∈ scripts ↔ s ∈ lfsScripts book ∧ startsWith s.dir "chapter"

/-- The words of the loop, for this listing. -/
def loopWords (e : Pathnames) (root : Text) (scripts : List Script) : List Text :=
  e.unquoted (joinLines (scripts.map (Script.path root)))

/-- The script is a word of the loop, has a rule whose recipe calls it, and belongs to one
goal. -/
def Classified (e : Pathnames) (builddir root : Text) (scripts : List Script) (s : Script) : Prop :=
  s.path root ∈ loopWords e root scripts ∧
    (∃ r ∈ (scriptLoop builddir (loopWords e root scripts)).rules,
      r.target = basenameArg (s.path root) ∧
        ∃ arm, scriptCommand builddir (s.path root) arm ∈ r.recipe) ∧
    ∃! goal : Goal, basenameArg (s.path root) ∈
      (scriptLoop builddir (loopWords e root scripts)).targets goal

section
variable (builddir root : Text)

theorem exists_loopRule {words : List Text} {script : Text} (h : script ∈ words) :
    ∃ r ∈ (scriptLoop builddir words).rules,
      r.target = basenameArg script ∧
        r.recipe = namedRecipe builddir script (basenameArg script) := by
  unfold scriptLoop
  induction words using List.reverseRecOn with
  | nil => cases h
  | append_singleton words word ih =>
    rw [List.foldl_append]
    rcases List.mem_append.mp h with h | h
    · obtain ⟨r, hr, hrule⟩ := ih h
      exact ⟨r, List.mem_append_left _ hr, hrule⟩
    · rw [List.mem_singleton.mp h]
      exact ⟨_, List.mem_append_right _ List.mem_cons_self, rfl, rfl⟩

theorem mem_loopTargets {words : List Text} {name : Text} {goal : Goal} :
    name ∈ (scriptLoop builddir words).targets goal ↔
      (∃ script ∈ words, basenameArg script = name) ∧ namedGoal name = some goal := by
  unfold scriptLoop
  induction words using List.reverseRecOn with
  | nil => exact iff_of_false List.not_mem_nil fun h => h.1.elim fun _ hw => by cases hw.1
  | append_singleton words word ih =>
    rw [List.foldl_append, List.foldl_cons, List.foldl_nil, addNamed]
    by_cases hgoal : namedGoal (basenameArg word) = some goal
    · simp only [hgoal, if_true, List.mem_append, List.mem_singleton, ih]
      constructor
      · rintro (⟨⟨script, hs, rfl⟩, hg⟩ | rfl)
        · exact ⟨⟨script, .inl hs, rfl⟩, hg⟩
        · exact ⟨⟨word, .inr rfl, rfl⟩, hgoal⟩
      · rintro ⟨⟨script, hs | rfl, rfl⟩, hg⟩
        · exact .inl ⟨⟨script, hs, rfl⟩, hg⟩
        · exact .inr rfl
    · simp only [hgoal, if_false, List.mem_append, List.mem_singleton, ih]
      refine and_congr_left fun hg => ⟨?_, ?_⟩
      · rintro ⟨script, hs, rfl⟩
        exact ⟨script, .inl hs, rfl⟩
      · rintro ⟨script, hs | rfl, rfl⟩
        · exact ⟨script, hs, rfl⟩
        · exact absurd hg hgoal

theorem mem_namedRecipe {script name : Text} {arm : Arm} (h : caseArm name = some arm) :
    scriptCommand builddir script arm ∈ namedRecipe builddir script name := by
  simp [namedRecipe, h, armRecipe]

theorem classified_iff {e : Pathnames} {scripts : List Script} {s : Script} :
    Classified e builddir root scripts s ↔
      s.path root ∈ loopWords e root scripts ∧ (caseArm (basenameArg (s.path root))).isSome := by
  unfold Classified
  refine and_congr_right fun hs => ?_
  constructor
  · rintro ⟨-, goal, hgoal, -⟩
    obtain ⟨arm, harm, -⟩ := Option.map_eq_some_iff.mp ((mem_loopTargets builddir).mp hgoal).2
    rw [harm]
    rfl
  · intro hsome
    obtain ⟨arm, harm⟩ := Option.isSome_iff_exists.mp hsome
    have hgoalOf : namedGoal (basenameArg (s.path root)) = some arm.goal := by
      rw [namedGoal, harm]
      rfl
    obtain ⟨r, hr, htarget, hrecipe⟩ := exists_loopRule builddir hs
    refine ⟨⟨r, hr, htarget, arm, ?_⟩, arm.goal, ?_, fun goal hgoal => ?_⟩
    · rw [hrecipe]
      exact mem_namedRecipe builddir harm
    · exact (mem_loopTargets builddir).mpr ⟨⟨s.path root, hs, rfl⟩, hgoalOf⟩
    · have hother := ((mem_loopTargets builddir).mp hgoal).2
      exact (Option.some.inj (hgoalOf.symm.trans hother)).symm

end

/-! ### Names and numbers -/

theorem not_mem_order (n pos : ℕ) : '-' ∉ order n pos := by
  unfold order padded
  rw [List.mem_append, List.mem_append]
  rintro (h | h | h)
  · exact not_mem_decimal (by decide) n h
  · split_ifs at h
    · exact absurd h (by decide)
    · cases h
  · exact not_mem_decimal (by decide) pos h

theorem two_le_length_padded (pos : ℕ) : 2 ≤ (padded pos).length := by
  have hpos := List.length_pos_iff.mpr (decimal_ne_nil pos)
  unfold padded
  rw [List.length_append]
  split_ifs with h1
  · rw [h1]
    rfl
  · rw [List.length_nil]
    omega

theorem decimal_inj {m n : ℕ} (h : decimal m = decimal n) : m = n := by
  have hm : Nat.ofDigitChars 10 (decimal m) 0 = m := Nat.ofDigitChars_ten_toDigits
  rw [← hm, h]
  exact Nat.ofDigitChars_ten_toDigits

theorem padded_inj {m n : ℕ} (h : padded m = padded n) : m = n := by
  have hvalue : ∀ k, Nat.ofDigitChars 10 (padded k) 0 = k := by
    intro k
    unfold padded
    split_ifs
    · rw [List.singleton_append, Nat.ofDigitChars_cons]
      exact Nat.ofDigitChars_ten_toDigits
    · exact Nat.ofDigitChars_ten_toDigits
  rw [← hvalue m, h, hvalue n]

theorem name_inj {n pos k : ℕ} {f g : Text} (hk : k < 100)
    (h : order n pos ++ '-' :: f = order 4 k ++ '-' :: g) : n = 4 ∧ pos = k ∧ f = g := by
  rcases append_cons_eq h (not_mem_order 4 k) with ⟨horder, hfile⟩ | ⟨z, hz, -⟩
  · have h4 : (decimal 4).length = 1 := length_decimal_eq_one.mpr (by omega)
    have hk2 : (padded k).length = 2 := by
      rw [padded_of_lt_hundred hk]
      rfl
    have hlen := congrArg List.length horder
    have hpad := two_le_length_padded pos
    have hdec := List.length_pos_iff.mpr (decimal_ne_nil n)
    unfold order at horder hlen
    rw [List.length_append, List.length_append, h4, hk2] at hlen
    obtain ⟨hn, hp⟩ := List.append_inj horder (by omega)
    exact ⟨decimal_inj hn, padded_inj hp, hfile⟩
  · exact absurd (by rw [hz]; simp) (not_mem_order n pos)

def Preparation (pos : ℕ) (f : Text) : Prop :=
  pos = 1 ∧ f = "creatingminlayout".toList ∨ pos = 2 ∧ f = "addinguser".toList ∨
    pos = 3 ∧ f = "settingenvironment".toList

instance (pos : ℕ) (f : Text) : Decidable (Preparation pos f) :=
  inferInstanceAs (Decidable (_ ∨ _ ∨ _))

def chapterKnown (n : ℕ) : Bool :=
  startsWith (decimal n) "5" || startsWith (decimal n) "6" || startsWith (decimal n) "7" ||
    startsWith (decimal n) "8" || startsWith (decimal n) "9" || startsWith (decimal n) "10"

theorem startsWith_digit (n : ℕ) (x : Text) {p : String} {c : Char} (hp : p.toList = [c]) :
    startsWith (decimal n ++ x) p = startsWith (decimal n) p := by
  unfold startsWith
  rw [hp]
  obtain ⟨d, ds, hd⟩ := List.exists_cons_of_ne_nil (decimal_ne_nil n)
  rw [hd]
  simp [List.isPrefixOf]

theorem startsWith_ten {n : ℕ} (hn : n ≠ 1) (x : Text) :
    startsWith (decimal n ++ x) "10" = startsWith (decimal n) "10" := by
  have hten : "10".toList = ['1', '0'] := by decide
  unfold startsWith
  rw [hten]
  by_cases h10 : n < 10
  · have hne : n.digitChar ≠ '1' := by
      have key : ∀ n < 10, n ≠ 1 → n.digitChar ≠ '1' := by decide
      exact key n h10 hn
    rw [decimal_of_lt_ten h10]
    simp [List.isPrefixOf, hne.symm]
  · have hlen : ¬ (decimal n).length = 1 := fun h => h10 (length_decimal_eq_one.mp h)
    obtain ⟨d, ds, hd⟩ := List.exists_cons_of_ne_nil (decimal_ne_nil n)
    cases ds with
    | nil => exact absurd (by rw [hd]; rfl) hlen
    | cons e es =>
      rw [hd]
      simp [List.isPrefixOf]

theorem startsWith_of_append {name : Text} {p q r : String} (hp : p.toList = q.toList ++ r.toList)
    (h : startsWith name p) : startsWith name q := by
  unfold startsWith at h ⊢
  rw [List.isPrefixOf_iff_prefix] at h ⊢
  rw [hp] at h
  exact (List.prefix_append _ _).trans h

theorem caseArm_isSome_iff (name : Text) :
    (caseArm name).isSome ↔
      (name = "401-creatingminlayout".toList ∨ name = "402-addinguser".toList ∨
        name = "403-settingenvironment".toList) ∨
      (((((startsWith name "5" ∨ startsWith name "6") ∨ startsWith name "7") ∨
        startsWith name "8") ∨ startsWith name "9") ∨ startsWith name "10") := by
  unfold caseArm
  simp only [Bool.or_eq_true, decide_eq_true_eq]
  split_ifs with hsetup hsettings hluser hsudo hchroot
  · exact iff_of_true rfl (.inl (hsetup.imp_right .inl))
  · exact iff_of_true rfl (.inl (.inr (.inr hsettings)))
  · exact iff_of_true rfl (.inr (.inl (.inl (.inl (.inl hluser)))))
  · have hseven : startsWith name "7" := by
      rcases hsudo with h | h
      · exact startsWith_of_append (r := "01") (by decide) h
      · exact startsWith_of_append (r := "02") (by decide) h
    exact iff_of_true rfl (.inr (.inl (.inl (.inl (.inr hseven)))))
  · refine iff_of_true rfl (.inr ?_)
    rcases hchroot with ((h | h) | h) | h
    · exact .inl (.inl (.inl (.inr h)))
    · exact .inl (.inl (.inr h))
    · exact .inl (.inr h)
    · exact .inr h
  · refine iff_of_false (by simp) ?_
    rintro ((h | h | h) | (((h | h) | h) | h) | h)
    · exact hsetup (.inl h)
    · exact hsetup (.inr h)
    · exact hsettings h
    · exact hluser h
    · exact hchroot (.inl (.inl (.inl h)))
    · exact hchroot (.inl (.inl (.inr h)))
    · exact hchroot (.inl (.inr h))
    · exact hchroot (.inr h)

theorem name_eq_iff {n pos k : ℕ} {f : Text} (hk : k < 100) {name : String} {g : Text}
    (hname : name.toList = order 4 k ++ '-' :: g) :
    order n pos ++ '-' :: f = name.toList ↔ n = 4 ∧ pos = k ∧ f = g := by
  rw [hname]
  refine ⟨name_inj hk, ?_⟩
  rintro ⟨rfl, rfl, rfl⟩
  rfl

/-- The name of a script of a section is known to an arm exactly when the number of its
chapter is, or when it is one of the three. -/
theorem caseArm_name {n : ℕ} (hn : n ≠ 1) (pos : ℕ) (f : Text) :
    (caseArm (order n pos ++ '-' :: f)).isSome ↔ chapterKnown n ∨ n = 4 ∧ Preparation pos f := by
  have happend : order n pos ++ '-' :: f = decimal n ++ (padded pos ++ '-' :: f) :=
    List.append_assoc _ _ _
  have hpreparation : (n = 4 ∧ pos = 1 ∧ f = "creatingminlayout".toList) ∨
      (n = 4 ∧ pos = 2 ∧ f = "addinguser".toList) ∨
        (n = 4 ∧ pos = 3 ∧ f = "settingenvironment".toList) ↔ n = 4 ∧ Preparation pos f := by
    unfold Preparation
    rw [and_or_left, and_or_left]
  have hlayout : "401-creatingminlayout".toList =
      order 4 1 ++ '-' :: "creatingminlayout".toList := by decide
  have huser : "402-addinguser".toList = order 4 2 ++ '-' :: "addinguser".toList := by decide
  have hsettings : "403-settingenvironment".toList =
      order 4 3 ++ '-' :: "settingenvironment".toList := by decide
  rw [caseArm_isSome_iff, name_eq_iff (by omega) hlayout, name_eq_iff (by omega) huser,
    name_eq_iff (by omega) hsettings, hpreparation, happend,
    startsWith_digit n _ (c := '5') (by decide),
    startsWith_digit n _ (c := '6') (by decide), startsWith_digit n _ (c := '7') (by decide),
    startsWith_digit n _ (c := '8') (by decide), startsWith_digit n _ (c := '9') (by decide),
    startsWith_ten hn, or_comm]
  unfold chapterKnown
  simp only [Bool.or_eq_true]

/-! ### All scripts of a book -/

/-- Whichever order the files are listed in, every script is classified. -/
def AllClassified (e : Pathnames) (builddir root : Text) (book : Xml) : Prop :=
  ∀ scripts, Found book scripts → ∀ s ∈ lfsScripts book, Classified e builddir root scripts s

/-- The path of the script is among the words that the listed paths are split and expanded to. -/
def InLoop (e : Pathnames) (root : Text) (book : Xml) (s : Script) : Prop :=
  ∃ t ∈ lfsScripts book, startsWith t.dir "chapter" ∧ s.path root ∈ e.unquoted (t.path root)

/-- The Makefile looks for this chapter number, or for this name at this position; of a file name
with slashes it sees the last component. -/
def NameKnown (n : ℕ) (section' : Node) (pos : ℕ) : Prop :=
  if '/' ∈ filename section' then
    ((caseArm (basename (order n pos ++ '-' :: filename section'))).isSome : Prop)
  else chapterKnown n ∨ n = 4 ∧ Preparation pos (filename section')

theorem mem_lfsScripts {book : Xml} {s : Script} :
    s ∈ lfsScripts book ↔ ∃ c ∈ (selectedChapters book).zipIdx 1,
      ∃ x ∈ (selectedSections c.1).zipIdx 1,
        s = ⟨dirname c.1, order (c.2 + 3) x.2 ++ '-' :: filename x.1⟩ := by
  unfold lfsScripts chapterScripts
  simp only [List.mem_flatMap, List.mem_map, eq_comm]

theorem basenameArg_path {root : Text} {s : Script} (hdash : (s.path root).head? ≠ some '-')
    (hfile : '-' ∈ s.file) : basenameArg (s.path root) = basename s.file := by
  have hpath : s.path root = (root ++ s.dir) ++ '/' :: s.file := by simp [Script.path]
  rw [basenameArg, if_neg fun h => hdash h.1, hpath,
    basename_append _ ⟨'-', hfile, by decide⟩]

theorem slash_order (n pos : ℕ) : '/' ∉ order n pos := by
  unfold order padded
  simp only [List.mem_append, not_or]
  refine ⟨not_mem_decimal (by decide) n, ?_, not_mem_decimal (by decide) pos⟩
  split_ifs <;> decide

theorem nameKnown_iff {n : ℕ} (hn : n ≠ 1) (section' : Node) (pos : ℕ) :
    (caseArm (basename (order n pos ++ '-' :: filename section'))).isSome ↔
      NameKnown n section' pos := by
  unfold NameKnown
  split_ifs with hslash
  · exact Iff.rfl
  · have hname : '/' ∉ order n pos ++ '-' :: filename section' := by
      rw [List.mem_append, List.mem_cons]
      rintro (h | h | h)
      · exact slash_order n pos h
      · exact absurd h (by decide)
      · exact hslash h
    rw [basename_plain hname]
    exact caseArm_name hn pos _

theorem known_path_iff {n : ℕ} (hn : n ≠ 1) {root dir : Text} {section' : Node} {pos : ℕ} :
    (caseArm (basenameArg
        (Script.path root ⟨dir, order n pos ++ '-' :: filename section'⟩))).isSome ↔
      (Script.path root ⟨dir, order n pos ++ '-' :: filename section'⟩).head? ≠ some '-' ∧
        NameKnown n section' pos := by
  by_cases hdash :
      (Script.path root ⟨dir, order n pos ++ '-' :: filename section'⟩).head? = some '-'
  · have hlong : Script.path root ⟨dir, order n pos ++ '-' :: filename section'⟩ ≠ ['-'] := by
      intro h
      have hmem : '/' ∈ ['-'] := by
        rw [← h]
        simp [Script.path]
      exact absurd hmem (by decide)
    refine iff_of_false ?_ fun h => h.1 hdash
    rw [basenameArg, if_pos ⟨hdash, hlong⟩]
    decide
  · rw [basenameArg_path hdash (by simp), nameKnown_iff hn]
    exact (and_iff_right hdash).symm

/-- For every book, each script of a selected section has a recipe that calls it and one goal
exactly when the loop comes to its path, which does not look like an option, and its chapter
number or its name is known. -/
theorem all_classified_iff (e : Pathnames) (builddir root : Text) (book : Xml) :
    AllClassified e builddir root book ↔
      ∀ c ∈ (selectedChapters book).zipIdx 1, ∀ x ∈ (selectedSections c.1).zipIdx 1,
        let s : Script := ⟨dirname c.1, order (c.2 + 3) x.2 ++ '-' :: filename x.1⟩
        InLoop e root book s ∧ (s.path root).head? ≠ some '-' ∧ NameKnown (c.2 + 3) x.1 x.2 := by
  have hone : ∀ c ∈ (selectedChapters book).zipIdx 1, c.2 + 3 ≠ 1 := fun c _ => by omega
  have hwords : ∀ {scripts : List Script}, Found book scripts → ∀ s : Script,
      s.path root ∈ loopWords e root scripts ↔ InLoop e root book s := by
    intro scripts hfound s
    unfold loopWords InLoop
    rw [e.unquoted_joinLines, List.flatMap_map, List.mem_flatMap]
    simp only [hfound _, and_assoc]
  constructor
  · intro h c hc x hx
    have hfound : Found book ((lfsScripts book).filter fun s => startsWith s.dir "chapter") :=
      fun s => List.mem_filter
    obtain ⟨hs, harm⟩ := (classified_iff builddir root).mp
      (h _ hfound _ (mem_lfsScripts.mpr ⟨c, hc, x, hx, rfl⟩))
    exact ⟨(hwords hfound _).mp hs, (known_path_iff (hone c hc)).mp harm⟩
  · intro h scripts hfound s hs
    obtain ⟨c, hc, x, hx, rfl⟩ := mem_lfsScripts.mp hs
    obtain ⟨hloop, hknown⟩ := h c hc x hx
    exact (classified_iff builddir root).mpr
      ⟨(hwords hfound _).mpr hloop, (known_path_iff (hone c hc)).mpr hknown⟩

/-- A book whose first selected section creates the directory for the tools, which
`lfs.xsl` looks for. -/
def toolsdirBook : Xml :=
  .node (.element "book" [])
    (.node (.element "chapter" [("id", "chapter-final-preps".toList)])
      (.node (.pi "dbhtml" "dir=\"chapter04\"".toList) .nil
        (.node (.element "sect1" [("id", "ch-preps-creatingtoolsdir".toList)])
          (.node (.pi "dbhtml" "filename=\"creatingtoolsdir.html\"".toList) .nil
            (.node (.element "screen" [])
              (.node (.element "userinput" [])
                (.node (.text "mkdir -v $LFS/tools".toList) .nil .nil)
                .nil) .nil)) .nil)) .nil) .nil

theorem not_all_classified_toolsdir :
    ¬ AllClassified noMatches "/mnt/build_dir".toList "/mnt/build_dir/jhalfs/lfs-commands/".toList
      toolsdirBook := by
  intro h
  have hfound : Found toolsdirBook
      ((lfsScripts toolsdirBook).filter fun s => startsWith s.dir "chapter") :=
    fun s => List.mem_filter
  have hs : (⟨"chapter04".toList, "401-creatingtoolsdir".toList⟩ : Script) ∈
      lfsScripts toolsdirBook := by
    decide +kernel
  have harm := ((classified_iff _ _).mp (h _ hfound _ hs)).2
  exact absurd harm (by decide +kernel)

end HaoosLfs.Build
