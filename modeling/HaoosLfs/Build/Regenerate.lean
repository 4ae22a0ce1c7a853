import HaoosLfs.Build.Makefile
import HaoosLfs.Blfs.Same
import HaoosLfs.Lib.Files

/-!
# Generating again in a used tree (`lfs.sh:70-105`, `Makefile:6-17`)

Both generators write their scripts into a directory and read the names of all
files below it back. The scripts of earlier books stay there: `lfs.sh` removes
nothing, and the list of `make blfs` names `blfs-cmd` but the scripts stand in
`blfs-commands`.
-/

namespace HaoosLfs.Build
open Book Text Kconfiglib Blfs

/-! ### Paths -/

def lfsCommands : Text := "/mnt/build_dir/jhalfs/lfs-commands/".toList

def cmdFile : Text := "cmd.txt".toList
def configurationFile : Text := "blfs-configuration".toList

/-- The targets of the `rm -rf`; those without a slash are in the repository. -/
def removed : List Text :=
  [cmdFile, "cmd".toList, configurationFile, "blfs_Makefile".toList,
    "/mnt/build_dir/jhalfs/blfs-cmd".toList, "/mnt/build_dir/jhalfs/blfs_Makefile".toList]

/-- The directory below `root` and the base name of a path. -/
def scriptOf (root path : Text) : Script :=
  match splitFirst ['/'] (path.drop root.length).reverse with
  | some (file, dir) => ⟨dir.reverse, file.reverse⟩
  | none => ⟨[], path.drop root.length⟩

theorem scriptOf_path {root : Text} {s : Script} (h : '/' ∉ s.file) :
    scriptOf root (s.path root) = s := by
  have hrev : ((s.path root).drop root.length).reverse =
      s.file.reverse ++ '/' :: s.dir.reverse := by
    simp [Script.path]
  have hfile : '/' ∉ s.file.reverse := fun hm => h (List.mem_reverse.mp hm)
  unfold scriptOf
  rw [hrev, splitFirst_singleton hfile]
  simp

/-- `find .../lfs-commands/chapter*/* -type f` -/
def ChapterFile (path : Text) : Prop :=
  ∃ a b, path = lfsCommands ++ ("chapter".toList ++ a ++ '/' :: b) ∧ '/' ∉ a ∧ b ≠ [] ∧
    b.head? ≠ some '.'

/-- `os.walk` below `blfs-commands/` -/
def BlfsFile (path : Text) : Prop := blfsCommands <+: path

/-! ### Generating -/

/-- What is generated: `make blfs` for a book, and what the user saves in the menu
from `cmd.txt` and an existing configuration; or `lfs.sh` for a book. -/
inductive Generation where
  | lfs (book : Xml)
  | blfs (book : BlfsBook) (menuconfig : Option Text → Option Text → Text)

section

/- What the stylesheets write into the scripts. -/
variable (lfsText : Xml → Script → Text) (blfsText : Entry → Text)

def lfsFiles (book : Xml) : List (Text × Text) :=
  (lfsScripts book).map fun s => (s.path lfsCommands, lfsText book s)

def blfsFiles (book : BlfsBook) : List (Text × Text) :=
  (entries book).map fun e => (e.script.path blfsCommands, blfsText e)

def parseBlfsBook (t : Files Text) (book : BlfsBook) : Files Text :=
  ((t.rmrf removed).write cmdFile (cmdTxt book)).writeAll (blfsFiles blfsText book)

def generate (t : Files Text) : Generation → Files Text
  | .lfs book => t.writeAll (lfsFiles lfsText book)
  | .blfs book menuconfig =>
    let t := parseBlfsBook blfsText t book
    t.write configurationFile (menuconfig (t cmdFile) (t configurationFile))

def generateAll (t : Files Text) (history : List Generation) : Files Text :=
  history.foldl (generate lfsText blfsText) t

end

inductive Output where
  | lfs (rules : Rules Text Command)
  | blfs (makefile : Option Makefile)

/-- The Makefiles that can be generated from the files; the order in which a
directory is read is not determined. -/
inductive Prints (t : Files Text) : Generation → Output → Prop where
  | lfs {book : Xml} {found : List Text} : t.Lists ChapterFile found →
    Prints t (.lfs book) (.lfs (buildMakefile "/mnt/build_dir".toList lfsCommands
      ((sortLines found).map (scriptOf lfsCommands))))
  | blfs {book : BlfsBook} {menuconfig : Option Text → Option Text → Text} {found : List Text} :
    t.Lists BlfsFile found →
    Prints t (.blfs book menuconfig) (.blfs ((t cmdFile).bind fun cmd =>
      (t configurationFile).bind fun config =>
        blfsPy cmd config (found.map (scriptOf blfsCommands))))

inductive Output.Same : Output → Output → Prop where
  | lfs {rules : Rules Text Command} : Same (.lfs rules) (.lfs rules)
  | blfs {m m' : Option Makefile} : Option.Rel Makefile.Same m m' → Same (.blfs m) (.blfs m')

theorem Output.same_lfs {rules rules' : Rules Text Command} :
    Output.Same (.lfs rules) (.lfs rules') ↔ rules = rules' := by
  constructor
  · intro h
    cases h
    rfl
  · rintro rfl
    exact .lfs

theorem Output.same_blfs {m m' : Option Makefile} :
    Output.Same (.blfs m) (.blfs m') ↔ Option.Rel Makefile.Same m m' := by
  constructor
  · intro h
    cases h with
    | blfs h => exact h
  · exact .blfs

def Independent (lfsText : Xml → Script → Text) (blfsText : Entry → Text) (t : Files Text)
    (history : List Generation) (last : Generation) : Prop :=
  ∀ out clean,
    Prints (generate lfsText blfsText (generateAll lfsText blfsText t history) last) last out →
      Prints (generate lfsText blfsText t last) last clean → Output.Same out clean

def Clean (t : Files Text) : Prop := ∀ path, ChapterFile path ∨ BlfsFile path → t path = none

/-! ### What stays in the tree -/

def written : Generation → List Text
  | .lfs book => (lfsScripts book).map (Script.path lfsCommands)
  | .blfs book _ => (blfsScripts book).map (Script.path blfsCommands)

theorem lfsFiles_fst (lfsText : Xml → Script → Text) (book : Xml) :
    (lfsFiles lfsText book).map Prod.fst = (lfsScripts book).map (Script.path lfsCommands) := by
  unfold lfsFiles
  rw [List.map_map]
  rfl

theorem blfsFiles_fst (blfsText : Entry → Text) (book : BlfsBook) :
    (blfsFiles blfsText book).map Prod.fst = (blfsScripts book).map (Script.path blfsCommands) := by
  unfold blfsFiles blfsScripts
  rw [List.map_map, List.map_map]
  rfl

theorem not_both_roots {path : Text} (hl : lfsCommands <+: path) : ¬ blfsCommands <+: path := by
  intro hb
  have h := List.prefix_of_prefix_length_le hl hb (by decide)
  exact absurd h (by decide)

theorem chapterFile_root {path : Text} (h : ChapterFile path) : lfsCommands <+: path := by
  obtain ⟨a, b, rfl, -⟩ := h
  exact List.prefix_append _ _

theorem not_under_removed {path : Text} (h : lfsCommands <+: path ∨ blfsCommands <+: path) :
    ∀ target ∈ removed, ¬ Files.Under target path := by
  have hkey : ∀ root ∈ [lfsCommands, blfsCommands], ∀ target ∈ removed, ¬ root <+: target ∧
      ¬ target ++ ['/'] <+: root ∧ ¬ root <+: target ++ ['/'] := by decide
  have hroot : ∃ root ∈ [lfsCommands, blfsCommands], root <+: path := by
    rcases h with h | h
    · exact ⟨_, List.mem_cons_self, h⟩
    · exact ⟨_, List.mem_cons_of_mem _ List.mem_cons_self, h⟩
  obtain ⟨root, hmem, hprefix⟩ := hroot
  intro target ht hunder
  obtain ⟨hself, hover, hbelow⟩ := hkey root hmem target ht
  rcases hunder with rfl | hunder
  · exact hself hprefix
  · rcases List.prefix_or_prefix_of_prefix hunder hprefix with h | h
    · exact hover h
    · exact hbelow h

theorem command_ne {path : Text} (h : lfsCommands <+: path ∨ blfsCommands <+: path) :
    path ≠ cmdFile ∧ path ≠ configurationFile := by
  constructor
  · rintro rfl
    exact absurd h (by decide)
  · rintro rfl
    exact absurd h (by decide)

section
variable (lfsText : Xml → Script → Text) (blfsText : Entry → Text)

theorem generate_isSome (t : Files Text) (g : Generation) {path : Text}
    (h : lfsCommands <+: path ∨ blfsCommands <+: path) :
    (generate lfsText blfsText t g path).isSome ↔ path ∈ written g ∨ (t path).isSome := by
  cases g with
  | lfs book =>
    show ((t.writeAll (lfsFiles lfsText book)) path).isSome ↔ _
    rw [Files.writeAll_isSome, lfsFiles_fst]
    rfl
  | blfs book menuconfig =>
    show ((parseBlfsBook blfsText t book).write configurationFile _ path).isSome ↔ _
    rw [Files.write_of_ne (command_ne h).2, parseBlfsBook, Files.writeAll_isSome, blfsFiles_fst,
      Files.write_of_ne (command_ne h).1, Files.rmrf_of_not_under (not_under_removed h)]
    rfl

theorem generateAll_isSome (t : Files Text) (history : List Generation) {path : Text}
    (h : lfsCommands <+: path ∨ blfsCommands <+: path) :
    (generateAll lfsText blfsText t history path).isSome ↔
      (∃ g ∈ history, path ∈ written g) ∨ (t path).isSome := by
  induction history generalizing t with
  | nil => simp [generateAll]
  | cons g history ih =>
    show (generateAll lfsText blfsText (generate lfsText blfsText t g) history path).isSome ↔ _
    rw [ih, generate_isSome lfsText blfsText t g h, List.exists_mem_cons_iff, or_left_comm,
      or_assoc]

theorem script_isSome {t : Files Text} (hclean : Clean t) (history : List Generation)
    (last : Generation) {path : Text} (h : ChapterFile path ∨ BlfsFile path) :
    (generate lfsText blfsText (generateAll lfsText blfsText t history) last path).isSome ↔
      path ∈ written last ∨ ∃ g ∈ history, path ∈ written g := by
  have hroot : lfsCommands <+: path ∨ blfsCommands <+: path := h.imp_left chapterFile_root
  rw [generate_isSome lfsText blfsText _ _ hroot, generateAll_isSome lfsText blfsText t _ hroot,
    hclean path h]
  simp

theorem exists_found {t : Files Text} (hclean : Clean t) {p : Text → Prop}
    (hp : ∀ path, p path → ChapterFile path ∨ BlfsFile path) (history : List Generation)
    (last : Generation) : ∃ found,
      (generate lfsText blfsText (generateAll lfsText blfsText t history) last).Lists p found := by
  apply Files.exists_lists (written last ++ history.flatMap written)
  intro path h hs
  rw [List.mem_append, List.mem_flatMap]
  exact (script_isSome lfsText blfsText hclean history last (hp path h)).mp hs

end

theorem generate_cmdFile (lfsText : Xml → Script → Text) (blfsText : Entry → Text) (t : Files Text)
    (book : BlfsBook) (menuconfig : Option Text → Option Text → Text) :
    generate lfsText blfsText t (.blfs book menuconfig) cmdFile = some (cmdTxt book) ∧
      generate lfsText blfsText t (.blfs book menuconfig) configurationFile =
        some (menuconfig (some (cmdTxt book)) none) := by
  have hscripts : ∀ path ∈ (blfsFiles blfsText book).map Prod.fst, blfsCommands <+: path := by
    rw [blfsFiles_fst]
    intro path hpath
    obtain ⟨s, -, rfl⟩ := List.mem_map.mp hpath
    exact List.prefix_append _ _
  have hcmd : cmdFile ∉ (blfsFiles blfsText book).map Prod.fst :=
    fun h => absurd (hscripts _ h) (by decide)
  have hconf : configurationFile ∉ (blfsFiles blfsText book).map Prod.fst :=
    fun h => absurd (hscripts _ h) (by decide)
  have hremoved : ∃ target ∈ removed, Files.Under target configurationFile := by decide
  have hne : cmdFile ≠ configurationFile := by decide
  have hc : parseBlfsBook blfsText t book cmdFile = some (cmdTxt book) := by
    rw [parseBlfsBook, Files.writeAll_of_not_mem hcmd, Files.write_self]
  have hn : parseBlfsBook blfsText t book configurationFile = none := by
    rw [parseBlfsBook, Files.writeAll_of_not_mem hconf, Files.write_of_ne hne.symm,
      Files.rmrf_of_under hremoved]
  constructor
  · show (parseBlfsBook blfsText t book).write configurationFile _ cmdFile = _
    rw [Files.write_of_ne hne, hc]
  · show (parseBlfsBook blfsText t book).write configurationFile _ configurationFile = _
    rw [Files.write_self, hc, hn]

/-! ### The LFS Makefile -/

theorem sortLines_perm {found found' : List Text} (h : found.Perm found') :
    sortLines found = sortLines found' :=
  (sortLines_eq_iff (h.trans (List.perm_insertionSort _ _).symm)).mpr
    (List.pairwise_insertionSort _ _)

theorem length_buildMakefile (builddir root : Text) (scripts : List Script) :
    (buildMakefile builddir root scripts).length = scripts.length + 4 := by
  have htargets := congrArg List.length (chainRules_target builddir root none scripts)
  simp only [List.length_map] at htargets
  rw [buildMakefile_eq, List.length_append, htargets]
  rfl

/-- Every script that is found has its rule, so the Makefile stays the same exactly
when no earlier book left a script that this book does not write. -/
theorem lfs_independent_iff (lfsText : Xml → Script → Text) (blfsText : Entry → Text)
    {t : Files Text} (hclean : Clean t) (history : List Generation) (book : Xml) :
    Independent lfsText blfsText t history (.lfs book) ↔
      ∀ g ∈ history, ∀ path ∈ written g, ChapterFile path → path ∈ written (.lfs book) := by
  have hp : ∀ path, ChapterFile path → ChapterFile path ∨ BlfsFile path := fun _ h => .inl h
  have hall : ∀ path, ChapterFile path → _ :=
    fun path h => script_isSome lfsText blfsText hclean history (.lfs book) (hp path h)
  have hnew : ∀ path, ChapterFile path →
      ((generate lfsText blfsText t (.lfs book) path).isSome ↔ path ∈ written (.lfs book)) := by
    intro path h
    have hone := script_isSome lfsText blfsText hclean [] (.lfs book) (hp path h)
    simpa [generateAll] using hone
  constructor
  · intro h g hg path hpath hchapter
    obtain ⟨found, hfound⟩ := exists_found lfsText blfsText hclean hp history (.lfs book)
    obtain ⟨clean, hcleanly⟩ := exists_found lfsText blfsText hclean hp [] (.lfs book)
    have hlen : found.length = clean.length := by
      have hrules := Output.same_lfs.mp (h _ _ (.lfs hfound) (.lfs hcleanly))
      have heq := congrArg List.length hrules
      simp only [length_buildMakefile, List.length_map, sortLines, List.length_insertionSort] at heq
      omega
    have hsub : clean ⊆ found := by
      intro p hpc
      obtain ⟨hpp, hsome⟩ := (hcleanly.mem p).mp hpc
      exact (hfound.mem p).mpr ⟨hpp, (hall p hpp).mpr (.inl ((hnew p hpp).mp hsome))⟩
    have hperm := (hcleanly.nodup.subperm hsub).perm_of_length_le (le_of_eq hlen)
    have hmem := (hfound.mem path).mpr ⟨hchapter, (hall path hchapter).mpr (.inr ⟨g, hg, hpath⟩)⟩
    exact (hnew path hchapter).mp ((hcleanly.mem path).mp (hperm.mem_iff.mpr hmem)).2
  · intro h out cln hout hcln
    cases hout with
    | @lfs _ found hfound =>
      cases hcln with
      | @lfs _ clean hcleanly =>
        have hperm : found.Perm clean := by
          apply hfound.perm hcleanly
          intro path hchapter
          rw [hall path hchapter, hnew path hchapter]
          constructor
          · rintro (hw | ⟨g, hg, hpath⟩)
            · exact hw
            · exact h g hg path hpath hchapter
          · exact .inl
        rw [sortLines_perm hperm]
        exact .lfs

/-! ### The BLFS Makefile -/

theorem slash_not_mem {book : BlfsBook} {s : Script} (hs : s ∈ blfsScripts book) :
    '/' ∉ s.file := by
  obtain ⟨e, he, rfl⟩ := List.mem_map.mp hs
  exact not_mem_script (isName_filename he) (by decide) (by decide) (by decide)

def WritesScript (g : Generation) (s : Script) : Prop :=
  ∃ book menuconfig, g = .blfs book menuconfig ∧ s ∈ blfsScripts book

theorem written_blfs {g : Generation} {path : Text} :
    path ∈ written g ∧ BlfsFile path ↔ ∃ s, WritesScript g s ∧ path = s.path blfsCommands := by
  constructor
  · rintro ⟨hw, hp⟩
    cases g with
    | lfs book =>
      obtain ⟨s, -, rfl⟩ := List.mem_map.mp hw
      exact absurd hp (not_both_roots (List.prefix_append _ _))
    | blfs book menuconfig =>
      obtain ⟨s, hs, rfl⟩ := List.mem_map.mp hw
      exact ⟨s, ⟨book, menuconfig, rfl, hs⟩, rfl⟩
  · rintro ⟨s, ⟨book, menuconfig, rfl, hs⟩, rfl⟩
    exact ⟨List.mem_map_of_mem hs, List.prefix_append _ _⟩

theorem scriptOf_writes {g : Generation} {s : Script} (h : WritesScript g s) :
    scriptOf blfsCommands (s.path blfsCommands) = s := by
  obtain ⟨book, menuconfig, -, hs⟩ := h
  exact scriptOf_path (slash_not_mem hs)

theorem found_scripts {lfsText : Xml → Script → Text} {blfsText : Entry → Text} {t : Files Text}
    (hclean : Clean t) (history : List Generation) {last : Generation} {found : List Text}
    (hfound : (generate lfsText blfsText (generateAll lfsText blfsText t history) last).Lists
      BlfsFile found) :
    (found.map (scriptOf blfsCommands)).Nodup ∧ ∀ s, s ∈ found.map (scriptOf blfsCommands) ↔
      WritesScript last s ∨ ∃ g ∈ history, WritesScript g s := by
  have hmem : ∀ path, path ∈ found ↔
      BlfsFile path ∧ (path ∈ written last ∨ ∃ g ∈ history, path ∈ written g) := by
    intro path
    rw [hfound.mem]
    exact and_congr_right fun h =>
      script_isSome lfsText blfsText hclean history last (.inr h)
  have hscript : ∀ path, path ∈ found ↔ ∃ s, path = s.path blfsCommands ∧
      (WritesScript last s ∨ ∃ g ∈ history, WritesScript g s) := by
    intro path
    rw [hmem]
    constructor
    · rintro ⟨hb, hw | ⟨g, hg, hw⟩⟩
      · obtain ⟨s, hs, rfl⟩ := written_blfs.mp ⟨hw, hb⟩
        exact ⟨s, rfl, .inl hs⟩
      · obtain ⟨s, hs, rfl⟩ := written_blfs.mp ⟨hw, hb⟩
        exact ⟨s, rfl, .inr ⟨g, hg, hs⟩⟩
    · rintro ⟨s, rfl, hs | ⟨g, hg, hs⟩⟩
      · obtain ⟨hw, hb⟩ := written_blfs.mpr ⟨s, hs, rfl⟩
        exact ⟨hb, .inl hw⟩
      · obtain ⟨hw, hb⟩ := written_blfs.mpr ⟨s, hs, rfl⟩
        exact ⟨hb, .inr ⟨g, hg, hw⟩⟩
  have hback : ∀ s, (WritesScript last s ∨ ∃ g ∈ history, WritesScript g s) →
      scriptOf blfsCommands (s.path blfsCommands) = s := by
    rintro s (hs | ⟨g, -, hs⟩)
    · exact scriptOf_writes hs
    · exact scriptOf_writes hs
  constructor
  · apply hfound.nodup.map_on
    intro x hx y hy hxy
    obtain ⟨s, rfl, hs⟩ := (hscript x).mp hx
    obtain ⟨s', rfl, hs'⟩ := (hscript y).mp hy
    rw [hback s hs, hback s' hs'] at hxy
    rw [hxy]
  · intro s
    constructor
    · intro h
      obtain ⟨path, hpath, rfl⟩ := List.mem_map.mp h
      obtain ⟨s', rfl, hs'⟩ := (hscript path).mp hpath
      rw [hback s' hs']
      exact hs'
    · intro h
      exact List.mem_map.mpr ⟨_, (hscript _).mpr ⟨s, rfl, h⟩, hback s h⟩

def Fresh (history : List Generation) : Generation → Prop
  | .lfs book =>
    ∀ g ∈ history, ∀ path ∈ written g, ChapterFile path → path ∈ written (.lfs book)
  | .blfs book menuconfig =>
    Loads book → ∀ g ∈ history, ∀ s, WritesScript g s → s ∉ blfsScripts book →
      ∀ name ∈ consulted (bookKconfig book) (menuconfig (some (cmdTxt book)) none),
        ¬ Regex.search (namePattern name) s.file

theorem writesScript_blfs {book : BlfsBook} {menuconfig : Option Text → Option Text → Text}
    {s : Script} : WritesScript (.blfs book menuconfig) s ↔ s ∈ blfsScripts book := by
  constructor
  · rintro ⟨book', menuconfig', heq, hs⟩
    cases heq
    exact hs
  · exact fun hs => ⟨book, menuconfig, rfl, hs⟩

section
variable {lfsText : Xml → Script → Text} {blfsText : Entry → Text} {t : Files Text}
  {history : List Generation} {book : BlfsBook} {menuconfig : Option Text → Option Text → Text}

theorem blfsPy_read (files : List Script) :
    ((generate lfsText blfsText t (.blfs book menuconfig) cmdFile).bind fun cmd =>
      (generate lfsText blfsText t (.blfs book menuconfig) configurationFile).bind fun config =>
        blfsPy cmd config files) =
      blfsPy (cmdTxt book) (menuconfig (some (cmdTxt book)) none) files := by
  obtain ⟨hcmd, hconf⟩ := generate_cmdFile lfsText blfsText t book menuconfig
  rw [hcmd, hconf]
  rfl

theorem same_listings_iff (hclean : Clean t) {found clean : List Text}
    (hfound : (generate lfsText blfsText (generateAll lfsText blfsText t history)
      (.blfs book menuconfig)).Lists BlfsFile found)
    (hcleanly : (generate lfsText blfsText t (.blfs book menuconfig)).Lists BlfsFile clean) :
    Option.Rel Makefile.Same
        (blfsPy (cmdTxt book) (menuconfig (some (cmdTxt book)) none)
          (found.map (scriptOf blfsCommands)))
        (blfsPy (cmdTxt book) (menuconfig (some (cmdTxt book)) none)
          (clean.map (scriptOf blfsCommands))) ↔
      Fresh history (.blfs book menuconfig) := by
  obtain ⟨hn, hall⟩ := found_scripts hclean history hfound
  obtain ⟨hn', hnew⟩ := found_scripts hclean [] hcleanly
  simp only [List.not_mem_nil, false_and, exists_false, or_false, writesScript_blfs] at hnew hall
  rw [blfsPy_same_iff hn' hn fun s hs => (hall s).mpr (.inl ((hnew s).mp hs))]
  constructor
  · intro h hloads g hg s hs hno name hname
    exact h _ (load_cmdTxt.mpr ⟨hloads, rfl⟩) name hname s ((hall s).mpr (.inr ⟨g, hg, hs⟩))
      fun hc => hno ((hnew s).mp hc)
  · intro h k hk name hname s hs hno
    obtain ⟨hloads, rfl⟩ := load_cmdTxt.mp hk
    rcases (hall s).mp hs with hs | ⟨g, hg, hs⟩
    · exact absurd ((hnew s).mpr hs) hno
    · exact h hloads g hg s hs (fun hb => hno ((hnew s).mpr hb)) name hname

end

/-- The Makefile stays the same exactly when kconfiglib refuses the book, or no
earlier book left a script that matches a name for which files are searched. -/
theorem blfs_independent_iff (lfsText : Xml → Script → Text) (blfsText : Entry → Text)
    {t : Files Text} (hclean : Clean t) (history : List Generation) (book : BlfsBook)
    (menuconfig : Option Text → Option Text → Text) :
    Independent lfsText blfsText t history (.blfs book menuconfig) ↔
      Fresh history (.blfs book menuconfig) := by
  have hp : ∀ path, BlfsFile path → ChapterFile path ∨ BlfsFile path := fun _ h => .inr h
  constructor
  · intro h
    obtain ⟨found, hfound⟩ :=
      exists_found lfsText blfsText hclean hp history (.blfs book menuconfig)
    obtain ⟨clean, hcleanly⟩ := exists_found lfsText blfsText hclean hp [] (.blfs book menuconfig)
    have hsame := Output.same_blfs.mp (h _ _ (.blfs hfound) (.blfs hcleanly))
    rw [blfsPy_read, blfsPy_read] at hsame
    exact (same_listings_iff hclean hfound hcleanly).mp hsame
  · intro h out cln hout hcln
    cases hout with
    | @blfs _ _ found hfound =>
      cases hcln with
      | @blfs _ _ clean hcleanly =>
        apply Output.same_blfs.mpr
        rw [blfsPy_read, blfsPy_read]
        exact (same_listings_iff hclean hfound hcleanly).mpr h

/-- After any earlier generations, a Makefile is the one of a clean tree exactly
when nothing that they left behind is read. -/
theorem independent_iff (lfsText : Xml → Script → Text) (blfsText : Entry → Text)
    {t : Files Text} (hclean : Clean t) (history : List Generation) (last : Generation) :
    Independent lfsText blfsText t history last ↔ Fresh history last := by
  cases last with
  | lfs book => exact lfs_independent_iff lfsText blfsText hclean history book
  | blfs book menuconfig =>
    exact blfs_independent_iff lfsText blfsText hclean history book menuconfig

def zlibBook : BlfsBook := chapterBook [("zlib", [])] (by decide) (by decide)
def zlibFirst : BlfsBook := chapterBook [("zlib", []), ("bzip2", [])] (by decide) (by decide)
def zlibSecond : BlfsBook := chapterBook [("bzip2", []), ("zlib", [])] (by decide) (by decide)

theorem independent_zlibFirst :
    Independent (fun _ _ => []) (fun _ => []) (fun _ => none)
      [.lfs (systemBook 1), .blfs zlibFirst fun _ _ => "zlib=y\n".toList]
      (.blfs zlibBook fun _ _ => "zlib=y\n".toList) := by
  refine (independent_iff _ _ (fun _ _ => rfl) _ _).mpr ?_
  rintro - g hg s ⟨book, menuconfig, rfl, hs⟩ hno
  have hbook : book = zlibFirst := by
    simp only [List.mem_cons, List.not_mem_nil, or_false, reduceCtorEq, false_or] at hg
    injection hg
  subst hbook
  have hscripts : ∀ s ∈ blfsScripts zlibFirst, s ∉ blfsScripts zlibBook →
      ∀ name ∈ consulted (bookKconfig zlibBook) "zlib=y\n".toList,
        ¬ Regex.search (namePattern name) s.file := by decide
  exact hscripts s hs hno

/-- A section that a smaller book does not have, and one whose number changes. -/
theorem not_independent :
    (¬ Independent (fun _ _ => []) (fun _ => []) (fun _ => none) [.lfs (systemBook 2)]
      (.lfs (systemBook 1))) ∧
    ¬ Independent (fun _ _ => []) (fun _ => []) (fun _ => none)
      [.blfs zlibFirst fun _ _ => "zlib=y\n".toList]
      (.blfs zlibSecond fun _ _ => "zlib=y\n".toList) := by
  constructor
  · rw [lfs_independent_iff _ _ fun _ _ => rfl]
    intro h
    have hfile : ChapterFile (lfsCommands ++ "chapter08/802-glibc".toList) :=
      ⟨"08".toList, "802-glibc".toList, rfl, by decide, by decide, by decide⟩
    exact absurd (h _ List.mem_cons_self _ (by decide) hfile) (by decide)
  · rw [blfs_independent_iff _ _ fun _ _ => rfl]
    intro h
    have hloads : Loads zlibSecond :=
      ((load_cmdTxt (k := bookKconfig zlibSecond)).mp (by decide)).1
    have hold : WritesScript (.blfs zlibFirst fun _ _ => "zlib=y\n".toList)
        ⟨"general".toList, "1-1-zlib".toList⟩ := ⟨_, _, rfl, by decide⟩
    exact absurd (by decide) (h hloads _ List.mem_cons_self _ hold (by decide) "zlib".toList
      (by decide))

end HaoosLfs.Build
